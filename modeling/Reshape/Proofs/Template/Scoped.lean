import Reshape.Proofs.Expression.Scoped
import Reshape.Proofs.Template.Invariant

/-!
# Compiled plans are scoped

The body of a foreach is compiled with one name more than the foreach, so the plan of a template is
scoped.
-/

namespace Reshape

def Key.Scoped (names : List String) : Key → Prop
  | literal _ => True
  | computed e => e.Scoped names false

namespace Plan

mutual

/-- Each variable is bound by a foreach around it or by `names`, and no element is free. -/
def Scoped (names : List String) : Plan → Prop
  | literal _ => True
  | expr e => e.Scoped names false
  | object entries => ScopedEntries names entries
  | array items => ScopedItems names items
  | foreach source name body => source.Scoped names ∧ body.Scoped (name :: names)

def ScopedItems (names : List String) : List Plan → Prop
  | [] => True
  | item :: rest => item.Scoped names ∧ ScopedItems names rest

def ScopedEntries (names : List String) : List (Key × Plan) → Prop
  | [] => True
  | (key, plan) :: rest => key.Scoped names ∧ plan.Scoped names ∧ ScopedEntries names rest

end

@[simp]
theorem scopedItems_iff {names : List String} {items : List Plan} :
    ScopedItems names items ↔ ∀ item ∈ items, item.Scoped names := by
  induction items with
  | nil => simp [ScopedItems]
  | cons item rest ih => rw [ScopedItems, ih, List.forall_mem_cons]

@[simp]
theorem scopedEntries_iff {names : List String} {entries : List (Key × Plan)} :
    ScopedEntries names entries ↔
      ∀ entry ∈ entries, entry.1.Scoped names ∧ entry.2.Scoped names := by
  induction entries with
  | nil => simp [ScopedEntries]
  | cons entry rest ih => rw [ScopedEntries, ih, List.forall_mem_cons, and_assoc]

end Plan

namespace Template

namespace Compiler

theorem scoped_planOf {names : List String} {e : Expr} (h : e.Scoped names false) :
    (planOf e).Scoped names := by
  cases e with
  | literal v => trivial
  | _ => exact h

theorem invariant_scoped :
    Invariant (fun _ => True) (fun names key => key.Scoped names)
      (fun names plan => plan.Scoped names) where
  item _ _ := trivial
  value _ _ := trivial
  literal _ := trivial
  expression hRead := scoped_planOf (Expression.scoped_read hRead)
  name _ := trivial
  computed hRead := Expression.scoped_read hRead
  object hEntries := Plan.scopedEntries_iff.mpr hEntries
  array hItems := Plan.scopedItems_iff.mpr hItems
  foreach _ hSource hBody := ⟨hSource, hBody⟩

end Compiler

theorem scoped_compile {v : Value} {plan : Plan} (h : compile v = .ok plan) : plan.Scoped [] :=
  Compiler.invariant_scoped.compile trivial h

end Template

end Reshape
