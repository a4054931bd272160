import Reshape.Proofs.Evaluation.ForeachMap
import Reshape.Proofs.Template.Invariant

/-!
# Renaming the variable of a foreach

The variable of a foreach can be given any name that does not occur in its body. Its free
occurrences are renamed with it: where an inner foreach binds the same variable, the source of that
foreach follows and its body stays.
-/

namespace Reshape

def Key.rename (x y : String) : Key → Key
  | .literal name => .literal name
  | .computed e => .computed (e.replaceVar x (.var y))

namespace Plan

mutual

/-- The free occurrences of `x` become `y`. -/
def rename (x y : String) : Plan → Plan
  | literal v => literal v
  | expr e => expr (e.replaceVar x (.var y))
  | object entries => object (renameEntries x y entries)
  | array items => array (renameItems x y items)
  | foreach source name body =>
    foreach (rename x y source) name (if name = x then body else rename x y body)

def renameItems (x y : String) : List Plan → List Plan
  | [] => []
  | item :: rest => rename x y item :: renameItems x y rest

def renameEntries (x y : String) : List (Key × Plan) → List (Key × Plan)
  | [] => []
  | (key, plan) :: rest => (key.rename x y, rename x y plan) :: renameEntries x y rest

end

end Plan

def Key.occurring : Key → List String
  | .literal _ => []
  | .computed e => e.names

namespace Plan

mutual

/-- The names that a plan refers to or binds. -/
def occurring : Plan → List String
  | literal _ => []
  | expr e => e.names
  | object entries => occurringEntries entries
  | array items => occurringItems items
  | foreach source name body => source.occurring ++ name :: body.occurring

def occurringItems : List Plan → List String
  | [] => []
  | item :: rest => item.occurring ++ occurringItems rest

def occurringEntries : List (Key × Plan) → List String
  | [] => []
  | (key, plan) :: rest => key.occurring ++ plan.occurring ++ occurringEntries rest

end

/-- The first plan is the second or occurs inside it. -/
inductive Part : Plan → Plan → Prop where
  | refl (plan : Plan) : Part plan plan
  | item {part item : Plan} {items : List Plan} : item ∈ items → Part part item →
    Part part (array items)
  | entry {part : Plan} {entry : Key × Plan} {entries : List (Key × Plan)} : entry ∈ entries →
    Part part entry.2 → Part part (object entries)
  | source {part source : Plan} (name : String) (body : Plan) : Part part source →
    Part part (foreach source name body)
  | body {part body : Plan} (source : Plan) (name : String) : Part part body →
    Part part (foreach source name body)

end Plan

theorem Expr.mem_names_of_freeNames {e : Expr} {name : String} (h : name ∈ e.freeNames)
    (hElement : name ≠ elementName) : name ∈ e.names := by
  unfold freeNames at h
  split at h
  · exact (List.mem_cons.mp h).resolve_left hElement
  · exact h

theorem Key.mem_occurring_of_freeNames {key : Key} {name : String} (h : name ∈ key.freeNames)
    (hElement : name ≠ elementName) : name ∈ key.occurring := by
  cases key with
  | literal text => exact h
  | computed e => exact Expr.mem_names_of_freeNames h hElement

namespace Plan

mutual

theorem mem_occurring_of_freeNames (plan : Plan) {name : String} (h : name ∈ plan.freeNames)
    (hElement : name ≠ elementName) : name ∈ plan.occurring := by
  cases plan with
  | literal v => exact h
  | expr e => exact Expr.mem_names_of_freeNames h hElement
  | object entries => exact mem_occurringEntries entries h hElement
  | array items => exact mem_occurringItems items h hElement
  | foreach source bound body =>
    rcases List.mem_append.mp h with h | h
    · exact List.mem_append_left _ (mem_occurring_of_freeNames source h hElement)
    · have hBody := mem_occurring_of_freeNames body (List.mem_filter.mp h).1 hElement
      exact List.mem_append_right _ (List.mem_cons_of_mem _ hBody)

theorem mem_occurringItems (items : List Plan) {name : String} (h : name ∈ itemNames items)
    (hElement : name ≠ elementName) : name ∈ occurringItems items := by
  cases items with
  | nil => exact h
  | cons item rest =>
    rcases List.mem_append.mp h with h | h
    · exact List.mem_append_left _ (mem_occurring_of_freeNames item h hElement)
    · exact List.mem_append_right _ (mem_occurringItems rest h hElement)

theorem mem_occurringEntries (entries : List (Key × Plan)) {name : String}
    (h : name ∈ entryNames entries) (hElement : name ≠ elementName) :
    name ∈ occurringEntries entries := by
  match entries with
  | [] => exact h
  | (key, plan) :: rest =>
    rcases List.mem_append.mp h with h | h
    · refine List.mem_append_left _ ?_
      rcases List.mem_append.mp h with h | h
      · exact List.mem_append_left _ (Key.mem_occurring_of_freeNames h hElement)
      · exact List.mem_append_right _ (mem_occurring_of_freeNames plan h hElement)
    · exact List.mem_append_right _ (mem_occurringEntries rest h hElement)

end

end Plan

namespace Scope

/-- `t` binds `y` to what `s` binds `x` to, and every other name to what `s` binds it to. -/
structure Renamed (x y : String) (s t : Scope) : Prop where
  renamed : t.get? y = s.get? x
  other : ∀ name, name ≠ x → name ≠ y → t.get? name = s.get? name

variable {x y : String} {s t : Scope}

theorem renamed_bind (x y : String) (v : Value) (s : Scope) :
    Renamed x y (.bind x v s) (.bind y v s) where
  renamed := by simp
  other name hx hy := by simp [hx.symm, hy.symm]

theorem Renamed.bind (h : Renamed x y s t) {name : String} (hx : name ≠ x) (hy : name ≠ y)
    (v : Value) : Renamed x y (.bind name v s) (.bind name v t) where
  renamed := by simp [hx, hy, h.renamed]
  other other hOtherX hOtherY := by
    by_cases hName : name = other
    · simp [hName]
    · simp [hName, h.other other hOtherX hOtherY]

/-- Where `x` is bound anew and `y` is not looked up, there is nothing to rename. -/
theorem Renamed.agree_bind (h : Renamed x y s t) {names : List String} (hFresh : y ∉ names)
    (v : Value) : Agree names (.bind x v t) (.bind x v s) := by
  intro name hName
  by_cases hx : x = name
  · simp [hx]
  · have hy : name ≠ y := by
      rintro rfl
      exact hFresh hName
    simp [hx, h.other name (Ne.symm hx) hy]

theorem Renamed.eval_var (h : Renamed x y s t) {name : String} (hFresh : name ≠ y) :
    (if name = x then Expr.var y else Expr.var name).eval t = s.get name := by
  split
  · rename_i hx
    rw [hx, Expr.eval, get, get, h.renamed]
  · rename_i hx
    exact get_eq_of_get? (h.other name hx hFresh)

end Scope

/-- Names that a foreach can bind without hiding the root or the element. -/
structure Bindable (x : String) : Prop where
  root : rootName ≠ x
  element : elementName ≠ x

theorem bindable_of_isVariableName {x : String}
    (h : Template.Compiler.isVariableName x = true) (hRoot : x ≠ rootName) : Bindable x where
  root := hRoot.symm
  element := by
    rintro rfl
    cases Template.Compiler.head?_of_isVariableName h

variable {x y : String} {s t : Scope}

theorem Expr.eval_rename {e : Expr} (hx : Bindable x) (hy : Bindable y) (hFresh : y ∉ e.names)
    (h : Scope.Renamed x y s t) : (e.replaceVar x (.var y)).eval t = e.eval s := by
  have hOther {name : String} (hName : name ∈ e.names) : name ≠ y := by
    rintro rfl
    exact hFresh hName
  refine eval_substitute (fun name => ?_) rfl ⟨?_, ?_, ?_, ?_⟩
  · split <;> rfl
  · exact Scope.get_eq_of_get? (h.other rootName hx.root hy.root)
  · intro name hName
    exact h.eval_var (hOther hName)
  · intro _
    exact Scope.get_eq_of_get? (h.other elementName hx.element hy.element)
  · intro name hName v
    exact (h.bind hx.element hy.element v).eval_var (hOther (e.argumentNames_subset hName))

theorem Key.eval_rename {key : Key} (hx : Bindable x) (hy : Bindable y)
    (hFresh : y ∉ key.occurring) (h : Scope.Renamed x y s t) :
    (key.rename x y).eval t = key.eval s := by
  cases key with
  | literal name => rfl
  | computed e => exact congrArg Value.text (Expr.eval_rename hx hy hFresh h)

namespace Plan

mutual

theorem eval_rename {s t : Scope} (plan : Plan) (hx : Bindable x) (hy : Bindable y)
    (hFresh : y ∉ plan.occurring) (h : Scope.Renamed x y s t) :
    (plan.rename x y).eval t = plan.eval s := by
  cases plan with
  | literal v => rfl
  | expr e => exact Expr.eval_rename hx hy hFresh h
  | object entries => rw [rename, eval, eval, evalEntries_rename entries hx hy hFresh h]
  | array items => rw [rename, eval, eval, evalItems_rename items hx hy hFresh h]
  | foreach source name body =>
    simp only [occurring, List.mem_append, List.mem_cons, not_or] at hFresh
    obtain ⟨hSource, hName, hBody⟩ := hFresh
    have hItem (v : Value) : (if name = x then body else body.rename x y).eval (.bind name v t) =
        body.eval (.bind name v s) := by
      split
      · -- The inner foreach binds `x` itself, so its body is left as it is.
        rename_i hShadow
        have hFree : y ∉ body.freeNames := fun hMember =>
          hBody (body.mem_occurring_of_freeNames hMember hy.element.symm)
        rw [hShadow]
        exact body.eval_eq_of_freeNames (h.agree_bind hFree v)
      · rename_i hOther
        exact eval_rename body hx hy hBody (h.bind hOther (Ne.symm hName) v)
    simp only [rename, eval, eval_rename source hx hy hSource h, hItem]

theorem evalItems_rename {s t : Scope} (items : List Plan) (hx : Bindable x) (hy : Bindable y)
    (hFresh : y ∉ occurringItems items) (h : Scope.Renamed x y s t) :
    evalItems t (renameItems x y items) = evalItems s items := by
  cases items with
  | nil => rfl
  | cons item rest =>
    simp only [occurringItems, List.mem_append, not_or] at hFresh
    obtain ⟨hItem, hRest⟩ := hFresh
    rw [renameItems, evalItems, evalItems, eval_rename item hx hy hItem h,
      evalItems_rename rest hx hy hRest h]

theorem evalEntries_rename {s t : Scope} (entries : List (Key × Plan)) (hx : Bindable x)
    (hy : Bindable y) (hFresh : y ∉ occurringEntries entries) (h : Scope.Renamed x y s t) :
    evalEntries t (renameEntries x y entries) = evalEntries s entries := by
  match entries with
  | [] => rfl
  | (key, plan) :: rest =>
    simp only [occurringEntries, List.mem_append, not_or] at hFresh
    obtain ⟨⟨hKey, hPlan⟩, hRest⟩ := hFresh
    rw [renameEntries, evalEntries, evalEntries, Key.eval_rename hx hy hKey h,
      eval_rename plan hx hy hPlan h, evalEntries_rename rest hx hy hRest h]

end

theorem eval_foreach_rename {source body : Plan} (hx : Bindable x) (hy : Bindable y)
    (hFresh : y ∉ body.occurring) (scope : Scope) :
    (foreach source y (body.rename x y)).eval scope = (foreach source x body).eval scope := by
  have hItem (v : Value) := body.eval_rename hx hy hFresh (Scope.renamed_bind x y v scope)
  simp only [eval, hItem]

end Plan

namespace Template

open Compiler (isVariableName)

def Compiler.BindsVariables (plan : Plan) : Prop :=
  ∀ source x body, (Plan.foreach source x body).Part plan → isVariableName x = true

theorem Compiler.invariant_bindsVariables :
    Invariant (fun _ => True) (fun _ _ => True) (fun _ plan => BindsVariables plan) where
  item _ _ := trivial
  value _ _ := trivial
  literal _ _ _ _ hPart := by cases hPart
  expression {_ _ e} _ _ _ _ hPart := by cases e <;> cases hPart
  name _ := trivial
  computed _ := trivial
  object hEntries source x body hPart := by
    cases hPart with
    | entry hEntry hPart => exact (hEntries _ hEntry).2 source x body hPart
  array hItems source x body hPart := by
    cases hPart with
    | item hItem hPart => exact hItems _ hItem source x body hPart
  foreach hName hSource hBody source x body hPart := by
    cases hPart with
    | refl => exact hName
    | source _ _ hPart => exact hSource source x body hPart
    | body _ _ hPart => exact hBody source x body hPart

/-- Every foreach that the compiler gives can bind a fresh variable in place of its own. -/
theorem eval_rename_of_compile {template : Value} {plan source body : Plan}
    {x y : String} (hCompile : compile template = .ok plan)
    (hPart : (Plan.foreach source x body).Part plan) (hxRoot : x ≠ rootName)
    (hy : isVariableName y = true) (hyRoot : y ≠ rootName) (hFresh : y ∉ body.occurring)
    (scope : Scope) :
    (Plan.foreach source y (body.rename x y)).eval scope =
      (Plan.foreach source x body).eval scope := by
  have hx := Compiler.invariant_bindsVariables.compile trivial hCompile source x body hPart
  exact Plan.eval_foreach_rename (bindable_of_isVariableName hx hxRoot)
    (bindable_of_isVariableName hy hyRoot) hFresh scope

/-- The inner foreach binds the renamed variable again: only its source follows. -/
theorem eval_rename_of_compile_shadowed :
    let template := Value.array [.string "foreach", .string ".rows", .string "$r",
      .object [("$r.name", .array [.string "foreach", .string "$r.tags", .string "$r",
        .string "$r"]), ("own", .string "$r.tags !filter @ = $r.name")]]
    let source := Plan.expr (.field .root (.literal (.string "rows")))
    let fieldOf (x name : String) := Expr.field (.var x) (.literal (.string name))
    let bodyOf (x : String) := Plan.object
      [(.computed (fieldOf x "name"),
        .foreach (.expr (fieldOf x "tags")) "$r" (.expr (.var "$r"))),
      (.literal "own", .expr (.filter (fieldOf x "tags") (.equals .element (fieldOf x "name"))))]
    compile template = .ok (.foreach source "$r" (bodyOf "$r")) ∧ "$r" ≠ rootName ∧
      isVariableName "$row" = true ∧ "$row" ≠ rootName ∧ "$row" ∉ (bodyOf "$r").occurring ∧
      ∀ scope, (Plan.foreach source "$row" (bodyOf "$row")).eval scope =
        (Plan.foreach source "$r" (bodyOf "$r")).eval scope := by
  intro template source fieldOf bodyOf
  have hCompile : compile template = .ok (.foreach source "$r" (bodyOf "$r")) := by
    with_unfolding_all rfl
  have hRename : (bodyOf "$r").rename "$r" "$row" = bodyOf "$row" := rfl
  have hName : isVariableName "$row" = true := by decide
  have hFresh : "$row" ∉ (bodyOf "$r").occurring := by decide
  refine ⟨hCompile, by decide, hName, by decide, hFresh, fun scope => ?_⟩
  rw [← hRename]
  exact eval_rename_of_compile hCompile (.refl _) (by decide) hName (by decide) hFresh scope

end Template

end Reshape
