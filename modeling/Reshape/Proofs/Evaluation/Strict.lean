import Mathlib
import Reshape.Proofs.Template.Scoped
import Reshape.Evaluation.Plan

/-!
# Strict evaluation

The strict evaluator fails where a name has no binding, and otherwise follows the evaluator step by
step. In a scope that binds all names of a scoped plan it never fails.
-/

namespace Reshape

namespace Expr

def onArray? (f : List Value → Option Value) : Value → Option Value
  | .array items => f items
  | _ => some .null

def eval? : Expr → Scope → Option Value
  | root, scope => scope.get? rootName
  | var name, scope => scope.get? name
  | element, scope => scope.get? elementName
  | literal v, _ => some v
  | field base key, scope => do
    let base' ← eval? base scope
    let key' ← eval? key scope
    return if base.isSpread then base'.getSpread key' else base'.get key'
  | spread base, scope => eval? base scope
  | search base key, scope => do
    return .array ((← eval? base scope).search (← eval? key scope).text)
  | or a b, scope => do
    let left ← eval? a scope
    if left.isTruthy then return left else eval? b scope
  | and a b, scope => do
    let left ← eval? a scope
    if left.isTruthy then eval? b scope else return left
  | equals a b, scope => do return .bool ((← eval? a scope).equal (← eval? b scope))
  | add a b, scope => do return (← eval? a scope).add (← eval? b scope)
  | not a, scope => do return .bool (!(← eval? a scope).isTruthy)
  | toBool a, scope => do return .bool (← eval? a scope).isTruthy
  | dedup base, scope => do
    onArray? (fun items => some (.array (Value.dedup items))) (← eval? base scope)
  | sort base, scope => do
    onArray? (fun items => some (.array (Value.sort items))) (← eval? base scope)
  | sortBy base key, scope => do
    let base' ← eval? base scope
    onArray?
      (fun items => do
        let keys ← items.mapM fun v => eval? key (.bind elementName v scope)
        return .array (Value.sortByKeys keys items)) base'
  | filter base test, scope => do
    let base' ← eval? base scope
    onArray?
      (fun items => do
        return .array (← items.filterM fun v => do
          return (← eval? test (.bind elementName v scope)).isTruthy)) base'
  | map base body, scope => do
    let base' ← eval? base scope
    onArray?
      (fun items => do
        return .array (← items.mapM fun v => eval? body (.bind elementName v scope))) base'
  | reparse base, scope => do return (← eval? base scope).reparse

end Expr

def Key.eval? (scope : Scope) : Key → Option String
  | .literal name => some name
  | .computed e => do return (← e.eval? scope).text

namespace Plan

mutual

def eval? (scope : Scope) : Plan → Option Value
  | literal v => some v
  | expr e => e.eval? scope
  | object entries => do return .object (Value.fieldsOf (← evalEntries? scope entries))
  | array items => do return .array (← evalItems? scope items)
  | foreach source name body => do
    let source' ← eval? scope source
    Expr.onArray?
      (fun items => do return .array (← items.mapM fun v => eval? (.bind name v scope) body))
      source'

def evalItems? (scope : Scope) : List Plan → Option (List Value)
  | [] => some []
  | item :: rest => do return (← eval? scope item) :: (← evalItems? scope rest)

def evalEntries? (scope : Scope) : List (Key × Plan) → Option (List (String × Value))
  | [] => some []
  | (key, plan) :: rest => do
    let name ← key.eval? scope
    let value ← eval? scope plan
    return (name, value) :: (← evalEntries? scope rest)

end

end Plan

theorem mapM_some {f : α → Option β} {g : α → β} (h : ∀ a, f a = some (g a)) (as : List α) :
    as.mapM f = some (as.map g) := by
  rw [show f = fun a => pure (g a) from funext h, List.mapM_pure]
  rfl

theorem filterAuxM_some {α : Type} {f : α → Option Bool} {g : α → Bool}
    (h : ∀ a, f a = some (g a)) (as acc : List α) :
    as.filterAuxM f acc = some ((as.filter g).reverse ++ acc) := by
  induction as generalizing acc with
  | nil => rfl
  | cons a as ih =>
    rw [List.filterAuxM, h a]
    cases hTest : g a <;> simp [ih, hTest]

theorem filterM_some {α : Type} {f : α → Option Bool} {g : α → Bool}
    (h : ∀ a, f a = some (g a)) (as : List α) : as.filterM f = some (as.filter g) := by
  simp [List.filterM, filterAuxM_some h]

namespace Scope

structure Covers (scope : Scope) (names : List String) (bound : Bool) : Prop where
  root : (scope.get? rootName).isSome
  names : ∀ name ∈ names, (scope.get? name).isSome
  element : bound = true → (scope.get? elementName).isSome

theorem get?_eq_some_get {scope : Scope} {name : String} (h : (scope.get? name).isSome) :
    scope.get? name = some (scope.get name) := by
  obtain ⟨v, hValue⟩ := Option.isSome_iff_exists.mp h
  rw [get, hValue]
  rfl

theorem isSome_get?_bind {scope : Scope} {name : String} (bound : String) (v : Value)
    (h : (scope.get? name).isSome) : ((bind bound v scope).get? name).isSome := by
  by_cases hName : bound = name <;> simp [hName, h]

theorem covers_root (input : Value) : (root input).Covers [] false where
  root := rfl
  names := by simp
  element := by simp

variable {scope : Scope} {names : List String} {bound : Bool}

theorem Covers.bind (h : scope.Covers names bound) (name : String) (v : Value) :
    (Scope.bind name v scope).Covers (name :: names) bound where
  root := isSome_get?_bind name v h.root
  names := by
    refine List.forall_mem_cons.mpr ⟨?_, fun other hOther => ?_⟩
    · simp
    · exact isSome_get?_bind name v (h.names other hOther)
  element hBound := isSome_get?_bind name v (h.element hBound)

theorem Covers.bindElement (h : scope.Covers names bound) (v : Value) :
    (Scope.bind elementName v scope).Covers names true where
  root := isSome_get?_bind elementName v h.root
  names name hName := isSome_get?_bind elementName v (h.names name hName)
  element _ := by simp

end Scope

variable {scope : Scope} {names : List String} {bound : Bool}

theorem Expr.onArray?_some {f : List Value → Option Value} {g : List Value → Value}
    (h : ∀ items, f items = some (g items)) (v : Value) :
    onArray? f v = some (onArray g v) := by
  cases v with
  | array items => exact h items
  | _ => rfl

theorem Expr.eval?_of_scoped {e : Expr} (h : e.Scoped names bound)
    (hScope : scope.Covers names bound) : e.eval? scope = some (e.eval scope) := by
  induction e generalizing scope bound with
  | root => exact Scope.get?_eq_some_get hScope.root
  | var name => exact Scope.get?_eq_some_get (hScope.names name h)
  | element => exact Scope.get?_eq_some_get (hScope.element h)
  | literal v => rfl
  | field a b iha ihb | search a b iha ihb | equals a b iha ihb | add a b iha ihb =>
    simp [eval?, eval, iha h.1 hScope, ihb h.2 hScope]
  | or a b iha ihb | and a b iha ihb =>
    simp only [eval?, eval, iha h.1 hScope, ihb h.2 hScope, Option.bind_eq_bind,
      Option.bind_some]
    split <;> rfl
  | spread a ih => exact ih h hScope
  | not a ih | toBool a ih | reparse a ih => simp [eval?, eval, ih h hScope]
  | dedup a ih | sort a ih =>
    simp only [eval?, eval, ih h hScope, Option.bind_eq_bind, Option.bind_some]
    exact onArray?_some (fun _ => rfl) _
  | sortBy base key ihBase ihKey =>
    have hKey (v : Value) := ihKey h.2 (hScope.bindElement v)
    simp only [eval?, eval, ihBase h.1 hScope, Option.bind_eq_bind, Option.bind_some]
    refine onArray?_some (fun items => ?_) _
    rw [mapM_some hKey items]
    rfl
  | filter base test ihBase ihTest =>
    have hTest (v : Value) := ihTest h.2 (hScope.bindElement v)
    simp only [eval?, eval, ihBase h.1 hScope, Option.bind_eq_bind, Option.bind_some]
    refine onArray?_some (fun items => ?_) _
    rw [filterM_some (fun v => by rw [hTest v]; rfl) items]
    rfl
  | map base body ihBase ihBody =>
    have hBody (v : Value) := ihBody h.2 (hScope.bindElement v)
    simp only [eval?, eval, ihBase h.1 hScope, Option.bind_eq_bind, Option.bind_some]
    refine onArray?_some (fun items => ?_) _
    rw [mapM_some hBody items]
    rfl

theorem Key.eval?_of_scoped {key : Key} (h : key.Scoped names)
    (hScope : scope.Covers names false) : key.eval? scope = some (key.eval scope) := by
  cases key with
  | literal name => rfl
  | computed e =>
    rw [Key.eval?, Expr.eval?_of_scoped h hScope]
    rfl

namespace Plan

mutual

theorem eval?_of_scoped {scope : Scope} {names : List String} (plan : Plan)
    (h : plan.Scoped names) (hScope : scope.Covers names false) :
    plan.eval? scope = some (plan.eval scope) := by
  cases plan with
  | literal v => rfl
  | expr e => exact Expr.eval?_of_scoped h hScope
  | object entries =>
    rw [eval?, evalEntries?_of_scoped entries h hScope]
    rfl
  | array items =>
    rw [eval?, evalItems?_of_scoped items h hScope]
    rfl
  | foreach source name body =>
    have hBody (v : Value) := eval?_of_scoped body h.2 (hScope.bind name v)
    rw [eval?, eval?_of_scoped source h.1 hScope]
    refine Expr.onArray?_some (fun items => ?_) _
    rw [mapM_some hBody items]
    rfl

theorem evalItems?_of_scoped {scope : Scope} {names : List String} (items : List Plan)
    (h : ScopedItems names items) (hScope : scope.Covers names false) :
    evalItems? scope items = some (evalItems scope items) := by
  cases items with
  | nil => rfl
  | cons item rest =>
    rw [evalItems?, eval?_of_scoped item h.1 hScope, evalItems?_of_scoped rest h.2 hScope]
    rfl

theorem evalEntries?_of_scoped {scope : Scope} {names : List String} (entries : List (Key × Plan))
    (h : ScopedEntries names entries) (hScope : scope.Covers names false) :
    evalEntries? scope entries = some (evalEntries scope entries) := by
  match entries with
  | [] => rfl
  | (key, plan) :: rest =>
    rw [evalEntries?, Key.eval?_of_scoped h.1 hScope, eval?_of_scoped plan h.2.1 hScope,
      evalEntries?_of_scoped rest h.2.2 hScope]
    rfl

end

end Plan

namespace Template

/-- A template that compiles has a scoped plan, and no name that it looks up lacks a binding. -/
theorem eval?_of_compile {v : Value} {plan : Plan} (h : compile v = .ok plan) :
    plan.Scoped [] ∧ ∀ input, plan.eval? (.root input) = some (plan.apply input) := by
  have hScoped := scoped_compile h
  exact ⟨hScoped, fun input => Plan.eval?_of_scoped plan hScoped (Scope.covers_root input)⟩

theorem eval?_of_compile_foreach :
    let v := Value.array [.string "foreach", .string ".rows", .string "$r",
      .object [("$r.name", .string "$r.tags !map @.id")]]
    let plan := Plan.foreach (.expr (.field .root (.literal (.string "rows")))) "$r"
      (.object [(.computed (.field (.var "$r") (.literal (.string "name"))),
        .expr (.map (.field (.var "$r") (.literal (.string "tags")))
          (.field .element (.literal (.string "id")))))])
    compile v = .ok plan ∧ plan.Scoped [] ∧
      ∀ input, plan.eval? (.root input) = some (plan.apply input) := by
  intro v plan
  have hCompile : compile v = .ok plan := by cbv
  exact ⟨hCompile, eval?_of_compile hCompile⟩

end Template

end Reshape
