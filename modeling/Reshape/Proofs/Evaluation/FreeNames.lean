import Reshape.Evaluation.Plan
import Reshape.Proofs.Expression.Shape

/-!
# Free names

An expression is evaluated alike in two scopes that agree on its free names. A foreach binds its
variable in its body, which may be the root; a sort key, a filter and a map bind the element.
-/

namespace Reshape

namespace Expr

def names : Expr → List String
  | root => [rootName]
  | var name => [name]
  | element => []
  | literal _ => []
  | spread a => a.names
  | not a => a.names
  | toBool a => a.names
  | sort base => base.names
  | dedup base => base.names
  | reparse base => base.names
  | field a b => a.names ++ b.names
  | search a b => a.names ++ b.names
  | or a b => a.names ++ b.names
  | and a b => a.names ++ b.names
  | equals a b => a.names ++ b.names
  | add a b => a.names ++ b.names
  | sortBy base key => base.names ++ key.names
  | filter base test => base.names ++ test.names
  | map base body => base.names ++ body.names

/-- No part of an expression binds the root or a variable, so that all of them are free. -/
def freeNames (e : Expr) : List String :=
  if e.usesElement then elementName :: e.names else e.names

/-- A variable begins with a dollar sign, so that none is called like the element. -/
def WellNamed (e : Expr) : Prop := ∀ name ∈ e.names, name.toList.head? = some '$'

theorem WellNamed.element_not_mem {e : Expr} (h : e.WellNamed) : elementName ∉ e.names :=
  fun hMember => by simpa [elementName] using h elementName hMember

theorem WellNamed.not_mem_freeNames {e : Expr} (h : e.WellNamed)
    (hElement : e.usesElement = false) : elementName ∉ e.freeNames := by
  rw [freeNames, hElement]
  exact h.element_not_mem

end Expr

namespace Expression

theorem wellNamed_operand {scope : List String} {word : String} {e : Expr}
    (h : operand scope word = .ok e) : e.WellNamed := by
  obtain ⟨_, rfl⟩ | ⟨_, hDollar, _, rfl⟩ | ⟨_, rfl⟩ := operand_ok.mp h
  · simp [Expr.WellNamed, Expr.names, rootName]
  · simpa [Expr.WellNamed, Expr.names] using hDollar
  · simp [Expr.WellNamed, Expr.names]

theorem hereditary_wellNamed (scope : List String) : Hereditary scope Expr.WellNamed where
  operand _ _ h := wellNamed_operand h
  element := by simp [Expr.WellNamed, Expr.names]
  root := by simp [Expr.WellNamed, Expr.names, rootName]
  binary o a b e h ha hb := by
    have hBoth : ∀ name ∈ a.names ++ b.names, name.toList.head? = some '$' :=
      List.forall_mem_append.mpr ⟨ha, hb⟩
    cases o <;> cases h <;> exact hBoth
  unary o a e h ha := by
    cases o <;> cases h
    case rootField => exact List.forall_mem_cons.mpr ⟨rfl, ha⟩
    all_goals exact ha

theorem wellNamed_read {scope : List String} {text : String} {e : Expr}
    (h : read scope text = .ok e) : e.WellNamed := by
  obtain ⟨items, hBuild⟩ := read_ok h
  exact (hereditary_wellNamed scope).build hBuild

end Expression

def Key.freeNames : Key → List String
  | .literal _ => []
  | .computed e => e.freeNames

namespace Plan

mutual

def freeNames : Plan → List String
  | literal _ => []
  | expr e => e.freeNames
  | object entries => entryNames entries
  | array items => itemNames items
  | foreach source name body => source.freeNames ++ body.freeNames.filter (· ≠ name)

def itemNames : List Plan → List String
  | [] => []
  | item :: rest => item.freeNames ++ itemNames rest

def entryNames : List (Key × Plan) → List String
  | [] => []
  | (key, plan) :: rest => key.freeNames ++ plan.freeNames ++ entryNames rest

end

end Plan

namespace Scope

def Agree (names : List String) (s t : Scope) : Prop := ∀ name ∈ names, s.get? name = t.get? name

variable {s t : Scope} {xs ys : List String}

theorem get_eq_of_get? {name : String} (h : s.get? name = t.get? name) :
    s.get name = t.get name := by
  rw [get, get, h]

@[simp]
theorem agree_append : Agree (xs ++ ys) s t ↔ Agree xs s t ∧ Agree ys s t :=
  List.forall_mem_append

theorem Agree.bind {name : String} (h : Agree (xs.filter (· ≠ name)) s t) (v : Value) :
    Agree xs (.bind name v s) (.bind name v t) := by
  intro other hOther
  by_cases hName : name = other
  · simp [hName]
  · have hAgree := h other (List.mem_filter.mpr ⟨hOther, by simpa using Ne.symm hName⟩)
    simp [hName, hAgree]

theorem Agree.bind_of_agree (h : Agree xs s t) (name : String) (v : Value) :
    Agree xs (.bind name v s) (.bind name v t) :=
  Agree.bind (fun other hOther => h other (List.mem_filter.mp hOther).1) v

theorem agree_bind_of_not_mem {name : String} (h : name ∉ xs) (v : Value) (s : Scope) :
    Agree xs (.bind name v s) s := by
  intro other hOther
  have hName : name ≠ other := by
    rintro rfl
    exact h hOther
  simp [hName]

theorem agree_bind_bind (xs : List String) (name : String) (v w : Value) (s : Scope) :
    Agree xs (.bind name v (.bind name w s)) (.bind name v s) := by
  intro other _
  by_cases hName : name = other <;> simp [hName]

end Scope

namespace Expr

theorem eval_eq_of_names {e : Expr} {s t : Scope} (hNames : Scope.Agree e.names s t)
    (hElement : e.usesElement = true → s.get? elementName = t.get? elementName) :
    e.eval s = e.eval t := by
  induction e generalizing s t with
  | root | var name => exact Scope.get_eq_of_get? (hNames _ List.mem_cons_self)
  | element => exact Scope.get_eq_of_get? (hElement rfl)
  | literal v => rfl
  | field a b iha ihb | search a b iha ihb | equals a b iha ihb | add a b iha ihb
  | or a b iha ihb | and a b iha ihb =>
    obtain ⟨ha, hb⟩ := Scope.agree_append.mp hNames
    simp only [usesElement, Bool.or_eq_true] at hElement
    simp only [eval, iha ha fun h => hElement (.inl h), ihb hb fun h => hElement (.inr h)]
  | spread a ih | not a ih | toBool a ih | reparse a ih | sort a ih | dedup a ih =>
    simp only [eval, ih hNames hElement]
  | sortBy base key ihBase ihKey | filter base key ihBase ihKey | map base key ihBase ihKey =>
    obtain ⟨hBase, hKey⟩ := Scope.agree_append.mp hNames
    -- Inside of the argument both scopes bind the element to the same value.
    have hItem (v : Value) := ihKey (hKey.bind_of_agree elementName v) fun _ => by simp
    simp only [eval, ihBase hBase hElement, hItem]

theorem eval_eq_of_freeNames {e : Expr} {s t : Scope} (h : Scope.Agree e.freeNames s t) :
    e.eval s = e.eval t := by
  unfold freeNames at h
  split at h
  · obtain ⟨hElement, hNames⟩ := List.forall_mem_cons.mp h
    exact eval_eq_of_names hNames fun _ => hElement
  · rename_i hElement
    exact eval_eq_of_names h fun hUses => absurd hUses hElement

end Expr

theorem Key.eval_eq_of_freeNames {key : Key} {s t : Scope} (h : Scope.Agree key.freeNames s t) :
    key.eval s = key.eval t := by
  cases key with
  | literal name => rfl
  | computed e => exact congrArg Value.text (Expr.eval_eq_of_freeNames h)

namespace Plan

mutual

theorem eval_eq_of_freeNames (plan : Plan) {s t : Scope} (h : Scope.Agree plan.freeNames s t) :
    plan.eval s = plan.eval t := by
  cases plan with
  | literal v => rfl
  | expr e => exact Expr.eval_eq_of_freeNames h
  | object entries => rw [eval, eval, evalEntries_eq_of_freeNames entries h]
  | array items => rw [eval, eval, evalItems_eq_of_freeNames items h]
  | foreach source name body =>
    obtain ⟨hSource, hBody⟩ := Scope.agree_append.mp h
    have hItem (v : Value) := eval_eq_of_freeNames body (hBody.bind v)
    simp only [eval, eval_eq_of_freeNames source hSource, hItem]

theorem evalItems_eq_of_freeNames (items : List Plan) {s t : Scope}
    (h : Scope.Agree (itemNames items) s t) : evalItems s items = evalItems t items := by
  cases items with
  | nil => rfl
  | cons item rest =>
    obtain ⟨hItem, hRest⟩ := Scope.agree_append.mp h
    rw [evalItems, evalItems, eval_eq_of_freeNames item hItem, evalItems_eq_of_freeNames rest hRest]

theorem evalEntries_eq_of_freeNames (entries : List (Key × Plan)) {s t : Scope}
    (h : Scope.Agree (entryNames entries) s t) : evalEntries s entries = evalEntries t entries := by
  match entries with
  | [] => rfl
  | (key, plan) :: rest =>
    obtain ⟨hEntry, hRest⟩ := Scope.agree_append.mp h
    obtain ⟨hKey, hPlan⟩ := Scope.agree_append.mp hEntry
    rw [evalEntries, evalEntries, Key.eval_eq_of_freeNames hKey, eval_eq_of_freeNames plan hPlan,
      evalEntries_eq_of_freeNames rest hRest]

end

end Plan

/--
Only the bindings of free names count: bindings of other names do not, nor do shadowed ones, nor
does that of the element for an expression of the language where it is not free.
-/
theorem eval_eq_of_agree :
    (∀ (e : Expr) (s t : Scope), Scope.Agree e.freeNames s t → e.eval s = e.eval t) ∧
    (∀ (plan : Plan) (s t : Scope), Scope.Agree plan.freeNames s t → plan.eval s = plan.eval t) ∧
    (∀ (e : Expr) (name : String) (v w : Value) (s : Scope),
      (name ∉ e.freeNames → e.eval (.bind name v s) = e.eval s) ∧
      e.eval (.bind name v (.bind name w s)) = e.eval (.bind name v s)) ∧
    (∀ (e : Expr) (s t : Scope), e.WellNamed → e.usesElement = false →
      (∀ name, name ≠ elementName → s.get? name = t.get? name) → e.eval s = e.eval t) ∧
    ∀ (names : List String) (text : String) (e : Expr), Expression.read names text = .ok e →
      e.WellNamed ∧ e.usesElement = false := by
  refine ⟨fun e s t h => Expr.eval_eq_of_freeNames h, fun plan s t h => plan.eval_eq_of_freeNames h,
    fun e name v w s => ⟨fun h => ?_, ?_⟩, fun e s t hNamed hElement h => ?_, ?_⟩
  · exact Expr.eval_eq_of_freeNames (Scope.agree_bind_of_not_mem h v s)
  · exact Expr.eval_eq_of_freeNames (Scope.agree_bind_bind e.freeNames name v w s)
  · refine Expr.eval_eq_of_freeNames fun name hName => h name ?_
    rintro rfl
    exact hNamed.not_mem_freeNames hElement hName
  · intro names text e h
    obtain ⟨items, hBuild⟩ := Expression.read_ok h
    exact ⟨Expression.wellNamed_read h, (Expression.build_ok.mp hBuild).2⟩

/-- The plan of `["foreach", "$x", "$", ".a !filter @.b = $y"]`, which looks up `$x` and `$y`. -/
theorem eval_eq_of_agree_foreach :
    let plan := Plan.foreach (.expr (.var "$x")) "$"
      (.expr (.filter (.field .root (.literal (.string "a")))
        (.equals (.field .element (.literal (.string "b"))) (.var "$y"))))
    let rows := Value.array [.object [("a", .array [.object [("b", .bool true)], .object []])]]
    let s := Scope.bind "$y" (.bool true) (.bind "$x" rows (.root .null))
    let t := Scope.bind "@" rows (.bind "$x" rows (.bind "$y" (.bool true) (.bind "$x" .null s)))
    plan.freeNames = ["$x", "$y"] ∧ Scope.Agree plan.freeNames s t ∧ plan.eval s = plan.eval t := by
  intro plan rows s t
  have hNames : plan.freeNames = ["$x", "$y"] := by decide
  have hAgree : Scope.Agree plan.freeNames s t := by
    simp [hNames, Scope.Agree, s, t, Scope.get?]
  exact ⟨hNames, hAgree, eval_eq_of_agree.2.1 plan s t hAgree⟩

end Reshape
