import Reshape.Template.Compiler

/-!
# What holds of all compiled plans

A computation of the compiler leaves the names in scope as it found them, also when it fails. What
the pieces of a plan hand on to the plan built of them holds of every plan that a template compiles
to.
-/

namespace Reshape.Template.Compiler

variable {names : List String}

theorem run_bind {c : Compiler α} {f : α → Compiler β} (hNames : (c.run.run names).2 = names) :
    (c >>= f).run.run names =
      match (c.run.run names).1 with
      | .ok a => (f a).run.run names
      | .error fault => (.error fault, names) := by
  rw [ExceptT.run_bind, StateT.run_bind]
  rcases hRun : c.run.run names with ⟨result, names'⟩
  rw [hRun] at hNames
  obtain rfl : names' = names := hNames
  cases result <;> rfl

theorem bind_ok {c : Compiler α} {f : α → Compiler β} {b : β}
    (hNames : (c.run.run names).2 = names) : ((c >>= f).run.run names).1 = .ok b ↔
      ∃ a, (c.run.run names).1 = .ok a ∧ ((f a).run.run names).1 = .ok b := by
  rw [run_bind hNames]
  constructor
  · intro h
    split at h
    · rename_i a hOk
      exact ⟨a, hOk, h⟩
    · cases h
  · rintro ⟨a, hOk, h⟩
    rw [hOk]
    exact h

theorem names_bind {c : Compiler α} {f : α → Compiler β} (hNames : (c.run.run names).2 = names)
    (hNext : ∀ a, ((f a).run.run names).2 = names) : ((c >>= f).run.run names).2 = names := by
  rw [run_bind hNames]
  split
  · exact hNext _
  · rfl

theorem names_withName {name : String} {body : Compiler α}
    (hNames : (body.run.run (name :: names)).2 = name :: names) :
    ((withName name body).run.run names).2 = names := by
  change (body.run.run (name :: names)).2.tail = names
  rw [hNames]
  rfl

@[simp]
theorem run_expression (names : List String) (text : String) (path : Path) :
    (expression text path).run.run names =
      ((Expression.read names text).mapError fun fault => ⟨path, .expression fault⟩, names) := by
  have hGet : (get : Compiler (List String)).run.run names = (.ok names, names) := rfl
  rw [expression, run_bind (by rw [hGet]), hGet]
  dsimp only
  cases Expression.read names text <;> rfl

theorem expression_ok {text : String} {path : Path} {e : Expr} :
    ((expression text path).run.run names).1 = .ok e ↔ Expression.read names text = .ok e := by
  rw [run_expression]
  cases Expression.read names text with
  | ok e' => constructor <;> rintro ⟨⟩ <;> rfl
  | error fault => constructor <;> rintro ⟨⟩

/-- With `names` in scope a computation gives only results in `P`, and keeps the names. -/
def Ensures (names : List String) (c : Compiler α) (P : α → Prop) : Prop :=
  (c.run.run names).2 = names ∧ ∀ a, (c.run.run names).1 = .ok a → P a

theorem ensures_pure {P : α → Prop} {a : α} (h : P a) : Ensures names (pure a) P :=
  ⟨rfl, fun _ hResult => by cases hResult; exact h⟩

theorem ensures_fail {P : α → Prop} (path : Path) (fault : Fault) :
    Ensures names (fail path fault) P :=
  ⟨rfl, fun _ hResult => by cases hResult⟩

theorem Ensures.bind {c : Compiler α} {f : α → Compiler β} {P : α → Prop} {Q : β → Prop}
    (h : Ensures names c P) (hNext : ∀ a, P a → Ensures names (f a) Q) :
    Ensures names (c >>= f) Q := by
  obtain ⟨hNames, hResult⟩ := h
  rw [Ensures, run_bind hNames]
  split
  · rename_i a hOk
    exact hNext a (hResult a hOk)
  · exact ⟨rfl, fun _ h => by cases h⟩

theorem Ensures.withName {name : String} {body : Compiler α} {P : α → Prop}
    (h : Ensures (name :: names) body P) : Ensures names (withName name body) P :=
  ⟨names_withName h.1, h.2⟩

theorem ensures_expression (text : String) (path : Path) :
    Ensures names (expression text path) fun e => Expression.read names text = .ok e :=
  ⟨by simp, fun _ hResult => expression_ok.mp hResult⟩

/--
`T` holds of the parts of a template of which it holds, and `K` and `P` hold of the keys and plans
that its parts compile to with some names in scope.
-/
structure Invariant (T : Value → Prop) (K : List String → Key → Prop)
    (P : List String → Plan → Prop) : Prop where
  item : ∀ {items v}, T (.array items) → v ∈ items → T v
  value : ∀ {fields field}, T (.object fields) → field ∈ fields → T field.2
  literal : ∀ {names v}, T v → P names (.literal v)
  expression : ∀ {names text e}, Expression.read names text = .ok e → P names (planOf e)
  name : ∀ {names} k, K names (.literal k)
  computed : ∀ {names text e}, Expression.read names text = .ok e → K names (.computed e)
  object : ∀ {names entries}, (∀ entry ∈ entries, K names entry.1 ∧ P names entry.2) →
    P names (.object entries)
  array : ∀ {names items}, (∀ item ∈ items, P names item) → P names (.array items)
  foreach : ∀ {names source x body}, isVariableName x = true → P names source →
    P (x :: names) body → P names (.foreach source x body)

namespace Invariant

variable {T : Value → Prop} {K : List String → Key → Prop} {P : List String → Plan → Prop}

theorem key (h : Invariant T K P) (text : String) (path : Path) :
    Ensures names (Compiler.key text path) (K names) := by
  have hComputed : Ensures names (do return .computed (← Compiler.expression text path)) (K names) :=
    (ensures_expression text path).bind fun _ hRead => ensures_pure (h.computed hRead)
  unfold Compiler.key
  split
  · exact hComputed
  · exact hComputed
  · exact hComputed
  · exact ensures_pure (h.name _)
  · exact ensures_pure (h.name _)

mutual

theorem template (h : Invariant T K P) (names : List String) (path : Path) (v : Value) (hT : T v) :
    Ensures names (Compiler.template path v) (P names) := by
  cases v with
  | array items => exact h.tagged names path items fun _ hItem => h.item hT hItem
  | object fields =>
    rw [Compiler.template]
    have hFields := h.entries names path fields fun _ hField => h.value hT hField
    exact hFields.bind fun _ hEntries => ensures_pure (h.object hEntries)
  | string text =>
    rw [Compiler.template]
    exact (ensures_expression text path).bind fun _ hRead => ensures_pure (h.expression hRead)
  | _ => exact ensures_pure (h.literal hT)

theorem tagged (h : Invariant T K P) (names : List String) (path : Path) (items : List Value)
    (hT : ∀ v ∈ items, T v) : Ensures names (Compiler.tagged path items) (P names) := by
  match items with
  | [] => exact ensures_fail path _
  | .string tag :: rest =>
    have hRest := (List.forall_mem_cons.mp hT).2
    rw [Compiler.tagged]
    split
    · exact (h.items names path 1 rest hRest).bind fun _ hItems => ensures_pure (h.array hItems)
    · split
      · exact h.foreachItems names path rest hRest
      · exact ensures_fail path _
  | .null :: _ | .bool _ :: _ | .number _ :: _ | .array _ :: _ | .object _ :: _ =>
    exact ensures_fail path _

theorem foreachItems (h : Invariant T K P) (names : List String) (path : Path)
    (items : List Value) (hT : ∀ v ∈ items, T v) :
    Ensures names (Compiler.foreach path items) (P names) := by
  match items with
  | [source, .string name, body] =>
    rw [Compiler.foreach]
    split
    · rename_i hName
      have hSource := h.template names (path ++ [.item 1]) source (hT source (by simp))
      have hBody := h.template (name :: names) (path ++ [.item 3]) body (hT body (by simp))
      -- The source is compiled outside of the binding, the body inside.
      refine hSource.bind fun _ hSource => ?_
      refine hBody.withName.bind fun _ hBody => ?_
      exact ensures_pure (h.foreach hName hSource hBody)
    · exact ensures_fail path _
  | [_, .null, _] | [_, .bool _, _] | [_, .number _, _] | [_, .array _, _] | [_, .object _, _] =>
    exact ensures_fail path _
  | [] | [_] => exact ensures_fail path _
  | [_, v] | _ :: v :: _ :: _ :: _ => cases v <;> exact ensures_fail path _

theorem items (h : Invariant T K P) (names : List String) (path : Path) (index : Nat)
    (items : List Value) (hT : ∀ v ∈ items, T v) :
    Ensures names (Compiler.items path index items) (∀ plan ∈ ·, P names plan) := by
  cases items with
  | nil => exact ensures_pure (by simp)
  | cons v rest =>
    obtain ⟨hItem, hRest⟩ := List.forall_mem_cons.mp hT
    rw [Compiler.items]
    refine (h.template names _ v hItem).bind fun _ hItem => ?_
    refine (h.items names path _ rest hRest).bind fun _ hRest => ?_
    exact ensures_pure (List.forall_mem_cons.mpr ⟨hItem, hRest⟩)

theorem entries (h : Invariant T K P) (names : List String) (path : Path)
    (fields : List (String × Value)) (hT : ∀ field ∈ fields, T field.2) :
    Ensures names (Compiler.entries path fields)
      (∀ entry ∈ ·, K names entry.1 ∧ P names entry.2) := by
  match fields with
  | [] => exact ensures_pure (by simp)
  | (k, v) :: rest =>
    obtain ⟨hValue, hRest⟩ := List.forall_mem_cons.mp hT
    rw [Compiler.entries]
    refine (h.key k _).bind fun _ hKey => ?_
    refine (h.template names _ v hValue).bind fun _ hPlan => ?_
    refine (h.entries names path rest hRest).bind fun _ hRest => ?_
    exact ensures_pure (List.forall_mem_cons.mpr ⟨⟨hKey, hPlan⟩, hRest⟩)

end

theorem compile (h : Invariant T K P) {v : Value} {plan : Plan} (hT : T v)
    (hCompile : Template.compile v = .ok plan) : P [] plan :=
  (h.template [] [] v hT).2 plan hCompile

end Invariant

end Reshape.Template.Compiler
