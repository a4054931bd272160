import Mathlib.Data.List.Forall2
import Reshape.Proofs.Evaluation.Object
import Reshape.Proofs.Expression.Shape
import Reshape.Proofs.Template.Invariant
import Reshape.Proofs.Template.Walk

/-!
# Templates in other places

The place of a template is only seen in faults, and a name that is in scope only lets an expression
be read. So a template that compiles does so everywhere else where no name is missing, and to the
same plan; the fields of an object are what their templates give on their own.
-/

namespace Reshape

section Forall₂

variable {α β : Type} {R : α → β → Prop}

theorem exists_split_of_forall₂ {before after : List α} {x : α} {ys : List β}
    (h : List.Forall₂ R (before ++ x :: after) ys) :
    ∃ first y last, ys = first ++ y :: last ∧ R x y ∧ List.Forall₂ R after last := by
  induction before generalizing ys with
  | nil =>
    obtain ⟨y, last, hHead, hTail, rfl⟩ := List.forall₂_cons_left_iff.mp h
    exact ⟨[], y, last, rfl, hHead, hTail⟩
  | cons x' before ih =>
    obtain ⟨y', ys, _, hTail, rfl⟩ := List.forall₂_cons_left_iff.mp h
    obtain ⟨first, y, last, rfl, hHead, hTail⟩ := ih hTail
    exact ⟨y' :: first, y, last, rfl, hHead, hTail⟩

theorem exists_mem_of_forall₂ {xs : List α} {ys : List β} (h : List.Forall₂ R xs ys) {y : β}
    (hy : y ∈ ys) : ∃ x ∈ xs, R x y := by
  obtain ⟨first, last, rfl⟩ := List.append_of_mem hy
  have hFlip : List.Forall₂ (flip R) (first ++ y :: last) xs := h.flip
  obtain ⟨before, x, after, rfl, hHead, _⟩ := exists_split_of_forall₂ hFlip
  exact ⟨x, List.mem_append_right _ List.mem_cons_self, hHead⟩

end Forall₂

namespace Expression

variable {scope scope' : List String}

theorem operand_mono (h : scope ⊆ scope') {word : String} {e : Expr}
    (hOperand : operand scope word = .ok e) : operand scope' word = .ok e := by
  rw [operand_ok] at hOperand ⊢
  rcases hOperand with hRoot | ⟨hWord, hDollar, hMember, hVariable⟩ | hLiteral
  · exact .inl hRoot
  · exact .inr (.inl ⟨hWord, hDollar, h hMember, hVariable⟩)
  · exact .inr (.inr hLiteral)

theorem push_mono (h : scope ⊆ scope') {index : Nat} {stack stack' : List Expr} {item : Item}
    (hPush : push scope index stack item = .ok stack') :
    push scope' index stack item = .ok stack' := by
  cases item with
  | word text =>
    obtain ⟨e, hOperand, hResult⟩ := bind_eq_ok.mp hPush
    exact bind_eq_ok.mpr ⟨e, operand_mono h hOperand, hResult⟩
  | _ => exact hPush

theorem pushAll_mono (h : scope ⊆ scope') {index : Nat} {stack stack' : List Expr}
    {items : List Item} (hPush : pushAll scope index stack items = .ok stack') :
    pushAll scope' index stack items = .ok stack' := by
  induction items generalizing index stack with
  | nil => exact hPush
  | cons item items ih =>
    obtain ⟨middle, hItem, hItems⟩ := pushAll_cons_ok.mp hPush
    exact pushAll_cons_ok.mpr ⟨middle, push_mono h hItem, ih hItems⟩

theorem build_mono (h : scope ⊆ scope') {items : List Item} {e : Expr}
    (hBuild : build scope items = .ok e) : build scope' items = .ok e := by
  obtain ⟨hStack, hElement⟩ := build_ok.mp hBuild
  exact build_ok.mpr ⟨pushAll_mono h hStack, hElement⟩

theorem read_mono (h : scope ⊆ scope') {text : String} {e : Expr}
    (hRead : read scope text = .ok e) : read scope' text = .ok e := by
  obtain ⟨tokens, hTokens, hRest⟩ := bind_eq_ok.mp hRead
  obtain ⟨items, hItems, hBuild⟩ := bind_eq_ok.mp hRest
  exact bind_eq_ok.mpr ⟨tokens, hTokens, bind_eq_ok.mpr ⟨items, hItems, build_mono h hBuild⟩⟩

end Expression

namespace Template

namespace Compiler

variable {names names' : List String}

/-- Both computations keep the names, and what the first one gives the second one gives as well. -/
structure Carries (names names' : List String) (c c' : Compiler α) : Prop where
  keeps : (c.run.run names).2 = names
  keeps' : (c'.run.run names').2 = names'
  result : ∀ a, (c.run.run names).1 = .ok a → (c'.run.run names').1 = .ok a

theorem carries_pure (a : α) : Carries names names' (pure a) (pure a) :=
  ⟨rfl, rfl, fun _ hResult => hResult⟩

theorem carries_fail (path path' : Path) (fault fault' : Fault) :
    Carries names names' (fail path fault : Compiler α) (fail path' fault') :=
  ⟨rfl, rfl, fun _ hResult => by cases hResult⟩

theorem Carries.bind {c c' : Compiler α} {f f' : α → Compiler β} (h : Carries names names' c c')
    (hNext : ∀ a, Carries names names' (f a) (f' a)) :
    Carries names names' (c >>= f) (c' >>= f') where
  keeps := names_bind h.keeps fun a => (hNext a).keeps
  keeps' := names_bind h.keeps' fun a => (hNext a).keeps'
  result b hResult := by
    obtain ⟨a, hFirst, hSecond⟩ := (bind_ok h.keeps).mp hResult
    exact (bind_ok h.keeps').mpr ⟨a, h.result a hFirst, (hNext a).result b hSecond⟩

theorem Carries.map {c c' : Compiler α} (h : Carries names names' c c') (g : α → β) :
    Carries names names' (do return g (← c)) (do return g (← c')) :=
  h.bind fun a => carries_pure (g a)

theorem Carries.withName {name : String} {body body' : Compiler α}
    (h : Carries (name :: names) (name :: names') body body') :
    Carries names names' (withName name body) (withName name body') :=
  ⟨names_withName h.keeps, names_withName h.keeps', h.result⟩

section Places

variable (h : names ⊆ names')

include h

theorem carries_expression (text : String) (path path' : Path) :
    Carries names names' (expression text path) (expression text path') where
  keeps := by simp
  keeps' := by simp
  result e hResult := expression_ok.mpr (Expression.read_mono h (expression_ok.mp hResult))

theorem carries_key (text : String) (path path' : Path) :
    Carries names names' (key text path) (key text path') := by
  have hComputed := (carries_expression h text path path').map Key.computed
  unfold key
  split
  · exact hComputed
  · exact hComputed
  · exact hComputed
  · exact carries_pure _
  · exact carries_pure _

end Places

mutual

theorem carries_template {names names' : List String} (h : names ⊆ names') (path path' : Path)
    (v : Value) : Carries names names' (template path v) (template path' v) := by
  cases v with
  | array items =>
    rw [template, template]
    exact carries_tagged h path path' items
  | object fields =>
    rw [template, template]
    exact (carries_entries h path path' fields).map Plan.object
  | string text =>
    rw [template, template]
    exact (carries_expression h text path path').map planOf
  | _ => exact carries_pure _

theorem carries_tagged {names names' : List String} (h : names ⊆ names') (path path' : Path)
    (items : List Value) : Carries names names' (tagged path items) (tagged path' items) := by
  match items with
  | [] => exact carries_fail path path' _ _
  | .string tag :: rest =>
    rw [tagged, tagged]
    split
    · exact (carries_items h path path' 1 1 rest).map Plan.array
    · split
      · exact carries_foreach h path path' rest
      · exact carries_fail path path' _ _
  | .null :: _ | .bool _ :: _ | .number _ :: _ | .array _ :: _ | .object _ :: _ =>
    exact carries_fail path path' _ _

theorem carries_foreach {names names' : List String} (h : names ⊆ names') (path path' : Path)
    (items : List Value) : Carries names names' (foreach path items) (foreach path' items) := by
  match items with
  | [source, .string name, body] =>
    rw [foreach, foreach]
    split
    · have hSource := carries_template h (path ++ [.item 1]) (path' ++ [.item 1]) source
      -- A name that is bound again stands in front in both places, so nothing is asked of it.
      have hNames : name :: names ⊆ name :: names' := List.cons_subset_cons name h
      have hBody := carries_template hNames (path ++ [.item 3]) (path' ++ [.item 3]) body
      exact hSource.bind fun source => hBody.withName.map (Plan.foreach source name)
    · exact carries_fail path path' _ _
  | [_, .null, _] | [_, .bool _, _] | [_, .number _, _] | [_, .array _, _] | [_, .object _, _] =>
    exact carries_fail path path' _ _
  | [] | [_] => exact carries_fail path path' _ _
  | [_, v] | _ :: v :: _ :: _ :: _ => cases v <;> exact carries_fail path path' _ _

theorem carries_items {names names' : List String} (h : names ⊆ names') (path path' : Path)
    (index index' : Nat) (items : List Value) :
    Carries names names' (Compiler.items path index items) (Compiler.items path' index' items) := by
  cases items with
  | nil => exact carries_pure _
  | cons v rest =>
    rw [Compiler.items, Compiler.items]
    refine (carries_template h _ _ v).bind fun plan => ?_
    exact (carries_items h path path' (index + 1) (index' + 1) rest).map (plan :: ·)

theorem carries_entries {names names' : List String} (h : names ⊆ names') (path path' : Path)
    (fields : List (String × Value)) :
    Carries names names' (entries path fields) (entries path' fields) := by
  match fields with
  | [] => exact carries_pure _
  | (k, v) :: rest =>
    rw [entries, entries]
    refine (carries_key h k _ _).bind fun key => ?_
    refine (carries_template h _ _ v).bind fun plan => ?_
    exact (carries_entries h path path' rest).map ((key, plan) :: ·)

end

end Compiler

/-- What a template gives at a place where `names` are in scope. -/
def compileAt (names : List String) (path : Path) (v : Value) : Except LocatedFault Plan :=
  ((Compiler.template path v).run.run names).1

theorem compileAt_mono {names names' : List String} (h : names ⊆ names') {path : Path} {v : Value}
    {plan : Plan} (hPlan : compileAt names path v = .ok plan) (path' : Path) :
    compileAt names' path' v = .ok plan :=
  (Compiler.carries_template h path path' v).result plan hPlan

/-! ## The fields of an object -/

/-- A key that is not computed, without the backslash that keeps it from being so. -/
def literalName (key : String) : String :=
  match key.toList with
  | '\\' :: rest => String.ofList rest
  | _ => key

/-- What a key of an object template is in the output, if it can be read. -/
def keyText? (input : Value) (key : String) : Option String :=
  if isComputed key then
    (Expression.read [] key).toOption.map fun e => (e.eval (.root input)).text
  else some (literalName key)

@[simp]
theorem keyText?_of_literal (input : Value) {key : String} (h : isComputed key = false) :
    keyText? input key = some (literalName key) :=
  if_neg (by simp [h])

theorem keyText?_of_key (input : Value) {text : String} {path : Path} {key : Key}
    (h : ((Compiler.key text path).run.run []).1 = .ok key) :
    keyText? input text = some (key.eval (.root input)) := by
  have hComputed (hKey : ((do return .computed (← Compiler.expression text path) :
      Compiler Key).run.run []).1 = .ok key) :
      (Expression.read [] text).toOption.map (fun e => (e.eval (.root input)).text) =
        some (key.eval (.root input)) := by
    have hNames : ((Compiler.expression text path).run.run []).2 = [] := by
      rw [Compiler.run_expression]
    obtain ⟨e, hRead, hResult⟩ := (Compiler.bind_ok hNames).mp hKey
    cases hResult
    rw [Compiler.expression_ok.mp hRead]
    rfl
  unfold Compiler.key at h
  unfold keyText? isComputed literalName
  generalize text.toList = letters at h ⊢
  split at h
  · exact hComputed h
  · exact hComputed h
  · exact hComputed h
  · cases h
    rfl
  · cases h
    rw [if_neg (by split <;> simp_all)]
    split
    · simp_all
    · rfl

/-- A field of the output has the text of a key and what the template under it gives by itself. -/
def Gives (input : Value) (field output : String × Value) : Prop :=
  keyText? input field.1 = some output.1 ∧
    ∃ alone, compile field.2 = .ok alone ∧ output.2 = alone.apply input

theorem gives_entries (input : Value) {path : Path} {fields : List (String × Value)}
    {compiled : List (Key × Plan)}
    (h : ((Compiler.entries path fields).run.run []).1 = .ok compiled) :
    List.Forall₂ (Gives input) fields (Plan.evalEntries (.root input) compiled) := by
  match fields with
  | [] =>
    cases h
    exact .nil
  | (k, v) :: rest =>
    -- Each of the three computations carries to itself, so it keeps the names for the next one.
    have hSelf := List.Subset.refl ([] : List String)
    have hKeepsKey := (Compiler.carries_key hSelf k (path ++ [.field k]) []).keeps
    have hKeepsPlan := (Compiler.carries_template hSelf (path ++ [.field k]) [] v).keeps
    have hKeepsRest := (Compiler.carries_entries hSelf path [] rest).keeps
    rw [Compiler.entries] at h
    obtain ⟨key, hKey, h⟩ := (Compiler.bind_ok hKeepsKey).mp h
    obtain ⟨plan, hPlan, h⟩ := (Compiler.bind_ok hKeepsPlan).mp h
    obtain ⟨others, hOthers, h⟩ := (Compiler.bind_ok hKeepsRest).mp h
    cases h
    refine .cons ⟨keyText?_of_key input hKey, plan, ?_, rfl⟩ (gives_entries input hOthers)
    exact compileAt_mono hSelf hPlan []

theorem exists_outputs_of_compile {fields : List (String × Value)} {plan : Plan} (input : Value)
    (h : compile (.object fields) = .ok plan) :
    ∃ outputs, plan.apply input = .object (Value.fieldsOf outputs) ∧
      List.Forall₂ (Gives input) fields outputs := by
  have hKeeps := (Compiler.carries_entries (List.Subset.refl []) [] [] fields).keeps
  rw [compile, Compiler.template] at h
  obtain ⟨compiled, hEntries, hResult⟩ := (Compiler.bind_ok hKeeps).mp h
  cases hResult
  exact ⟨_, rfl, gives_entries input hEntries⟩

section Outputs

variable {input : Value} {fields outputs : List (String × Value)}

theorem exists_lookup_of_gives {before after : List (String × Value)} {k : String} {v : Value}
    (h : List.Forall₂ (Gives input) (before ++ (k, v) :: after) outputs) :
    ∃ name alone, keyText? input k = some name ∧ compile v = .ok alone ∧
      ((∀ field ∈ after, keyText? input field.1 ≠ some name) →
        (Value.fieldsOf outputs).lookup name = some (alone.apply input)) := by
  obtain ⟨first, ⟨name, w⟩, last, rfl, ⟨hName, alone, hAlone, rfl⟩, hAfter⟩ :=
    exists_split_of_forall₂ h
  refine ⟨name, alone, hName, hAlone, ?_⟩
  intro hLast
  apply Value.lookup_fieldsOf_of_last
  intro later hLater hSame
  obtain ⟨field, hField, hKey, _⟩ := exists_mem_of_forall₂ hAfter hLater
  rw [hSame] at hKey
  exact hLast field hField hKey

theorem keys_of_gives (h : List.Forall₂ (Gives input) fields outputs)
    (hLiteral : ∀ field ∈ fields, isComputed field.1 = false) :
    outputs.map (·.1) = fields.map fun field => literalName field.1 := by
  induction h with
  | nil => rfl
  | cons hHead _ ih =>
    obtain ⟨hFirst, hRest⟩ := List.forall_mem_cons.mp hLiteral
    rw [List.map_cons, List.map_cons, ih hRest]
    rw [Gives, keyText?_of_literal input hFirst] at hHead
    rw [Option.some.inj hHead.1]

/-- Where keys are literal and distinct, each field of the output is that of its template alone. -/
theorem lookup_of_gives (h : List.Forall₂ (Gives input) fields outputs)
    (hLiteral : ∀ field ∈ fields, isComputed field.1 = false)
    (hDistinct : (fields.map fun field => literalName field.1).Nodup) :
    (Value.fieldsOf outputs).map (·.1) = fields.map (fun field => literalName field.1) ∧
      ∀ k v, (k, v) ∈ fields → ∃ alone, compile v = .ok alone ∧
        (Value.fieldsOf outputs).lookup (literalName k) = some (alone.apply input) := by
  have hKeys := keys_of_gives h hLiteral
  constructor
  · rw [Value.fieldsOf_of_nodup (hKeys ▸ hDistinct), hKeys]
  · intro k v hField
    obtain ⟨before, after, rfl⟩ := List.append_of_mem hField
    obtain ⟨name, alone, hName, hAlone, hLookup⟩ := exists_lookup_of_gives h
    obtain ⟨_, hAfter⟩ := List.forall_mem_append.mp hLiteral
    obtain ⟨hHere, hAfter⟩ := List.forall_mem_cons.mp hAfter
    rw [keyText?_of_literal input hHere] at hName
    obtain rfl := Option.some.inj hName
    refine ⟨alone, hAlone, hLookup ?_⟩
    intro field hLater
    rw [keyText?_of_literal input (hAfter field hLater)]
    intro hSame
    rw [List.map_append, List.map_cons, List.nodup_append, List.nodup_cons] at hDistinct
    apply hDistinct.2.1.1
    rw [← Option.some.inj hSame]
    exact List.mem_map_of_mem hLater

end Outputs

/--
A template that compiles gives the same plan at every other path and with more names in scope. So
in the output of an object template each field has the name of some key, and under that is what the
template of the last such key gives by itself. If all keys are literal and distinct, they are the
keys of the output, and what is under one is what its template gives by itself.
-/
theorem compile_placed_alike :
    (∀ (names names' : List String) (path path' : Path) (v : Value) (plan : Plan),
      names ⊆ names' → compileAt names path v = .ok plan → compileAt names' path' v = .ok plan) ∧
    ∀ (fields : List (String × Value)) (plan : Plan) (input : Value),
      compile (.object fields) = .ok plan →
      ∃ outputs, plan.apply input = .object outputs ∧
        (∀ name ∈ outputs.map (·.1), ∃ field ∈ fields, keyText? input field.1 = some name) ∧
        (∀ before k v after, fields = before ++ (k, v) :: after →
          ∃ name alone, keyText? input k = some name ∧ compile v = .ok alone ∧
            ((∀ field ∈ after, keyText? input field.1 ≠ some name) →
              outputs.lookup name = some (alone.apply input))) ∧
        ((∀ field ∈ fields, isComputed field.1 = false) →
          (fields.map fun field => literalName field.1).Nodup →
          outputs.map (·.1) = fields.map (fun field => literalName field.1) ∧
            ∀ k v, (k, v) ∈ fields → ∃ alone, compile v = .ok alone ∧
              outputs.lookup (literalName k) = some (alone.apply input)) := by
  constructor
  · intro names names' path path' v plan hNames hPlan
    exact compileAt_mono hNames hPlan path'
  · intro fields plan input hPlan
    obtain ⟨outputs, hApply, hOutputs⟩ := exists_outputs_of_compile input hPlan
    refine ⟨_, hApply, ?_, ?_, lookup_of_gives hOutputs⟩
    · intro name hName
      rw [Value.keys_fieldsOf, List.mem_eraseDups] at hName
      obtain ⟨output, hOutput, rfl⟩ := List.mem_map.mp hName
      obtain ⟨field, hField, hKey, _⟩ := exists_mem_of_forall₂ hOutputs hOutput
      exact ⟨field, hField, hKey⟩
    · rintro before k v after rfl
      exact exists_lookup_of_gives hOutputs

/-- A loop in a loop over the same name is what it is alone, also under a key that comes twice. -/
theorem compile_placed_alike_loop :
    let loop : Value := .array [.string "foreach", .string ".rows", .string "$x", .string "$x.a"]
    let body : Expr := .field (.var "$x") (.literal (.string "a"))
    let plan : Plan := .foreach (.expr (.field .root (.literal (.string "rows")))) "$x" (.expr body)
    let fields : List (String × Value) := [("\\.raw", loop),
      ("twice", .array [.string "foreach", .string ".rows", .string "$x", loop])]
    let input : Value := .object [("rows", .array [.object [("a", .bool true)]]),
      ("key", .string "a")]
    compileAt ["$x"] [.field "twice", .item 3] loop = .ok plan ∧
      compileAt ["$y", "$x"] [] loop = .ok plan ∧ compile loop = .ok plan ∧
      (∃ whole outputs, compile (.object fields) = .ok whole ∧
        whole.apply input = .object outputs ∧ outputs.map (·.1) = [".raw", "twice"] ∧
        outputs.lookup ".raw" = some (plan.apply input)) ∧
      ∃ whole outputs, compile (.object [("a", .null), (".key", loop)]) = .ok whole ∧
        whole.apply input = .object outputs ∧ outputs.lookup "a" = some (plan.apply input) := by
  intro loop body plan fields input
  obtain ⟨hPlaced, hFields⟩ := compile_placed_alike
  have hInside : compileAt ["$x"] [.field "twice", .item 3] loop = .ok plan := by
    with_unfolding_all rfl
  have hAlone : compile loop = .ok plan := by
    with_unfolding_all rfl
  refine ⟨hInside, hPlaced _ _ _ _ _ _ (by simp) hInside, hAlone, ?_, ?_⟩
  · obtain ⟨whole, hWhole⟩ : ∃ whole, compile (.object fields) = .ok whole :=
      ⟨_, by with_unfolding_all rfl⟩
    obtain ⟨outputs, hApply, _, _, hLiteral⟩ := hFields fields whole input hWhole
    obtain ⟨hKeys, hLookup⟩ := hLiteral (by decide) (by decide)
    obtain ⟨alone, hLoop, hRaw⟩ := hLookup "\\.raw" loop (by simp [fields])
    obtain rfl := Except.ok.inj (hAlone.symm.trans hLoop)
    exact ⟨whole, outputs, hWhole, hApply, hKeys.trans (by decide), hRaw⟩
  · obtain ⟨whole, hWhole⟩ :
        ∃ whole, compile (.object [("a", .null), (".key", loop)]) = .ok whole :=
      ⟨_, by with_unfolding_all rfl⟩
    obtain ⟨outputs, hApply, _, hLast, _⟩ := hFields _ whole input hWhole
    obtain ⟨name, alone, hName, hLoop, hLookup⟩ := hLast [("a", .null)] ".key" loop [] rfl
    obtain rfl := Except.ok.inj (hAlone.symm.trans hLoop)
    have hText : keyText? input ".key" = some "a" := by
      with_unfolding_all rfl
    obtain rfl := Option.some.inj (hName.symm.trans hText)
    exact ⟨whole, outputs, hWhole, hApply, hLookup (by simp)⟩

end Template

end Reshape
