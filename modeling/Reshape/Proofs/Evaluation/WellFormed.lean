import Reshape.Evaluation.Plan
import Reshape.Proofs.Expression.Shape
import Reshape.Proofs.Json.Checked
import Reshape.Proofs.Json.WellFormed
import Reshape.Proofs.Template.Invariant

/-!
# Outputs are well formed

A plan whose literals are well formed gives a well-formed output for every well-formed input, and
the literals of a compiled plan are those of its template.
-/

namespace Reshape

namespace Expr

/-- Every literal is well formed. -/
def WellFormed : Expr → Prop
  | literal v => v.WellFormed
  | root => True
  | var _ => True
  | element => True
  | spread a => a.WellFormed
  | not a => a.WellFormed
  | toBool a => a.WellFormed
  | sort base => base.WellFormed
  | dedup base => base.WellFormed
  | reparse base => base.WellFormed
  | field a b => a.WellFormed ∧ b.WellFormed
  | search a b => a.WellFormed ∧ b.WellFormed
  | or a b => a.WellFormed ∧ b.WellFormed
  | and a b => a.WellFormed ∧ b.WellFormed
  | equals a b => a.WellFormed ∧ b.WellFormed
  | add a b => a.WellFormed ∧ b.WellFormed
  | sortBy base key => base.WellFormed ∧ key.WellFormed
  | filter base test => base.WellFormed ∧ test.WellFormed
  | map base body => base.WellFormed ∧ body.WellFormed

end Expr

namespace Expression

theorem wellFormed_operand {names : List String} {word : String} {e : Expr}
    (h : operand names word = .ok e) : e.WellFormed := by
  obtain ⟨_, rfl⟩ | ⟨_, _, _, rfl⟩ | ⟨_, rfl⟩ := operand_ok.mp h <;> trivial

theorem hereditary_wellFormed (names : List String) : Hereditary names Expr.WellFormed where
  operand _ _ h := wellFormed_operand h
  element := trivial
  root := trivial
  binary o _ _ _ h ha hb := by cases o <;> cases h <;> exact ⟨ha, hb⟩
  unary o _ _ h ha := by
    cases o <;> cases h
    case rootField => exact ⟨trivial, ha⟩
    all_goals exact ha

theorem wellFormed_read {names : List String} {text : String} {e : Expr}
    (h : read names text = .ok e) : e.WellFormed := by
  obtain ⟨items, hBuild⟩ := read_ok h
  exact (hereditary_wellFormed names).build hBuild

end Expression

namespace Scope

def WellFormed (scope : Scope) : Prop := ∀ name, (scope.get name).WellFormed

theorem wellFormed_root {input : Value} (h : input.WellFormed) : (root input).WellFormed := by
  intro name
  unfold get get?
  split
  · exact h
  · trivial

theorem WellFormed.bind {scope : Scope} (h : scope.WellFormed) (name : String) {v : Value}
    (hValue : v.WellFormed) : (Scope.bind name v scope).WellFormed := by
  intro other
  unfold get get?
  split
  · exact hValue
  · exact h other

end Scope

namespace Expr

theorem wellFormed_onArray {f : List Value → Value} {v : Value} (h : v.WellFormed)
    (hf : ∀ items : List Value, (∀ item ∈ items, item.WellFormed) → (f items).WellFormed) :
    (onArray f v).WellFormed := by
  cases v with
  | array items => exact hf items (Value.wellFormed_array.mp h)
  | _ => trivial

theorem wellFormed_onArray_of_subset {f : List Value → List Value} {v : Value} (h : v.WellFormed)
    (hf : ∀ items, f items ⊆ items) : (onArray (fun items => .array (f items)) v).WellFormed := by
  refine wellFormed_onArray h fun items hItems => ?_
  simpa using fun v hv => hItems v (hf items hv)

theorem wellFormed_onArray_map {f : Value → Value} {v : Value} (h : v.WellFormed)
    (hf : ∀ item : Value, item.WellFormed → (f item).WellFormed) :
    (onArray (fun items => .array (items.map f)) v).WellFormed := by
  refine wellFormed_onArray h fun items hItems => ?_
  simpa using fun v hv => hf v (hItems v hv)

theorem wellFormed_eval {e : Expr} {scope : Scope} (h : e.WellFormed)
    (hScope : scope.WellFormed) : (e.eval scope).WellFormed := by
  induction e generalizing scope with
  | root => exact hScope rootName
  | var name => exact hScope name
  | element => exact hScope elementName
  | literal v => exact h
  | field a b iha _ =>
    have ha := iha h.1 hScope
    rw [eval]
    split
    · exact Value.wellFormed_getSpread ha _
    · exact Value.wellFormed_get ha _
  | spread a ih => exact ih h hScope
  | search a b iha _ =>
    exact Value.wellFormed_array.mpr fun _ => Value.wellFormed_of_search _ (iha h.1 hScope)
  | or a b iha ihb =>
    rw [eval]
    split
    · exact iha h.1 hScope
    · exact ihb h.2 hScope
  | and a b iha ihb =>
    rw [eval]
    split
    · exact ihb h.2 hScope
    · exact iha h.1 hScope
  | equals a b | not a | toBool a => trivial
  | add a b => exact Value.wellFormed_add _ _
  | dedup a ih =>
    exact wellFormed_onArray_of_subset (ih h hScope) fun items =>
      (Value.dedupAfter_sublist [] items).subset
  | sort a ih =>
    exact wellFormed_onArray_of_subset (ih h hScope) fun items => (stableSort_perm _ items).subset
  | sortBy base key ih _ =>
    exact wellFormed_onArray_of_subset (ih h.1 hScope) fun _ _ => Value.mem_of_sortByKeys
  | filter base test ih _ =>
    exact wellFormed_onArray_of_subset (ih h.1 hScope) fun _ => List.filter_sublist.subset
  | map base body ihBase ihBody =>
    exact wellFormed_onArray_map (ihBase h.1 hScope) fun _ hItem =>
      ihBody h.2 (hScope.bind elementName hItem)
  | reparse a ih => exact Value.wellFormed_reparse (ih h hScope)

end Expr

namespace Plan

mutual

/-- Every literal is well formed; those of a computed key are only read as text. -/
def WellFormed : Plan → Prop
  | literal v => v.WellFormed
  | expr e => e.WellFormed
  | object entries => EntriesWellFormed entries
  | array items => ItemsWellFormed items
  | foreach source _ body => source.WellFormed ∧ body.WellFormed

def ItemsWellFormed : List Plan → Prop
  | [] => True
  | item :: rest => item.WellFormed ∧ ItemsWellFormed rest

def EntriesWellFormed : List (Key × Plan) → Prop
  | [] => True
  | (_, plan) :: rest => plan.WellFormed ∧ EntriesWellFormed rest

end

@[simp]
theorem itemsWellFormed_iff {items : List Plan} :
    ItemsWellFormed items ↔ ∀ item ∈ items, item.WellFormed := by
  induction items with
  | nil => simp [ItemsWellFormed]
  | cons item rest ih => simp [ItemsWellFormed, ih]

@[simp]
theorem entriesWellFormed_iff {entries : List (Key × Plan)} :
    EntriesWellFormed entries ↔ ∀ entry ∈ entries, entry.2.WellFormed := by
  induction entries with
  | nil => simp [EntriesWellFormed]
  | cons entry rest ih => rw [EntriesWellFormed, ih, List.forall_mem_cons]

mutual

theorem wellFormed_eval {scope : Scope} (plan : Plan) (h : plan.WellFormed)
    (hScope : scope.WellFormed) : (plan.eval scope).WellFormed := by
  cases plan with
  | literal v => exact h
  | expr e => exact Expr.wellFormed_eval h hScope
  | object entries => exact Value.wellFormed_fieldsOf (wellFormed_evalEntries entries h hScope)
  | array items => exact Value.wellFormed_array.mpr (wellFormed_evalItems items h hScope)
  | foreach source name body =>
    have hSource := wellFormed_eval source h.1 hScope
    exact Expr.wellFormed_onArray_map hSource fun _ hItem =>
      wellFormed_eval body h.2 (hScope.bind name hItem)

theorem wellFormed_evalItems {scope : Scope} (items : List Plan) (h : ItemsWellFormed items)
    (hScope : scope.WellFormed) : ∀ v ∈ evalItems scope items, v.WellFormed := by
  cases items with
  | nil => simp [evalItems]
  | cons item rest =>
    exact List.forall_mem_cons.mpr
      ⟨wellFormed_eval item h.1 hScope, wellFormed_evalItems rest h.2 hScope⟩

theorem wellFormed_evalEntries {scope : Scope} (entries : List (Key × Plan))
    (h : EntriesWellFormed entries) (hScope : scope.WellFormed) :
    ∀ field ∈ evalEntries scope entries, field.2.WellFormed := by
  match entries with
  | [] => simp [evalEntries]
  | (key, plan) :: rest =>
    exact List.forall_mem_cons.mpr
      ⟨wellFormed_eval plan h.1 hScope, wellFormed_evalEntries rest h.2 hScope⟩

end

end Plan

namespace Template

theorem Compiler.wellFormed_planOf {e : Expr} (h : e.WellFormed) : (planOf e).WellFormed := by
  cases e <;> exact h

theorem Compiler.invariant_wellFormed :
    Invariant Value.WellFormed (fun _ _ => True) (fun _ plan => plan.WellFormed) where
  item h hItem := Value.wellFormed_array.mp h _ hItem
  value h hField := (Value.wellFormed_object.mp h).2 _ hField
  literal h := h
  expression hRead := wellFormed_planOf (Expression.wellFormed_read hRead)
  name _ := trivial
  computed _ := trivial
  object hEntries := Plan.entriesWellFormed_iff.mpr fun entry hEntry => (hEntries entry hEntry).2
  array hItems := Plan.itemsWellFormed_iff.mpr hItems
  foreach _ hSource hBody := ⟨hSource, hBody⟩

/--
The template and the input are values of documents: their numbers are well formed and their objects
repeat no key. Then so is every output, and it can be written. An addition of values without text
gives null exactly when it overflows.
-/
theorem wellFormed_apply_of_compile {template input : Value} {plan : Plan}
    (hTemplate : template.WellFormed) (hCompile : compile template = .ok plan)
    (hInput : input.WellFormed) :
    (plan.apply input).WellFormed ∧
    (∀ width, Json.write? width (plan.apply input) = some (Json.write width (plan.apply input))) ∧
    ∀ a b : Value, a.isTextual = false → b.isTextual = false →
      (a.add b = .null ↔ Value.integerSum? a b = none ∧
        (a.toBinary64.add b.toBinary64).isFinite = false) := by
  have hPlan := Compiler.invariant_wellFormed.compile hTemplate hCompile
  have hOutput := Plan.wellFormed_eval plan hPlan (Scope.wellFormed_root hInput)
  refine ⟨hOutput, fun width => Json.write?_of_wellFormed width hOutput, ?_⟩
  intro a b ha hb
  exact Value.add_eq_null_iff ha hb

/-- Both keys are computed and may collide, the sum may overflow, and the string may repeat keys. -/
theorem wellFormed_apply_of_compile_keys :
    let template := Value.object
      [(".key", .string ".x + .x"), ("$.name", .string ".text !json"), ("n", .number (.integer 3))]
    let fieldOf (name : String) := Expr.field .root (.literal (.string name))
    let plan := Plan.object
      [(.computed (fieldOf "key"), .expr (.add (fieldOf "x") (fieldOf "x"))),
        (.computed (fieldOf "name"), .expr (.reparse (fieldOf "text"))),
        (.literal "n", .literal (.number (.integer 3)))]
    let largest := Value.number (.double ⟨false, Binary64.infinityMagnitude - 1⟩)
    let input := Value.object [("key", .string "n"), ("name", .string "n"), ("x", largest),
      ("text", .string "\x7b\"a\":1,\"a\":2\x7d")]
    template.WellFormed ∧ compile template = .ok plan ∧ input.WellFormed ∧
      (plan.apply input).WellFormed ∧ largest.add largest = .null := by
  intro template fieldOf plan largest input
  have hTemplate : template.WellFormed := by
    simp [template]
  have hCompile : compile template = .ok plan := by with_unfolding_all rfl
  have hInput : input.WellFormed := by
    simp [input, largest, Binary64.isFinite, Binary64.infinityMagnitude]
  obtain ⟨hOutput, _, hNull⟩ := wellFormed_apply_of_compile hTemplate hCompile hInput
  refine ⟨hTemplate, hCompile, hInput, hOutput, ?_⟩
  exact (hNull largest largest rfl rfl).mpr ⟨rfl, by decide +kernel⟩

end Template

end Reshape
