import Mathlib.Data.List.Nodup
import Reshape.Path
import Reshape.Proofs.Value.Contents
import Reshape.Proofs.Value.WellFormed

/-!
# Parts of a value

A path leads to a part of a value, over an item or a field at each step. All parts are listed depth
first, a container in front of what it holds. Every path that leads somewhere is in that list just
once, since the steps out of a container are distinct.
-/

namespace Reshape.Value

/-- What a container holds, each with the step that leads there. -/
def children : Value → List (Step × Value)
  | array items => items.zipIdx.map fun item => (.item item.2, item.1)
  | object fields => fields.map fun field => (.field field.1, field.2)
  | _ => []

def part? (v : Value) : Path → Option Value
  | [] => some v
  | step :: path => (v.children.lookup step).bind fun w => w.part? path

def within (step : Step) (parts : List (Path × Value)) : List (Path × Value) :=
  parts.map fun part => (step :: part.1, part.2)

mutual

/-- All parts of a value and the paths to them, depth first. -/
def parts : Value → List (Path × Value)
  | array items => ([], array items) :: itemParts 0 items
  | object fields => ([], object fields) :: fieldParts fields
  | v => [([], v)]

def itemParts (index : Nat) : List Value → List (Path × Value)
  | [] => []
  | v :: rest => within (.item index) v.parts ++ itemParts (index + 1) rest

def fieldParts : List (String × Value) → List (Path × Value)
  | [] => []
  | (k, v) :: rest => within (.field k) v.parts ++ fieldParts rest

end

theorem itemParts_eq (index : Nat) (items : List Value) : itemParts index items =
    (items.zipIdx index).flatMap fun item => within (.item item.2) item.1.parts := by
  induction items generalizing index with
  | nil => rfl
  | cons v rest ih => rw [itemParts, ih, List.zipIdx_cons, List.flatMap_cons]

theorem fieldParts_eq (fields : List (String × Value)) :
    fieldParts fields = fields.flatMap fun field => within (.field field.1) field.2.parts := by
  induction fields with
  | nil => rfl
  | cons field rest ih => rw [fieldParts, ih, List.flatMap_cons]

theorem parts_eq (v : Value) :
    v.parts = ([], v) :: v.children.flatMap fun child => within child.1 child.2.parts := by
  cases v with
  | array items => rw [parts, itemParts_eq, children, List.flatMap_map]
  | object fields => rw [parts, fieldParts_eq, children, List.flatMap_map]
  | _ => rfl

/-- What a value has if all that it holds have it, every value has. -/
theorem children_induction {motive : Value → Prop}
    (step : ∀ v, (∀ child ∈ v.children, motive child.2) → motive v) (v : Value) : motive v := by
  induction v using induction with
  | null | bool | number | string => exact step _ (by simp [children])
  | array items ih =>
    refine step _ fun child hChild => ?_
    obtain ⟨item, hItem, rfl⟩ := List.mem_map.mp hChild
    exact ih item.1 (List.fst_mem_of_mem_zipIdx hItem)
  | object fields ih =>
    refine step _ fun child hChild => ?_
    obtain ⟨field, hField, rfl⟩ := List.mem_map.mp hChild
    exact ih field hField

/-! ## Distinct steps -/

theorem wellFormed_of_mem_children {v : Value} (h : v.WellFormed) {child : Step × Value}
    (hChild : child ∈ v.children) : child.2.WellFormed := by
  cases v with
  | array items =>
    obtain ⟨item, hItem, rfl⟩ := List.mem_map.mp hChild
    exact wellFormed_array.mp h item.1 (List.fst_mem_of_mem_zipIdx hItem)
  | object fields =>
    obtain ⟨field, hField, rfl⟩ := List.mem_map.mp hChild
    exact (wellFormed_object.mp h).2 field hField
  | _ => cases hChild

theorem nodup_children_array (items : List Value) : ((array items).children.map (·.1)).Nodup := by
  have hSteps : (array items).children.map (·.1) =
      (List.range' 0 items.length).map Step.item := by
    rw [← List.zipIdx_map_snd, children, List.map_map, List.map_map]
    rfl
  rw [hSteps]
  exact List.Nodup.map (fun _ _ => Step.item.inj) List.nodup_range'

theorem nodup_children {v : Value} (h : v.WellFormed) : (v.children.map (·.1)).Nodup := by
  cases v with
  | array items => exact nodup_children_array items
  | object fields =>
    have hSteps : (object fields).children.map (·.1) = (fields.map (·.1)).map Step.field := by
      simp [children]
    rw [hSteps]
    exact (wellFormed_object.mp h).1.map fun _ _ => Step.field.inj
  | _ => exact List.nodup_nil

/-! ## Following a path -/

theorem part?_cons_eq_some_iff {v w : Value} (h : v.WellFormed) {step : Step} {path : Path} :
    v.part? (step :: path) = some w ↔ ∃ u, (step, u) ∈ v.children ∧ u.part? path = some w := by
  rw [part?, Option.bind_eq_some_iff]
  simp only [lookup_eq_some_iff_mem (nodup_children h)]

@[simp]
theorem lookup_item (items : List Value) (i : Nat) :
    (array items).children.lookup (.item i) = items[i]? := by
  ext v
  rw [lookup_eq_some_iff_mem (nodup_children_array items)]
  simp [children, List.mem_zipIdx_iff_getElem?]

@[simp]
theorem lookup_field (fields : List (String × Value)) (key : String) :
    (object fields).children.lookup (.field key) = fields.lookup key := by
  rw [children]
  induction fields with
  | nil => rfl
  | cons field rest ih =>
    have hSame : (Step.field key == Step.field field.1) = (key == field.1) := by
      simp [beq_eq_decide]
    rw [List.map_cons, List.lookup_cons, hSame, ih, List.lookup_cons]

theorem part?_item_eq_some_iff {items : List Value} {i : Nat} {path : Path} {w : Value} :
    (array items).part? (.item i :: path) = some w ↔
      ∃ v, items[i]? = some v ∧ v.part? path = some w := by
  rw [part?, lookup_item, Option.bind_eq_some_iff]

theorem part?_field_eq_some_iff {fields : List (String × Value)} {key : String} {path : Path}
    {w : Value} : (object fields).part? (.field key :: path) = some w ↔
      ∃ v, fields.lookup key = some v ∧ v.part? path = some w := by
  rw [part?, lookup_field, Option.bind_eq_some_iff]

theorem exists_item_of_part? {items : List Value} {step : Step} {path : Path} {w : Value}
    (h : (array items).part? (step :: path) = some w) :
    ∃ i v, step = .item i ∧ items[i]? = some v ∧ v.part? path = some w := by
  obtain ⟨v, hLookup, _⟩ := Option.bind_eq_some_iff.mp h
  obtain ⟨item, _, hEq⟩ := List.mem_map.mp (mem_of_lookup hLookup)
  cases hEq
  obtain ⟨v, hItem, hPart⟩ := part?_item_eq_some_iff.mp h
  exact ⟨item.2, v, rfl, hItem, hPart⟩

theorem exists_field_of_part? {fields : List (String × Value)} {step : Step} {path : Path}
    {w : Value} (h : (object fields).part? (step :: path) = some w) :
    ∃ key v, step = .field key ∧ fields.lookup key = some v ∧ v.part? path = some w := by
  obtain ⟨v, hLookup, _⟩ := Option.bind_eq_some_iff.mp h
  obtain ⟨field, _, hEq⟩ := List.mem_map.mp (mem_of_lookup hLookup)
  cases hEq
  obtain ⟨v, hField, hPart⟩ := part?_field_eq_some_iff.mp h
  exact ⟨field.1, v, rfl, hField, hPart⟩

/-- The parts of a value are what its paths lead to. -/
theorem mem_parts_iff {v w : Value} (h : v.WellFormed) {path : Path} :
    (path, w) ∈ v.parts ↔ v.part? path = some w := by
  induction v using children_induction generalizing path with
  | step v ih =>
    rw [parts_eq, List.mem_cons, List.mem_flatMap]
    cases path with
    | nil => simp [part?, within, eq_comm]
    | cons step path =>
      rw [part?_cons_eq_some_iff h]
      constructor
      · rintro (hHere | ⟨⟨_, u⟩, hChild, hPart⟩)
        · cases hHere
        · obtain ⟨⟨rest, w⟩, hInner, hEq⟩ := List.mem_map.mp hPart
          cases hEq
          exact ⟨u, hChild, (ih _ hChild (wellFormed_of_mem_children h hChild)).mp hInner⟩
      · rintro ⟨u, hChild, hPart⟩
        refine .inr ⟨(step, u), hChild, List.mem_map.mpr ⟨(path, w), ?_, rfl⟩⟩
        exact (ih _ hChild (wellFormed_of_mem_children h hChild)).mpr hPart

/-! ## The order of a document -/

/--
The first path leads to what stands earlier in the value: a container comes before what it holds,
and all that is in one item or field before what is in a later one.
-/
inductive Precedes : Value → Path → Path → Prop
  | inside {v : Value} {step : Step} {path : Path} : Precedes v [] (step :: path)
  | across {v : Value} {step later : Step} {path path' : Path} :
    [step, later].Sublist (v.children.map (·.1)) → Precedes v (step :: path) (later :: path')
  | under {v w : Value} {step : Step} {path path' : Path} : (step, w) ∈ v.children →
    Precedes w path path' → Precedes v (step :: path) (step :: path')

theorem Precedes.ne {v : Value} {path path' : Path} (h : Precedes v path path')
    (hv : v.WellFormed) : path ≠ path' := by
  induction h with
  | inside => exact (List.cons_ne_nil _ _).symm
  | across hSteps =>
    rintro ⟨⟩
    exact List.nodup_iff_sublist.mp (nodup_children hv) _ hSteps
  | under hChild _ ih =>
    rintro ⟨⟩
    exact ih (wellFormed_of_mem_children hv hChild) rfl

theorem pairwise_parts (v : Value) : v.parts.Pairwise fun a b => Precedes v a.1 b.1 := by
  induction v using children_induction with
  | step v ih =>
    rw [parts_eq, List.pairwise_cons, List.pairwise_flatMap]
    refine ⟨fun part hPart => ?_, fun child hChild => ?_, ?_⟩
    · obtain ⟨child, _, hPart⟩ := List.mem_flatMap.mp hPart
      obtain ⟨inner, _, rfl⟩ := List.mem_map.mp hPart
      exact .inside
    · rw [within, List.pairwise_map]
      exact (ih child hChild).imp fun hBefore => .under hChild hBefore
    · refine List.pairwise_iff_forall_sublist.mpr fun {child later} hPair a ha b hb => ?_
      obtain ⟨inner, _, rfl⟩ := List.mem_map.mp ha
      obtain ⟨inner', _, rfl⟩ := List.mem_map.mp hb
      exact .across (hPair.map Prod.fst)

end Reshape.Value
