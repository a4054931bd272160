import Reshape.Value.Basic

/-!
# Contents of a value

The scalars at any depth of a value, object keys apart, and the depth to which its containers nest.
When the strings of a value are replaced, the result depends only on what each of those inside is
replaced by.
-/

namespace Reshape.Value

/-- What a container has if its items or the values of its fields have it, all values have. -/
@[elab_as_elim]
theorem induction {motive : Value → Prop} (null : motive null) (bool : ∀ b, motive (bool b))
    (number : ∀ n, motive (number n)) (string : ∀ s, motive (string s))
    (array : ∀ items, (∀ v ∈ items, motive v) → motive (array items))
    (object : ∀ fields, (∀ field ∈ fields, motive field.2) → motive (object fields)) (v : Value) :
    motive v := by
  refine @Value.rec motive (fun items => ∀ v ∈ items, motive v)
    (fun fields => ∀ field ∈ fields, motive field.2) (fun field => motive field.2)
    null bool number string array object (by simp) ?_ (by simp) ?_ (fun _ _ h => h) v
  · intro v rest hValue hRest
    exact List.forall_mem_cons.mpr ⟨hValue, hRest⟩
  · intro field rest hField hRest
    exact List.forall_mem_cons.mpr ⟨hField, hRest⟩

mutual

/-- The values inside a value that are no containers, in their order; keys are none of them. -/
def scalars : Value → List Value
  | array items => itemScalars items
  | object fields => fieldScalars fields
  | v => [v]

def itemScalars : List Value → List Value
  | [] => []
  | v :: rest => v.scalars ++ itemScalars rest

def fieldScalars : List (String × Value) → List Value
  | [] => []
  | (_, v) :: rest => v.scalars ++ fieldScalars rest

end

mutual

/-- How many containers stand inside each other, at most. -/
def nesting : Value → Nat
  | array items => itemsNesting items + 1
  | object fields => fieldsNesting fields + 1
  | _ => 0

def itemsNesting : List Value → Nat
  | [] => 0
  | v :: rest => max v.nesting (itemsNesting rest)

def fieldsNesting : List (String × Value) → Nat
  | [] => 0
  | (_, v) :: rest => max v.nesting (fieldsNesting rest)

end

@[simp]
theorem mem_scalars_array {w : Value} {items : List Value} :
    w ∈ (array items).scalars ↔ ∃ v ∈ items, w ∈ v.scalars := by
  rw [scalars]
  induction items with
  | nil => simp [itemScalars]
  | cons v rest ih => simp [itemScalars, ih]

@[simp]
theorem mem_scalars_object {w : Value} {fields : List (String × Value)} :
    w ∈ (object fields).scalars ↔ ∃ field ∈ fields, w ∈ field.2.scalars := by
  rw [scalars]
  induction fields with
  | nil => simp [fieldScalars]
  | cons field rest ih => simp [fieldScalars, ih]

theorem nesting_lt_array {v : Value} {items : List Value} (h : v ∈ items) :
    v.nesting < (array items).nesting := by
  rw [nesting.eq_def (array items), Nat.lt_succ_iff]
  induction items with
  | nil => cases h
  | cons w rest ih =>
    rw [itemsNesting]
    rcases List.mem_cons.mp h with rfl | h
    · exact Nat.le_max_left _ _
    · exact Nat.le_trans (ih h) (Nat.le_max_right _ _)

theorem nesting_lt_object {field : String × Value} {fields : List (String × Value)}
    (h : field ∈ fields) : field.2.nesting < (object fields).nesting := by
  rw [nesting.eq_def (object fields), Nat.lt_succ_iff]
  induction fields with
  | nil => cases h
  | cons first rest ih =>
    rw [fieldsNesting]
    rcases List.mem_cons.mp h with rfl | h
    · exact Nat.le_max_left _ _
    · exact Nat.le_trans (ih h) (Nat.le_max_right _ _)

/-! ## Replacing strings -/

@[simp]
theorem mapStrings_array (f : String → Value) (items : List Value) :
    (array items).mapStrings f = array (items.map (mapStrings f)) := by
  rw [mapStrings]
  congr 1
  induction items with
  | nil => rfl
  | cons v rest ih => rw [mapItemStrings, ih, List.map_cons]

@[simp]
theorem mapStrings_object (f : String → Value) (fields : List (String × Value)) :
    (object fields).mapStrings f =
      object (fields.map fun field => (field.1, field.2.mapStrings f)) := by
  rw [mapStrings]
  congr 1
  induction fields with
  | nil => rfl
  | cons field rest ih => rw [mapFieldStrings, ih, List.map_cons]

theorem mapStrings_congr {f g : String → Value} (v : Value)
    (h : ∀ s, string s ∈ v.scalars → f s = g s) : v.mapStrings f = v.mapStrings g := by
  induction v using induction with
  | null | bool | number => rfl
  | string s => exact h s List.mem_cons_self
  | array items ih =>
    simp only [mapStrings_array]
    congr 1
    refine List.map_congr_left fun v hv => ih v hv fun s hs => h s ?_
    exact mem_scalars_array.mpr ⟨v, hv, hs⟩
  | object fields ih =>
    simp only [mapStrings_object]
    congr 1
    refine List.map_congr_left fun field hField => ?_
    rw [ih field hField fun s hs => h s (mem_scalars_object.mpr ⟨field, hField, hs⟩)]

@[simp]
theorem mapStrings_string (v : Value) : v.mapStrings string = v := by
  induction v using induction with
  | null | bool | number | string => rfl
  | array items ih => simp [List.map_congr_left ih]
  | object fields ih =>
    rw [mapStrings_object, List.map_congr_left fun field hField => by rw [ih field hField]]
    simp

theorem mapStrings_eq_self {f : String → Value} {v : Value}
    (h : ∀ s, string s ∈ v.scalars → f s = string s) : v.mapStrings f = v := by
  rw [mapStrings_congr v h, mapStrings_string]

end Reshape.Value
