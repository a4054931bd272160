import Reshape.Binary64.Basic

/-!
# Values

A value is a document's content. A number keeps the form it was written in: a whole number that a
64-bit integer can hold is an integer, every other number is a binary64 number. An object keeps its
fields in the order in which their keys first appeared.
-/

namespace Reshape

inductive Number where
  | integer (n : Int)
  | double (x : Binary64)
  deriving DecidableEq

namespace Number

def toBinary64 : Number → Binary64
  | .integer n => .ofInt n
  | .double x => x

def same : Number → Number → Bool
  | .integer m, .integer n => m == n
  | .double x, .double y => x.equal y
  | _, _ => false

/-- Integers lie between `-2 ^ 63` and `2 ^ 64 - 1`, and binary64 numbers are finite. -/
def WellFormed : Number → Prop
  | .integer n => -2 ^ 63 ≤ n ∧ n < 2 ^ 64
  | .double x => x.isFinite = true

@[simp]
theorem wellFormed_integer {n : Int} : (integer n).WellFormed ↔ -2 ^ 63 ≤ n ∧ n < 2 ^ 64 := .rfl

@[simp]
theorem wellFormed_double {x : Binary64} : (double x).WellFormed ↔ x.isFinite = true := .rfl

end Number

inductive Value where
  | null
  | bool (b : Bool)
  | number (n : Number)
  | string (s : String)
  | array (items : List Value)
  | object (fields : List (String × Value))

namespace Value

def typeName : Value → String
  | null => "null"
  | bool _ => "boolean"
  | number _ => "number"
  | string _ => "string"
  | array _ => "array"
  | object _ => "object"

/-- A value counts as true unless it is null, false, zero or the empty string. -/
def isTruthy : Value → Bool
  | null => false
  | bool b => b
  | number n => !n.toBinary64.isZero && !n.toBinary64.isNaN
  | string s => s != ""
  | array _ => true
  | object _ => true

/-- Sets a field: a new key goes to the end, a known one keeps its place. -/
def insertField (key : String) (value : Value) : List (String × Value) → List (String × Value)
  | [] => [(key, value)]
  | (k, v) :: rest =>
    if k = key then (k, value) :: rest else (k, v) :: insertField key value rest

def fieldsOf (entries : List (String × Value)) : List (String × Value) :=
  entries.foldl (fun fields entry => insertField entry.1 entry.2 fields) []

mutual

/-- Numbers are well formed, and the keys of each object are distinct. -/
def WellFormed : Value → Prop
  | number n => n.WellFormed
  | array items => ItemsWellFormed items
  | object fields => (fields.map (·.1)).Nodup ∧ FieldsWellFormed fields
  | _ => True

def ItemsWellFormed : List Value → Prop
  | [] => True
  | v :: rest => v.WellFormed ∧ ItemsWellFormed rest

def FieldsWellFormed : List (String × Value) → Prop
  | [] => True
  | (_, v) :: rest => v.WellFormed ∧ FieldsWellFormed rest

end

@[simp]
theorem itemsWellFormed_iff {items : List Value} :
    ItemsWellFormed items ↔ ∀ v ∈ items, v.WellFormed := by
  induction items with
  | nil => simp [ItemsWellFormed]
  | cons v rest ih => rw [ItemsWellFormed, ih, List.forall_mem_cons]

@[simp]
theorem fieldsWellFormed_iff {fields : List (String × Value)} :
    FieldsWellFormed fields ↔ ∀ field ∈ fields, field.2.WellFormed := by
  induction fields with
  | nil => simp [FieldsWellFormed]
  | cons field rest ih => rw [FieldsWellFormed, ih, List.forall_mem_cons]

@[simp]
theorem wellFormed_null : null.WellFormed := trivial

@[simp]
theorem wellFormed_bool (b : Bool) : (bool b).WellFormed := trivial

@[simp]
theorem wellFormed_string (s : String) : (string s).WellFormed := trivial

@[simp]
theorem wellFormed_number {n : Number} : (number n).WellFormed ↔ n.WellFormed := .rfl

@[simp]
theorem wellFormed_array {items : List Value} :
    (array items).WellFormed ↔ ∀ v ∈ items, v.WellFormed := by
  simp [WellFormed]

@[simp]
theorem wellFormed_object {fields : List (String × Value)} :
    (object fields).WellFormed ↔
      (fields.map (·.1)).Nodup ∧ ∀ field ∈ fields, field.2.WellFormed := by
  simp [WellFormed]

mutual

/--
Every string inside a value, object keys apart, is replaced by a value.
-/
def mapStrings (f : String → Value) : Value → Value
  | string s => f s
  | array items => array (mapItemStrings f items)
  | object fields => object (mapFieldStrings f fields)
  | v => v

def mapItemStrings (f : String → Value) : List Value → List Value
  | [] => []
  | v :: rest => mapStrings f v :: mapItemStrings f rest

def mapFieldStrings (f : String → Value) : List (String × Value) → List (String × Value)
  | [] => []
  | (k, v) :: rest => (k, mapStrings f v) :: mapFieldStrings f rest

end

@[simp]
theorem keys_insertField_of_mem {key : String} {value : Value} {fields : List (String × Value)}
    (h : key ∈ fields.map (·.1)) :
    (insertField key value fields).map (·.1) = fields.map (·.1) := by
  induction fields with
  | nil => simp at h
  | cons field rest ih =>
    obtain ⟨k, v⟩ := field
    by_cases hk : k = key
    · simp [insertField, hk]
    · have hr : key ∈ rest.map (·.1) := by simpa [Ne.symm hk] using h
      simp [insertField, hk, ih hr]

@[simp]
theorem insertField_of_not_mem {key : String} {value : Value} {fields : List (String × Value)}
    (h : key ∉ fields.map (·.1)) : insertField key value fields = fields ++ [(key, value)] := by
  induction fields with
  | nil => rfl
  | cons field rest ih =>
    obtain ⟨hk, hr⟩ := List.ne_and_not_mem_of_not_mem_cons h
    simp [insertField, hk.symm, ih hr]

theorem foldl_insertField_of_nodup {fields entries : List (String × Value)}
    (h : ((fields ++ entries).map (·.1)).Nodup) :
    entries.foldl (fun fields entry => insertField entry.1 entry.2 fields) fields =
      fields ++ entries := by
  induction entries generalizing fields with
  | nil => simp
  | cons entry rest ih =>
    have hNew : entry.1 ∉ fields.map (·.1) := by
      rw [List.map_append, List.nodup_append] at h
      exact fun hMember => h.2.2 _ hMember _ List.mem_cons_self rfl
    rw [List.foldl_cons, insertField_of_not_mem hNew, ih (by simpa using h), List.append_assoc]
    rfl

@[simp]
theorem fieldsOf_of_nodup {fields : List (String × Value)} (h : (fields.map (·.1)).Nodup) :
    fieldsOf fields = fields :=
  foldl_insertField_of_nodup (by simpa using h)

end Value

end Reshape
