import Reshape.Json.Writer

/-!
# Checked writing

The checked writer refuses a number without a decimal and an object that repeats a key, and
otherwise writes what the writer does. It never refuses a well-formed value.
-/

namespace Reshape.Json

def numberText? : Number → Option (List Char)
  | .integer n => some (numberText (.integer n))
  | .double x => if x.isFinite then some (numberText (.double x)) else none

mutual

def valueText? (width depth : Nat) : Value → Option (List Char)
  | .number n => numberText? n
  | .array [] => some ['[', ']']
  | .array (v :: rest) => do
    let first ← valueText? width (depth + 1) v
    let others ← itemsText? width (depth + 1) rest
    return '[' :: lineBreak width (depth + 1) ++ first ++ others ++ lineBreak width depth ++ [']']
  | .object [] => some ['\x7b', '\x7d']
  | .object ((k, v) :: rest) =>
    if (((k, v) :: rest).map (·.1)).Nodup then do
      let first ← valueText? width (depth + 1) v
      let others ← fieldsText? width (depth + 1) rest
      return '\x7b' :: lineBreak width (depth + 1) ++ stringText k ++ colon width ++ first ++
        others ++ lineBreak width depth ++ ['\x7d']
    else none
  | v => some (valueText width depth v)

def itemsText? (width depth : Nat) : List Value → Option (List Char)
  | [] => some []
  | v :: rest => do
    let first ← valueText? width depth v
    let others ← itemsText? width depth rest
    return ',' :: lineBreak width depth ++ first ++ others

def fieldsText? (width depth : Nat) : List (String × Value) → Option (List Char)
  | [] => some []
  | (k, v) :: rest => do
    let first ← valueText? width depth v
    let others ← fieldsText? width depth rest
    return ',' :: lineBreak width depth ++ stringText k ++ colon width ++ first ++ others

end

def write? (width : Nat) (v : Value) : Option String :=
  (valueText? width 0 v).map String.ofList

theorem numberText?_of_wellFormed {n : Number} (h : n.WellFormed) :
    numberText? n = some (numberText n) := by
  cases n with
  | integer n => rfl
  | double x => exact if_pos h

mutual

theorem valueText?_of_wellFormed (width depth : Nat) (v : Value) (h : v.WellFormed) :
    valueText? width depth v = some (valueText width depth v) := by
  match v with
  | .null | .bool _ | .string _ => rw [valueText?] <;> simp
  | .number n =>
    rw [valueText?, valueText]
    exact numberText?_of_wellFormed h
  | .array [] => rw [valueText?, valueText]
  | .array (v :: rest) =>
    rw [valueText?, valueText, valueText?_of_wellFormed width (depth + 1) v h.1,
      itemsText?_of_wellFormed width (depth + 1) rest h.2]
    rfl
  | .object [] => rw [valueText?, valueText]
  | .object ((k, v) :: rest) =>
    obtain ⟨hKeys, hValue, hRest⟩ := h
    rw [valueText?, valueText, if_pos hKeys, valueText?_of_wellFormed width (depth + 1) v hValue,
      fieldsText?_of_wellFormed width (depth + 1) rest hRest]
    rfl

theorem itemsText?_of_wellFormed (width depth : Nat) (items : List Value)
    (h : Value.ItemsWellFormed items) :
    itemsText? width depth items = some (itemsText width depth items) := by
  cases items with
  | nil => rfl
  | cons v rest =>
    rw [itemsText?, itemsText, valueText?_of_wellFormed width depth v h.1,
      itemsText?_of_wellFormed width depth rest h.2]
    rfl

theorem fieldsText?_of_wellFormed (width depth : Nat) (fields : List (String × Value))
    (h : Value.FieldsWellFormed fields) :
    fieldsText? width depth fields = some (fieldsText width depth fields) := by
  match fields with
  | [] => rfl
  | (k, v) :: rest =>
    rw [fieldsText?, fieldsText, valueText?_of_wellFormed width depth v h.1,
      fieldsText?_of_wellFormed width depth rest h.2]
    rfl

end

theorem write?_of_wellFormed (width : Nat) {v : Value} (h : v.WellFormed) :
    write? width v = some (write width v) := by
  rw [write?, valueText?_of_wellFormed width 0 v h]
  rfl

end Reshape.Json
