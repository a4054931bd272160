import Reshape.Proofs.Except
import Reshape.Proofs.Value.Contents
import Reshape.Proofs.Value.WellFormed
import Reshape.Yaml.Node

/-!
# Values as nodes

Every value is the content of a node of the same shape, whose keys are strings and which has no
tags. Such a node is read as the value that it was made of.
-/

namespace Reshape.Yaml.Node

mutual

def ofValue : Value → Node
  | .null => null
  | .bool b => bool b
  | .number n => number n
  | .string s => string s
  | .array items => sequence (ofItems items)
  | .object fields => mapping (ofFields fields)

def ofItems : List Value → List Node
  | [] => []
  | v :: rest => ofValue v :: ofItems rest

def ofFields : List (String × Value) → List (Node × Node)
  | [] => []
  | (k, v) :: rest => (string k, ofValue v) :: ofFields rest

end

/-- An integer is taken with sign or without, whichever holds it, and no double is taken for one. -/
@[simp]
theorem numberValue_of_wellFormed {n : Number} (h : n.WellFormed) : numberValue n = .number n := by
  cases n with
  | integer n =>
    by_cases hSigned : n < 2 ^ 63
    · have hInteger : (Number.integer n).signed64? = some n := if_pos hSigned
      rw [numberValue, hInteger]
    · have hNone : (Number.integer n).signed64? = none := if_neg hSigned
      have hPos : 0 ≤ n := by omega
      have hInteger : (Number.integer n).unsigned64? = some n.toNat := if_pos hPos
      rw [numberValue, hNone, hInteger]
      simp only [Int.toNat_of_nonneg hPos]
  | double x =>
    have hFinite : x.isFinite = true := h
    exact if_pos hFinite

theorem toItems_ofItems {items : List Value}
    (h : ∀ v ∈ items, ∀ path, (ofValue v).toValue path = .ok v) (path : Path) (index : Nat) :
    toItems path index (ofItems items) = .ok items := by
  induction items generalizing index with
  | nil => rfl
  | cons v rest ih =>
    obtain ⟨hFirst, hRest⟩ := List.forall_mem_cons.mp h
    rw [ofItems, toItems, hFirst, ih hRest]
    rfl

theorem toFields_ofFields {fields : List (String × Value)}
    (h : ∀ field ∈ fields, ∀ path, (ofValue field.2).toValue path = .ok field.2) (path : Path) :
    toFields path (ofFields fields) = .ok fields := by
  induction fields with
  | nil => rfl
  | cons field rest ih =>
    obtain ⟨hFirst, hRest⟩ := List.forall_mem_cons.mp h
    have hKey : keyText? (string field.1) = some field.1 := rfl
    rw [ofFields, toFields, hKey]
    simp only [hFirst, ih hRest]
    rfl

/-- The order of the fields and the forms of the numbers are those of the value. -/
theorem toValue_ofValue {v : Value} (h : v.WellFormed) (path : Path) :
    (ofValue v).toValue path = .ok v := by
  induction v using Value.induction generalizing path with
  | null | bool | string => rfl
  | number n =>
    have hNumber : numberValue n = .number n := numberValue_of_wellFormed h
    rw [ofValue, toValue, hNumber]
  | array items ih =>
    have hItems : ∀ v ∈ items, ∀ path, (ofValue v).toValue path = .ok v := by
      intro v hv
      exact ih v hv (Value.wellFormed_array.mp h v hv)
    rw [ofValue, toValue, toItems_ofItems hItems]
    rfl
  | object fields ih =>
    obtain ⟨hKeys, hValues⟩ := Value.wellFormed_object.mp h
    have hFields : ∀ field ∈ fields, ∀ path, (ofValue field.2).toValue path = .ok field.2 := by
      intro field hField
      exact ih field hField (hValues field hField)
    rw [ofValue, toValue, toFields_ofFields hFields]
    exact congrArg (fun fields => Except.ok (Value.object fields)) (Value.fieldsOf_of_nodup hKeys)

/-- Both ends of the integers, a whole double and a negative zero, under keys that stay in order. -/
theorem toValue_ofValue_numbers :
    let v : Value := .object [("z", .array [.number (.integer (2 ^ 64 - 1)),
      .number (.integer (-2 ^ 63)), .number (.double ⟨false, 1023 * 2 ^ 52⟩),
      .number (.double ⟨true, 0⟩)]), ("", .null), ("a", .object [])]
    v.WellFormed ∧ (ofValue v).toValue [] = .ok v := by
  intro v
  have hWellFormed : v.WellFormed := by
    simp [v, Binary64.isFinite, Binary64.infinityMagnitude]
  exact ⟨hWellFormed, toValue_ofValue hWellFormed []⟩

end Reshape.Yaml.Node
