import Mathlib.Data.List.Induction
import Reshape.Evaluation.Plan
import Reshape.Proofs.Value.WellFormed

/-!
# Building objects

The entries of an object are written one after the other. A key stands where it was first written,
and under it is what was written last.
-/

namespace Reshape

namespace Value

variable {key other : String} {value : Value} {fields entries : List (String × Value)}

@[simp]
theorem lookup_insertField_self : (insertField key value fields).lookup key = some value := by
  induction fields with
  | nil => simp [insertField]
  | cons field rest ih =>
    obtain ⟨k, v⟩ := field
    rw [insertField]
    split
    · rename_i hKey
      rw [hKey, List.lookup_cons_self]
    · rename_i hKey
      rw [List.lookup_cons, beq_false_of_ne (Ne.symm hKey)]
      exact ih

@[simp]
theorem lookup_insertField_of_ne (h : other ≠ key) :
    (insertField key value fields).lookup other = fields.lookup other := by
  induction fields with
  | nil => simp [insertField, h]
  | cons field rest ih =>
    obtain ⟨k, v⟩ := field
    rw [insertField]
    split
    · rename_i hKey
      rw [hKey, List.lookup_cons, List.lookup_cons, beq_false_of_ne h]
    · rw [List.lookup_cons, List.lookup_cons, ih]

@[simp]
theorem fieldsOf_concat (entries : List (String × Value)) (entry : String × Value) :
    fieldsOf (entries ++ [entry]) = insertField entry.1 entry.2 (fieldsOf entries) := by
  rw [fieldsOf, List.foldl_append]
  rfl

theorem keys_fieldsOf (entries : List (String × Value)) :
    (fieldsOf entries).map (·.1) = (entries.map (·.1)).eraseDups := by
  induction entries using List.reverseRecOn with
  | nil => rfl
  | append_singleton entries entry ih =>
    rw [fieldsOf_concat, List.map_append, List.eraseDups_append, ← ih]
    have hMember : entry.1 ∈ entries.map (·.1) ↔ entry.1 ∈ (fieldsOf entries).map (·.1) := by
      rw [ih, List.mem_eraseDups]
    by_cases hKey : entry.1 ∈ (fieldsOf entries).map (·.1)
    · simp [hKey, List.removeAll, hMember.mpr hKey]
    · simp [hKey, List.removeAll, hMember.not.mpr hKey, List.eraseDups_cons]

theorem nodup_keys_fieldsOf (entries : List (String × Value)) :
    ((fieldsOf entries).map (·.1)).Nodup := by
  induction entries using List.reverseRecOn with
  | nil => exact List.nodup_nil
  | append_singleton entries entry ih => simpa using nodup_insertField ih

/-- Under a key stands what the last entry with it has. -/
@[simp]
theorem lookup_fieldsOf (entries : List (String × Value)) (key : String) :
    (fieldsOf entries).lookup key = entries.reverse.lookup key := by
  induction entries using List.reverseRecOn with
  | nil => rfl
  | append_singleton entries entry ih =>
    obtain ⟨k, v⟩ := entry
    by_cases hKey : key = k
    · simp [hKey]
    · simp [hKey, ih, List.lookup_cons, beq_false_of_ne hKey]

theorem lookup_fieldsOf_of_last {before after : List (String × Value)}
    (h : ∀ later ∈ after, later.1 ≠ key) :
    (fieldsOf (before ++ (key, value) :: after)).lookup key = some value := by
  have hAfter : after.reverse.lookup key = none := by
    rw [List.lookup_eq_none_iff]
    intro later hLater
    exact bne_iff_ne.mpr (h later (List.mem_reverse.mp hLater)).symm
  simp [List.lookup_append, hAfter]

theorem lookup_fieldsOf_of_ne {before after : List (String × Value)} {entry : String × Value}
    (h : key ≠ entry.1) :
    (fieldsOf (before ++ entry :: after)).lookup key = (fieldsOf (before ++ after)).lookup key := by
  obtain ⟨k, v⟩ := entry
  simp [List.lookup_append, List.lookup_cons, beq_false_of_ne h]

end Value

namespace Plan

@[simp]
theorem evalEntries_eq_map (scope : Scope) (entries : List (Key × Plan)) :
    evalEntries scope entries =
      entries.map fun entry => (entry.1.eval scope, entry.2.eval scope) := by
  induction entries with
  | nil => rfl
  | cons entry rest ih => rw [evalEntries, ih, List.map_cons]

/--
The keys of an object are those of its entries, each where it first comes. Under a key is the value
of the last entry with that key, and an entry leaves alone what is under the other keys.
-/
theorem eval_object_last_wins (entries : List (Key × Plan)) (scope : Scope) :
    ∃ fields, (object entries).eval scope = .object fields ∧
      fields.map (·.1) = (entries.map fun entry => entry.1.eval scope).eraseDups ∧
      (fields.map (·.1)).Nodup ∧
      ∀ before entry after, entries = before ++ entry :: after →
        ((∀ later ∈ after, later.1.eval scope ≠ entry.1.eval scope) →
          fields.lookup (entry.1.eval scope) = some (entry.2.eval scope)) ∧
        ∃ others, (object (before ++ after)).eval scope = .object others ∧
          ∀ key, key ≠ entry.1.eval scope → fields.lookup key = others.lookup key := by
  refine ⟨_, rfl, ?_, Value.nodup_keys_fieldsOf _, ?_⟩
  · rw [Value.keys_fieldsOf, evalEntries_eq_map, List.map_map]
    rfl
  · rintro before entry after rfl
    constructor
    · intro hLast
      rw [evalEntries_eq_map, List.map_append, List.map_cons]
      apply Value.lookup_fieldsOf_of_last
      exact List.forall_mem_map.mpr hLast
    · refine ⟨_, rfl, ?_⟩
      intro key hKey
      rw [evalEntries_eq_map, evalEntries_eq_map, List.map_append, List.map_append, List.map_cons]
      exact Value.lookup_fieldsOf_of_ne hKey

/-- A computed key takes the place of a literal one, and a number in two forms is one key. -/
theorem eval_object_last_wins_collision :
    let number (n : Number) : Expr := .literal (.number n)
    let entries : List (Key × Plan) :=
      [(.literal "a", .literal (.bool true)), (.computed (number (.integer 1)), .literal .null),
        (.computed .root, .literal (.string "last")),
        (.computed (number (.double (.ofInt 1))), .expr .root)]
    let scope : Scope := .root (.string "a")
    ∃ fields, (object entries).eval scope = .object fields ∧ fields.map (·.1) = ["a", "1"] ∧
      fields.lookup "a" = some (.string "last") ∧ fields.lookup "1" = some (.string "a") := by
  intro number entries scope
  obtain ⟨fields, hEval, hKeys, _, hFields⟩ := eval_object_last_wins entries scope
  have hOne : (Key.computed (number (.double (.ofInt 1)))).eval scope = "1" := by
    decide +kernel
  obtain ⟨hRoot, _⟩ := hFields (entries.take 2) _ (entries.drop 3) rfl
  obtain ⟨hNumber, _⟩ := hFields (entries.take 3) _ [] rfl
  refine ⟨fields, hEval, ?_, hRoot ?_, ?_⟩
  · rw [hKeys]
    decide +kernel
  · intro later hLater
    rw [List.mem_singleton.mp hLater, hOne]
    decide
  · rw [← hOne]
    exact hNumber (by simp)

end Plan

end Reshape
