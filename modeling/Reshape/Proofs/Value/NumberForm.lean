import Reshape.Proofs.Value.Equality
import Reshape.Proofs.Value.Part

/-!
# Numbers inside containers

Two numbers are equal if they have one value. Inside of containers they have to have one form, too:
equality goes through arrays and objects just as far as the numbers at the same places are both
doubles or the same integer.
-/

namespace Reshape.Value

/-- If both are numbers, they have one form. -/
def SameForm (v w : Value) : Prop := ∀ m n, v = number m → w = number n → m.SameForm n

theorem same_iff_equal {v w : Value} : same v w = true ↔ equal v w = true ∧ SameForm v w := by
  constructor
  · intro h
    refine ⟨equal_of_same h, ?_⟩
    rintro m n rfl rfl
    exact (Number.same_iff.mp h).2
  · rintro ⟨hEqual, hForm⟩
    rcases equal_iff.mp hEqual with h | ⟨m, n, rfl, rfl, hValue⟩
    · exact h
    · exact Number.same_iff.mpr ⟨hValue, hForm m n rfl rfl⟩

theorem equal_array_iff {items others : List Value} (hLength : items.length = others.length)
    (h : ∀ (i : Nat) (v w : Value), items[i]? = some v → others[i]? = some w → equal v w = true) :
    equal (array items) (array others) = true ↔
      ∀ (i : Nat) (v w : Value), items[i]? = some v → others[i]? = some w → SameForm v w := by
  change same (array items) (array others) = true ↔ _
  rw [same_array_iff]
  constructor
  · rintro ⟨_, hItems⟩ i v w hv hw
    exact (same_iff_equal.mp (hItems i v w hv hw)).2
  · intro hForms
    refine ⟨hLength, fun i v w hv hw => ?_⟩
    exact same_iff_equal.mpr ⟨h i v w hv hw, hForms i v w hv hw⟩

theorem equal_object_iff {fields others : List (String × Value)}
    (hFields : (fields.map (·.1)).Nodup) (hOthers : (others.map (·.1)).Nodup)
    (hKeys : ∀ key, key ∈ fields.map (·.1) ↔ key ∈ others.map (·.1))
    (h : ∀ key v w, fields.lookup key = some v → others.lookup key = some w → equal v w = true) :
    equal (object fields) (object others) = true ↔
      ∀ key v w, fields.lookup key = some v → others.lookup key = some w → SameForm v w := by
  change same (object fields) (object others) = true ↔ _
  rw [same_object_iff hFields hOthers]
  constructor
  · rintro ⟨_, hValues⟩ key v w hv hw
    exact (same_iff_equal.mp (hValues key v w hv hw)).2
  · intro hForms
    refine ⟨hKeys, fun key v w hv hw => ?_⟩
    exact same_iff_equal.mpr ⟨h key v w hv hw, hForms key v w hv hw⟩

/-! ## At every depth -/

section Paths

variable {R S : Number → Number → Prop} {v w : Value}

theorem Alike.mono (hRS : ∀ m n, R m n → S m n) (h : Alike R v w) : Alike S v w := by
  induction h with
  | null => exact .null
  | bool b => exact .bool b
  | number h => exact .number (hRS _ _ h)
  | string s => exact .string s
  | array hLength _ ih => exact .array hLength ih
  | object hKeys _ ih => exact .object hKeys ih

theorem Alike.of_path (h : Alike R v w) {path : Path} {m n : Number}
    (hm : v.part? path = some (.number m)) (hn : w.part? path = some (.number n)) : R m n := by
  induction h generalizing path with
  | number h =>
    cases path with
    | nil =>
      cases hm
      cases hn
      exact h
    | cons step path => cases hm
  | array _ _ ih =>
    cases path with
    | nil => cases hm
    | cons step path =>
      obtain ⟨i, v, rfl, hv, hm⟩ := exists_item_of_part? hm
      obtain ⟨w, hw, hn⟩ := part?_item_eq_some_iff.mp hn
      exact ih i v w hv hw hm hn
  | object _ _ ih =>
    cases path with
    | nil => cases hm
    | cons step path =>
      obtain ⟨key, v, rfl, hv, hm⟩ := exists_field_of_part? hm
      obtain ⟨w, hw, hn⟩ := part?_field_eq_some_iff.mp hn
      exact ih key v w hv hw hm hn
  | _ => cases path <;> cases hm

/-- Numbers may be compared more closely by looking at all the paths that lead to two of them. -/
theorem Alike.and_of_paths (h : Alike R v w)
    (hPaths : ∀ path m n, v.part? path = some (.number m) → w.part? path = some (.number n) →
      S m n) : Alike (fun m n => R m n ∧ S m n) v w := by
  induction h with
  | null => exact .null
  | bool b => exact .bool b
  | number h => exact .number ⟨h, hPaths [] _ _ rfl rfl⟩
  | string s => exact .string s
  | array hLength _ ih =>
    refine .array hLength fun i v w hv hw => ih i v w hv hw fun path m n hm hn => ?_
    exact hPaths (.item i :: path) m n (part?_item_eq_some_iff.mpr ⟨v, hv, hm⟩)
      (part?_item_eq_some_iff.mpr ⟨w, hw, hn⟩)
  | object hKeys _ ih =>
    refine .object hKeys fun key v w hv hw => ih key v w hv hw fun path m n hm hn => ?_
    exact hPaths (.field key :: path) m n (part?_field_eq_some_iff.mpr ⟨v, hv, hm⟩)
      (part?_field_eq_some_iff.mpr ⟨w, hw, hn⟩)

end Paths

theorem same_iff_alike_of_paths {v w : Value} (hv : v.WellFormed) (hw : w.WellFormed)
    (h : Alike Number.SameValue v w) :
    same v w = true ↔ ∀ path m n, v.part? path = some (number m) →
      w.part? path = some (number n) → m.SameForm n := by
  rw [same_iff_alike hv hw]
  constructor
  · intro hSame path m n hm hn
    exact (Number.same_iff.mp (hSame.of_path hm hn)).2
  · intro hPaths
    exact (h.and_of_paths hPaths).mono fun _ _ => Number.same_iff.mpr

/-- At the top of two values the form of numbers is no matter, and everywhere below it is. -/
theorem equal_iff_of_alike {v w : Value} (hv : v.WellFormed) (hw : w.WellFormed)
    (h : Alike Number.SameValue v w) :
    equal v w = true ↔ ∀ step path m n, v.part? (step :: path) = some (number m) →
      w.part? (step :: path) = some (number n) → m.SameForm n := by
  constructor
  · intro hEqual step path m n hm hn
    rcases equal_iff.mp hEqual with hSame | ⟨m', n', rfl, rfl, _⟩
    · exact (same_iff_alike_of_paths hv hw h).mp hSame (step :: path) m n hm hn
    · cases hm
  · intro hPaths
    have hTop : equal v w = true ∨ ∀ m, v ≠ number m := by
      cases h with
      | number hValue => exact .inl hValue
      | _ => exact .inr fun m => Value.noConfusion
    rcases hTop with hEqual | hContainer
    · exact hEqual
    · refine equal_of_same ((same_iff_alike_of_paths hv hw h).mpr fun path m n hm hn => ?_)
      cases path with
      | nil => exact absurd (Option.some.inj hm) (hContainer m)
      | cons step path => exact hPaths step path m n hm hn

/--
Arrays of pairwise equal items, and objects with the same keys and pairwise equal fields, are equal
exactly if the items or fields that are numbers have one form. So of two values whose numbers agree
by value at every depth, equality demands that all numbers below the top agree in their form.
-/
theorem equal_containers_iff (items others : List Value) (fields entries : List (String × Value))
    (v w : Value) :
    (items.length = others.length →
      (∀ (i : Nat) (v w : Value), items[i]? = some v → others[i]? = some w → equal v w = true) →
      (equal (array items) (array others) = true ↔
        ∀ (i : Nat) (v w : Value), items[i]? = some v → others[i]? = some w → SameForm v w)) ∧
    ((fields.map (·.1)).Nodup → (entries.map (·.1)).Nodup →
      (∀ key, key ∈ fields.map (·.1) ↔ key ∈ entries.map (·.1)) →
      (∀ key v w, fields.lookup key = some v → entries.lookup key = some w → equal v w = true) →
      (equal (object fields) (object entries) = true ↔
        ∀ key v w, fields.lookup key = some v → entries.lookup key = some w → SameForm v w)) ∧
    (v.WellFormed → w.WellFormed → Alike Number.SameValue v w →
      (equal v w = true ↔ ∀ step path m n, v.part? (step :: path) = some (number m) →
        w.part? (step :: path) = some (number n) → m.SameForm n)) :=
  ⟨equal_array_iff, equal_object_iff, equal_iff_of_alike⟩

/-- Two zeros as items and as fields, which are doubles, and one in two forms, two levels down. -/
theorem equal_containers_iff_zeros :
    let zero := number (.double .zero)
    let minus := number (.double ⟨true, 0⟩)
    let whole := number (.integer 0)
    equal (array [zero, null]) (array [minus, null]) = true ∧
      equal (object [("a", zero)]) (object [("a", minus)]) = true ∧
      Alike Number.SameValue (array [array [zero]]) (array [array [whole]]) ∧
      equal (array [array [zero]]) (array [array [whole]]) = false := by
  intro zero minus whole
  obtain ⟨hArrays, hObjects, hDepth⟩ := equal_containers_iff [zero, null] [minus, null]
    [("a", zero)] [("a", minus)] (array [array [zero]]) (array [array [whole]])
  have hForm : SameForm zero minus := by
    intro m n hm hn
    cases Value.number.inj hm
    cases Value.number.inj hn
    exact .double _ _
  have hAlike : Alike Number.SameValue (array [array [zero]]) (array [array [whole]]) := by
    refine .array rfl ?_
    rintro (_ | i) v w ⟨⟩ ⟨⟩
    refine .array rfl ?_
    rintro (_ | i) v w ⟨⟩ ⟨⟩
    exact .number (by unfold Number.SameValue; decide +kernel)
  refine ⟨?_, ?_, hAlike, ?_⟩
  · refine (hArrays rfl ?_).mpr ?_
    · rintro (_ | _ | i) v w ⟨⟩ ⟨⟩ <;> rfl
    · rintro (_ | _ | i) v w ⟨⟩ ⟨⟩
      · exact hForm
      · rintro m n ⟨⟩
  · refine (hObjects (by simp) (by simp) (fun _ => Iff.rfl) ?_).mpr ?_
    · intro key v w hv hw
      cases List.mem_singleton.mp (mem_of_lookup hv)
      cases List.mem_singleton.mp (mem_of_lookup hw)
      rfl
    · intro key v w hv hw
      cases List.mem_singleton.mp (mem_of_lookup hv)
      cases List.mem_singleton.mp (mem_of_lookup hw)
      exact hForm
  · have hZero : (array [array [zero]]).WellFormed :=
      ⟨⟨Binary64.isFinite_zero, trivial⟩, trivial⟩
    have hWhole : (array [array [whole]]).WellFormed :=
      ⟨⟨⟨by decide, by decide⟩, trivial⟩, trivial⟩
    rw [Bool.eq_false_iff, Ne, hDepth hZero hWhole hAlike]
    intro hPaths
    cases hPaths (.item 0) [.item 0] _ _ rfl rfl

/-- The integer one equals the double one, but containers of the two are not equal. -/
theorem not_equal_array_of_forms :
    let one := number (.integer 1)
    let other := number (.double (.ofInt 1))
    equal one other = true ∧ equal (array [one]) (array [other]) = false ∧
      equal (object [("a", one)]) (object [("a", other)]) = false := by
  intro one other
  have hEqual : equal one other = true := by decide +kernel
  exact ⟨hEqual, rfl, rfl⟩

end Reshape.Value
