import Reshape.Proofs.Binary64.Integer
import Reshape.Proofs.Text.Trim
import Reshape.Value.Access

/-!
# Array indices

A key picks an item of an array if it denotes a whole number. The index is found with binary64
numbers, which is exact in every array that has fewer than `2 ^ 53` items.
-/

namespace Reshape

namespace Text

/-- Digits, and in front of them a minus sign if the integer is to be negative. -/
inductive IsNumeral : List Char → Int → Prop
  | unsigned {digits : List Char} (hNonempty : digits ≠ []) (hDigits : digits.all isDigit) :
    IsNumeral digits (ofDigits digits)
  | minus {digits : List Char} (hNonempty : digits ≠ []) (hDigits : digits.all isDigit) :
    IsNumeral ('-' :: digits) (-ofDigits digits)

theorem isBlank_of_isDigit {c : Char} (h : isDigit c = true) : isBlank c = false := by
  simp only [isDigit, Bool.and_eq_true, decide_eq_true_eq, Char.le_def, UInt32.le_iff_toNat_le] at h
  obtain ⟨hLow, hHigh⟩ : 48 ≤ c.toNat ∧ c.toNat ≤ 57 := h
  simp [isBlank]
  omega

theorem decimalParts?_of_digits {s : List Char} (hNonempty : s ≠ []) (h : s.all isDigit) :
    decimalParts? s = some (ofDigits s, 0) := by
  have hTake : s.takeWhile isDigit = s := List.takeWhile_eq_self_iff.mpr (List.all_eq_true.mp h)
  have hDrop : s.dropWhile isDigit = [] := List.dropWhile_eq_nil_iff.mpr (List.all_eq_true.mp h)
  simp [decimalParts?, hTake, hDrop, hNonempty, exponentPart?]

theorem ofDecimal_zero (negative : Bool) (c : Nat) :
    Binary64.ofDecimal negative c 0 = ⟨negative, Binary64.nearest (c * Binary64.one) 1⟩ := by
  unfold Binary64.ofDecimal
  split
  · rename_i hZero
    rw [hZero, Nat.zero_mul]
    rfl
  · rw [if_neg (by decide), if_neg (by omega), if_neg (by decide)]
    simp [Binary64.ofRatio]

theorem splitSign_of_digits {s : List Char} (h : s.all isDigit) : splitSign s = (false, s) := by
  unfold splitSign
  split
  · cases h
  · cases h
  · rfl

theorem IsNumeral.ne_nil {s : List Char} {n : Int} (h : IsNumeral s n) : s ≠ [] := by
  cases h with
  | unsigned hNonempty _ => exact hNonempty
  | minus _ _ => simp

theorem IsNumeral.trim_eq {s : List Char} {n : Int} (h : IsNumeral s n) : trim s = s := by
  refine trim_of_trimmed (trimmed_of_forall ?_)
  cases h with
  | unsigned _ hDigits => exact fun c hc => isBlank_of_isDigit (List.all_eq_true.mp hDigits c hc)
  | minus _ hDigits =>
    refine List.forall_mem_cons.mpr ⟨by decide, fun c hc => ?_⟩
    exact isBlank_of_isDigit (List.all_eq_true.mp hDigits c hc)

theorem binary64?_of_digits {digits : List Char} (hNonempty : digits ≠ [])
    (hDigits : digits.all isDigit) :
    binary64? digits = some ⟨false, Binary64.nearest (ofDigits digits * Binary64.one) 1⟩ := by
  rw [binary64?, splitSign_of_digits hDigits]
  simp only [decimalParts?_of_digits hNonempty hDigits, ofDecimal_zero]

theorem binary64?_of_minus {digits : List Char} (hNonempty : digits ≠ [])
    (hDigits : digits.all isDigit) :
    binary64? ('-' :: digits) = some ⟨true, Binary64.nearest (ofDigits digits * Binary64.one) 1⟩ := by
  simp only [binary64?, splitSign, decimalParts?_of_digits hNonempty hDigits, ofDecimal_zero]

/-- The number of a numeral is that of its integer, but for the sign of a zero. -/
theorem binary64?_of_isNumeral {s : List Char} {n : Int} (h : IsNumeral s n) :
    ∃ x, binary64? s = some x ∧ x.magnitude = (Binary64.ofInt n).magnitude ∧
      x.signedUnits = (Binary64.ofInt n).signedUnits := by
  cases h with
  | unsigned hNonempty hDigits =>
    refine ⟨Binary64.ofNat (ofDigits s), binary64?_of_digits hNonempty hDigits, ?_⟩
    rw [Binary64.ofNat_eq_ofInt]
    exact ⟨rfl, rfl⟩
  | @minus digits hNonempty hDigits =>
    have hMagnitude : (Binary64.ofInt (-ofDigits digits)).magnitude =
        Binary64.nearest (ofDigits digits * Binary64.one) 1 := by
      rw [Binary64.magnitude_ofInt, Int.natAbs_neg, Int.natAbs_natCast]
    refine ⟨_, binary64?_of_minus hNonempty hDigits, hMagnitude.symm, ?_⟩
    rw [Binary64.signedUnits, Binary64.signedUnits, Binary64.negative_ofInt, Binary64.units,
      Binary64.units, hMagnitude]
    rcases Nat.eq_zero_or_pos (ofDigits digits) with hZero | hPos
    · rw [hZero, Nat.zero_mul]
      decide
    · rw [if_pos rfl, if_pos (by simp; omega)]

end Text

namespace Value

/-- The item at an integer index; `-1` is the last item. -/
def itemAt? (items : List Value) : Int → Option Value
  | .ofNat k => items[k]?
  | .negSucc k => items.reverse[k]?

theorem itemAt?_of_nonneg {items : List Value} {n : Int} (h : 0 ≤ n) :
    itemAt? items n = items[n.toNat]? := by
  obtain ⟨k, rfl⟩ := Int.eq_ofNat_of_zero_le h
  rfl

theorem itemAt?_of_neg {items : List Value} {n : Int} (h : n < 0) :
    itemAt? items n =
      if n + items.length < 0 then none else items[(n + items.length).toNat]? := by
  obtain ⟨k, rfl⟩ := Int.eq_negSucc_of_lt_zero h
  rw [itemAt?]
  by_cases hShort : k < items.length
  · rw [List.getElem?_reverse hShort, if_neg (by omega)]
    congr 1
    omega
  · rw [if_pos (by omega)]
    exact List.getElem?_eq_none (by rw [List.length_reverse]; omega)

theorem itemAt?_eq_none {items : List Value} {n : Int} (h : items.length < n.natAbs) :
    itemAt? items n = none := by
  rcases Int.lt_or_le n 0 with hn | hn
  · rw [itemAt?_of_neg hn, if_pos (by omega)]
  · rw [itemAt?_of_nonneg hn]
    exact List.getElem?_eq_none (by omega)

theorem elementAt?_eq {items : List Value} {x : Binary64} (h : x.isWhole = true)
    (hLength : items.length ≤ 2 ^ 53) : elementAt? items x = itemAt? items x.truncate := by
  have hSign := Binary64.isNegative_of_isWhole h
  rw [elementAt?, h]
  by_cases hNegative : x.truncate < 0
  · have hSum := Binary64.add_ofNat h hLength
    have hPlace := Binary64.isNegative_ofInt (x.truncate + items.length)
    rw [itemAt?_of_neg hNegative]
    simp only [hSign, hNegative, decide_true, if_true, hSum, hPlace]
    by_cases hShort : x.truncate + items.length < 0
    · simp [hShort]
    · have hExact : (Binary64.ofInt (x.truncate + items.length)).truncate =
          x.truncate + items.length := by
        rw [Binary64.truncate_ofInt (Binary64.isFinite_ofInt (by omega)),
          Binary64.rounded_of_natAbs_le (by omega)]
      simp [hShort, hExact]
  · rw [itemAt?_of_nonneg (by omega)]
    simp [hSign, hNegative]

/-- The whole number that a key denotes. -/
def wholeNumber? (key : String) : Option Int :=
  ((string key).index?.filter (·.isWhole)).map (·.truncate)

@[simp]
theorem elementAt?_of_not_isWhole {x : Binary64} (h : x.isWhole = false) (items : List Value) :
    elementAt? items x = none := by
  simp [elementAt?, h]

/-- What a key picks of a value: null unless the value has something there. -/
def follow (v : Value) (key : String) : Value :=
  if v.isTruthy then
    match v with
    | object fields => (fields.lookup key).getD null
    | array items => ((string key).index?.bind (elementAt? items)).getD null
    | _ => null
  else null

theorem get_string (v : Value) {key : String} (h : key ≠ "") :
    v.get (string key) = v.follow key := by
  have hKey : (string key).isTruthy = true := by simp [isTruthy, h]
  rw [get, hKey]
  unfold follow
  cases hTruthy : v.isTruthy with
  | false => rfl
  | true => cases v <;> rfl

theorem follow_array {items : List Value} (hLength : items.length ≤ 2 ^ 53) (key : String) :
    (array items).follow key = ((wholeNumber? key).bind (itemAt? items)).getD null := by
  change ((string key).index?.bind (elementAt? items)).getD null = _
  rw [wholeNumber?]
  cases (string key).index? with
  | none => rfl
  | some x =>
    cases hWhole : x.isWhole with
    | false => simp [Option.filter, hWhole]
    | true => simp [elementAt?_eq hWhole hLength, Option.filter, hWhole]

theorem itemAt?_rounded {items : List Value} (hLength : items.length < 2 ^ 53) (n : Int) :
    itemAt? items (Binary64.rounded n) = itemAt? items n := by
  by_cases hExact : n.natAbs ≤ 2 ^ 53
  · rw [Binary64.rounded_of_natAbs_le hExact]
  · -- Both integers lie outside of the array.
    have hLarge : 2 ^ 53 ≤ Binary64.significant n.natAbs :=
      Binary64.le_significant (Nat.le_refl _) (by omega)
    have hRounded : items.length < (Binary64.rounded n).natAbs := by
      unfold Binary64.rounded
      split <;> omega
    rw [itemAt?_eq_none hRounded, itemAt?_eq_none (by omega)]

theorem elementAt?_of_signedUnits {items : List Value} (hLength : items.length < 2 ^ 53)
    {x : Binary64} {n : Int} (hMagnitude : x.magnitude = (Binary64.ofInt n).magnitude)
    (hUnits : x.signedUnits = (Binary64.ofInt n).signedUnits) :
    elementAt? items x = itemAt? items n := by
  have hFinite : x.isFinite = (Binary64.ofInt n).isFinite := by
    rw [Binary64.isFinite, Binary64.isFinite, hMagnitude]
  cases hInt : (Binary64.ofInt n).isFinite with
  | true =>
    rw [Binary64.signedUnits_ofInt hInt] at hUnits
    have hWhole : x.isWhole = true := Binary64.isWhole_iff.mpr ⟨hFinite.trans hInt, _, hUnits⟩
    rw [elementAt?_eq hWhole (Nat.le_of_lt hLength), Binary64.truncate_of_signedUnits hUnits,
      itemAt?_rounded hLength]
  | false =>
    -- An integer without a finite number lies outside of every array.
    have hWhole : x.isWhole = false := by rw [Binary64.isWhole, hFinite, hInt, Bool.false_and]
    have hLarge := Binary64.le_natAbs_of_not_isFinite_ofInt hInt
    rw [elementAt?_of_not_isWhole hWhole, itemAt?_eq_none (by omega)]

theorem filter_isFinite_bind (items : List Value) (x : Binary64) :
    ((some x).filter (·.isFinite)).bind (elementAt? items) = elementAt? items x := by
  cases hFinite : x.isFinite with
  | true => simp [Option.filter, hFinite]
  | false =>
    have hWhole : x.isWhole = false := by simp [Binary64.isWhole, hFinite]
    simp [Option.filter, hFinite, hWhole]

/-- The numeral of an integer picks the item at that integer, however many digits it has. -/
theorem follow_of_isNumeral {items : List Value} (hLength : items.length < 2 ^ 53) {key : String}
    {n : Int} (h : Text.IsNumeral key.toList n) :
    (array items).follow key = (itemAt? items n).getD null := by
  obtain ⟨x, hNumber, hMagnitude, hUnits⟩ := Text.binary64?_of_isNumeral h
  have hIndex : (string key).index? = (some x).filter (·.isFinite) := by
    simp only [index?, h.trim_eq, if_neg h.ne_nil, hNumber]
  change ((string key).index?.bind (elementAt? items)).getD null = _
  rw [hIndex, filter_isFinite_bind, elementAt?_of_signedUnits hLength hMagnitude hUnits]

end Value

/-! ## Numbers as keys -/

/-- The integer that a number stands for; the units of a double have to make up whole ones. -/
inductive Number.Denotes : Number → Int → Prop
  | integer (n : Int) : Denotes (.integer n) n
  | double {x : Binary64} {n : Int} (hFinite : x.isFinite = true)
    (hUnits : x.signedUnits = n * Binary64.one) : Denotes (.double x) n

theorem Number.not_denotes_of_emod {x : Binary64} (h : x.signedUnits % Binary64.one ≠ 0) (n : Int) :
    ¬ (Number.double x).Denotes n := by
  intro hDenotes
  cases hDenotes with
  | double _ hUnits =>
    rw [hUnits] at h
    exact h (Int.mul_emod_left n Binary64.one)

namespace Value

variable {items : List Value}

theorem lookup?_number_array (key : Number) (items : List Value) :
    lookup? (number key) (array items) = elementAt? items key.toBinary64 := rfl

theorem lookup?_of_denotes (hLength : items.length < 2 ^ 53) {key : Number} {n : Int}
    (h : key.Denotes n) : lookup? (number key) (array items) = itemAt? items n := by
  rw [lookup?_number_array]
  cases h with
  | integer n => exact elementAt?_of_signedUnits hLength rfl rfl
  | @double x n hFinite hUnits =>
    have hWhole : x.isWhole = true := Binary64.isWhole_iff.mpr ⟨hFinite, n, hUnits⟩
    rw [Number.toBinary64, elementAt?_eq hWhole (Nat.le_of_lt hLength),
      Binary64.truncate_of_signedUnits hUnits]

theorem lookup?_of_not_denotes {key : Number} (h : ∀ n, ¬ key.Denotes n) :
    lookup? (number key) (array items) = none := by
  rw [lookup?_number_array]
  cases key with
  | integer n => exact absurd (.integer n) (h n)
  | double x =>
    apply elementAt?_of_not_isWhole
    rw [Number.toBinary64, Bool.eq_false_iff]
    intro hWhole
    obtain ⟨hFinite, n, hUnits⟩ := Binary64.isWhole_iff.mp hWhole
    exact h n (.double hFinite hUnits)

/--
A number picks an item of an array just if it stands for an integer, in whichever form it is held:
the integers from zero on count from the beginning, and those below zero from the end.
-/
theorem lookup?_number (hLength : items.length < 2 ^ 53) (key : Number) :
    (∀ n : Int, key.Denotes n →
      (∀ (_ : 0 ≤ n) (_ : n < items.length),
        lookup? (number key) (array items) = some items[n.toNat]) ∧
      (∀ (_ : -(items.length : Int) ≤ n) (_ : n < 0),
        lookup? (number key) (array items) = some items[(items.length + n).toNat]) ∧
      (n < -(items.length : Int) ∨ items.length ≤ n →
        lookup? (number key) (array items) = none)) ∧
    ((∀ n : Int, ¬ key.Denotes n) → lookup? (number key) (array items) = none) := by
  refine ⟨fun n hKey => ?_, lookup?_of_not_denotes⟩
  rw [lookup?_of_denotes hLength hKey]
  refine ⟨fun hLow hHigh => ?_, fun hLow hHigh => ?_, fun hOutside => ?_⟩
  · rw [itemAt?_of_nonneg hLow]
    exact List.getElem?_eq_getElem _
  · rw [itemAt?_of_neg hHigh, if_neg (by omega), Int.add_comm]
    exact List.getElem?_eq_getElem _
  · rcases hOutside with hLow | hHigh
    · rw [itemAt?_of_neg (by omega), if_pos (by omega)]
    · rw [itemAt?_of_nonneg (by omega)]
      exact List.getElem?_eq_none (by omega)

/-- Both ends, a double, a negative zero, the largest integer there is, and one and a half. -/
theorem lookup?_number_ends :
    let items := [null, bool true, string "a"]
    let x : Binary64 := ⟨false, 1023 * 2 ^ 52 + 2 ^ 51⟩
    items.length < 2 ^ 53 ∧ (Number.double (.ofInt 2)).Denotes 2 ∧
      (Number.double ⟨true, 0⟩).Denotes 0 ∧ (∀ n, ¬ (Number.double x).Denotes n) ∧
      lookup? (number (.double (.ofInt 2))) (array items) = some (string "a") ∧
      lookup? (number (.double ⟨true, 0⟩)) (array items) = some null ∧
      lookup? (number (.integer (-3))) (array items) = some null ∧
      lookup? (number (.integer (-4))) (array items) = none ∧
      lookup? (number (.integer 18446744073709551615)) (array items) = none ∧
      lookup? (number (.double x)) (array items) = none := by
  intro items x
  have hLength : items.length < 2 ^ 53 := by decide
  have hTwo : (Number.double (.ofInt 2)).Denotes 2 := .double (by decide +kernel) (by decide +kernel)
  have hZero : (Number.double ⟨true, 0⟩).Denotes 0 := .double (by decide +kernel) (by decide +kernel)
  have hBroken : ∀ n, ¬ (Number.double x).Denotes n :=
    Number.not_denotes_of_emod (by decide +kernel)
  have hLookup (key : Number) := lookup?_number hLength key
  refine ⟨hLength, hTwo, hZero, hBroken, ?_, ?_, ?_, ?_, ?_, (hLookup _).2 hBroken⟩
  · exact ((hLookup _).1 2 hTwo).1 (by decide) (by decide)
  · exact ((hLookup _).1 0 hZero).1 (by decide) (by decide)
  · exact ((hLookup _).1 (-3) (.integer _)).2.1 (by decide) (by decide)
  · exact ((hLookup _).1 (-4) (.integer _)).2.2 (.inl (by decide))
  · exact ((hLookup _).1 18446744073709551615 (.integer _)).2.2 (.inr (by decide))

end Value

end Reshape
