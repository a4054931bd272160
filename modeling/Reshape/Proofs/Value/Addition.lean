import Reshape.Proofs.Value.Integers
import Reshape.Value.Coercion

/-!
# Adding integers

Two integers of 64 bits with sign are added as such if their sum is one, too. All other sums of
integers, Booleans and null are those of binary64 numbers, which are exact if the sum and both its
parts have no more than 53 significant bits.
-/

namespace Reshape

/-- The integer that a number stands for, in whichever form it is held. -/
def Number.whole? : Number → Option Int
  | .integer n => some n
  | .double x => if x.isWhole then some x.truncate else none

/-- The integer has no more than 53 significant bits. -/
def Binary64.Represents (n : Int) : Prop := rounded n = n

instance (n : Int) : Decidable (Binary64.Represents n) :=
  inferInstanceAs (Decidable (Binary64.rounded n = n))

namespace Value

open Binary64 (rounded Represents)

/-- What a value counts as where it is added to an integer: null as zero, and true as one. -/
inductive IsAddend : Value → Int → Prop
  | ofNull : IsAddend null 0
  | ofBool (b : Bool) : IsAddend (bool b) b.toNat
  | ofInteger {n : Int} (h : (integer n).WellFormed) : IsAddend (integer n) n

variable {a b : Value} {m n : Int}

theorem IsAddend.toBinary64_eq (h : IsAddend a m) : a.toBinary64 = .ofInt m := by
  cases h with
  | ofNull => decide +kernel
  | ofBool b => exact Binary64.ofNat_eq_ofInt b.toNat
  | ofInteger _ => rfl

theorem IsAddend.not_isTextual (h : IsAddend a m) : a.isTextual = false := by
  cases h <;> rfl

theorem IsAddend.natAbs_lt (h : IsAddend a m) : m.natAbs < 2 ^ 64 := by
  cases h with
  | ofNull => decide
  | ofBool b => cases b <;> decide
  | ofInteger h => exact natAbs_lt_of_wellFormed h

theorem IsAddend.signed64?_eq_some (h : IsAddend a m) {k : Int} (hk : a.signed64? = some k) :
    k = m := by
  cases h with
  | ofInteger _ => exact (Option.some.inj (Option.ite_none_right_eq_some.mp hk).2).symm
  | _ => cases hk

theorem integerSum?_eq_some {k : Int} (h : integerSum? a b = some k) :
    ∃ m n, a.signed64? = some m ∧ b.signed64? = some n ∧ k = m + n ∧ k < 2 ^ 63 := by
  unfold integerSum? at h
  split at h
  · rename_i m n hm hn
    obtain ⟨hRange, hSum⟩ := Option.ite_none_right_eq_some.mp h
    cases hSum
    exact ⟨m, n, hm, hn, rfl, hRange.2⟩
  · cases h

theorem ofBinary64_ofInt (h : (Binary64.ofInt n).isFinite = true) :
    ofBinary64 (.ofInt n) =
      if -2 ^ 63 ≤ rounded n ∧ rounded n < 2 ^ 63 then integer (rounded n)
      else number (.double (.ofInt n)) := by
  rw [ofBinary64, Number.ofBinary64?, Binary64.isWhole_ofInt h, Binary64.truncate_ofInt h, h]
  by_cases hRange : -2 ^ 63 ≤ rounded n ∧ rounded n < 2 ^ 63
  · rw [if_pos hRange, decide_eq_true hRange.1, decide_eq_true hRange.2]
    rfl
  · rw [if_neg hRange, Bool.true_and, ← Bool.decide_and, decide_eq_false hRange]
    rfl

theorem IsAddend.toBinary64_add (ha : IsAddend a m) (hb : IsAddend b n) :
    a.toBinary64.add b.toBinary64 = .ofInt (rounded m + rounded n) := by
  rw [ha.toBinary64_eq, hb.toBinary64_eq, Binary64.add_ofInt ha.natAbs_lt hb.natAbs_lt]

theorem IsAddend.add_of_none (ha : IsAddend a m) (hb : IsAddend b n)
    (hSum : integerSum? a b = none) : a.add b = ofBinary64 (a.toBinary64.add b.toBinary64) := by
  rw [add, ha.not_isTextual, hb.not_isTextual, hSum]
  simp only [Bool.or_self, Bool.false_eq_true, if_false]

/-! ## Integers of 64 bits with sign -/

theorem integerSum?_integer (hm : m < 2 ^ 63) (hn : n < 2 ^ 63) :
    integerSum? (integer m) (integer n) =
      if -2 ^ 63 ≤ m + n ∧ m + n < 2 ^ 63 then some (m + n) else none := by
  simp only [integerSum?, integer, signed64?, Number.signed64?, if_pos hm, if_pos hn]

theorem add_integer (hm : m < 2 ^ 63) (hn : n < 2 ^ 63) (hLow : -2 ^ 63 ≤ m + n)
    (hHigh : m + n < 2 ^ 63) : (integer m).add (integer n) = integer (m + n) := by
  have hSum := integerSum?_integer hm hn
  rw [if_pos ⟨hLow, hHigh⟩] at hSum
  have hText : ((integer m).isTextual || (integer n).isTextual) = false := rfl
  rw [add, hText, hSum]
  rfl

/-- Past the range the sum of the two doubles is taken, and stays a double. -/
theorem add_integer_of_le (ha : IsAddend (integer m) m) (hb : IsAddend (integer n) n)
    (hm : m < 2 ^ 63) (hn : n < 2 ^ 63) (hLarge : 2 ^ 63 ≤ m + n) :
    (integer m).add (integer n) =
      number (.double ((integer m).toBinary64.add (integer n).toBinary64)) := by
  have hSum := integerSum?_integer hm hn
  rw [if_neg (by omega)] at hSum
  have hTop : rounded (2 ^ 63) = 2 ^ 63 := by decide +kernel
  have hmTop : rounded m ≤ rounded (2 ^ 63) := Binary64.rounded_mono (by omega)
  have hnTop : rounded n ≤ rounded (2 ^ 63) := Binary64.rounded_mono (by omega)
  have hRounded := Binary64.le_rounded_add hm hn hLarge
  have hFinite : (Binary64.ofInt (rounded m + rounded n)).isFinite = true := by
    refine Binary64.isFinite_ofNat (n := (rounded m + rounded n).natAbs) (k := 65) ?_ (by decide)
    have hmSign := Binary64.rounded_neg_iff (n := m)
    have hnSign := Binary64.rounded_neg_iff (n := n)
    omega
  rw [ha.add_of_none hb hSum, ha.toBinary64_add hb, ofBinary64_ofInt hFinite, if_neg (by omega)]

/-! ## All addends -/

theorem IsAddend.add_eq (ha : IsAddend a m) (hb : IsAddend b n) (hm : Represents m)
    (hn : Represents n) (hSum : Represents (m + n)) (hLow : -2 ^ 63 ≤ m + n)
    (hHigh : m + n < 2 ^ 64) :
    a.add b = if m + n < 2 ^ 63 then integer (m + n) else number (.double (.ofInt (m + n))) := by
  cases hCase : integerSum? a b with
  | some k =>
    obtain ⟨m', n', hm', hn', rfl, hSmall⟩ := integerSum?_eq_some hCase
    obtain rfl := ha.signed64?_eq_some hm'
    obtain rfl := hb.signed64?_eq_some hn'
    rw [if_pos hSmall, add, ha.not_isTextual, hb.not_isTextual, hCase]
    rfl
  | none =>
    have hFinite : (Binary64.ofInt (m + n)).isFinite = true := Binary64.isFinite_ofInt (by omega)
    rw [ha.add_of_none hb hCase, ha.toBinary64_add hb, hm, hn, ofBinary64_ofInt hFinite, hSum]
    simp only [hLow, true_and]

/--
The sum of two integers below `2 ^ 63` is the integer itself as long as it is below `2 ^ 63`, and
the sum of their doubles from there on. Whatever the two parts are, their sum is exact if 53
significant bits are enough for it and for both of them, as they are up to `2 ^ 53`.
-/
theorem add_addends (ha : IsAddend a m) (hb : IsAddend b n) (hLow : -2 ^ 63 ≤ m + n)
    (hHigh : m + n < 2 ^ 64) :
    (a = integer m → b = integer n → m < 2 ^ 63 → n < 2 ^ 63 →
      a.add b = if m + n < 2 ^ 63 then integer (m + n)
        else number (.double (a.toBinary64.add b.toBinary64))) ∧
    (Represents m → Represents n → Represents (m + n) →
      (m + n < 2 ^ 63 → a.add b = integer (m + n)) ∧
      (2 ^ 63 ≤ m + n → ∃ x, a.add b = number (.double x) ∧
        (Number.double x).whole? = some (m + n))) ∧
    ∀ k : Int, k.natAbs ≤ 2 ^ 53 → Represents k := by
  refine ⟨?_, fun hm hn hSum => ?_, fun k => Binary64.rounded_of_natAbs_le⟩
  · rintro rfl rfl hm hn
    split
    · rename_i hSmall
      exact add_integer hm hn hLow hSmall
    · rename_i hLarge
      exact add_integer_of_le ha hb hm hn (Int.not_lt.mp hLarge)
  · have hAdd := ha.add_eq hb hm hn hSum hLow hHigh
    refine ⟨fun hSmall => by rwa [if_pos hSmall] at hAdd, fun hLarge => ?_⟩
    rw [if_neg (Int.not_lt.mpr hLarge)] at hAdd
    have hFinite : (Binary64.ofInt (m + n)).isFinite = true := Binary64.isFinite_ofInt (by omega)
    refine ⟨.ofInt (m + n), hAdd, ?_⟩
    simpa [Number.whole?, hFinite, Represents] using hSum

/-- A part and a sum past `2 ^ 63` that 53 bits are enough for, and a sum that needs 64 bits. -/
theorem add_addends_large :
    let m : Int := 18446744073709549568
    let n : Int := -9223372036854775808
    let top : Int := 9223372036854775807
    IsAddend (integer m) m ∧ IsAddend (integer n) n ∧ IsAddend (integer top) top ∧
      (integer m).add (integer n) = integer 9223372036854773760 ∧
      (∃ x, (integer m).add null = number (.double x) ∧ (Number.double x).whole? = some m) ∧
      (integer top).add (integer top) =
        number (.double ((integer top).toBinary64.add (integer top).toBinary64)) := by
  intro m n top
  have hm : IsAddend (integer m) m :=
    .ofInteger (by simp [integer, m])
  have hn : IsAddend (integer n) n :=
    .ofInteger (by simp [integer, n])
  have hTop : IsAddend (integer top) top :=
    .ofInteger (by simp [integer, top])
  have hRepresents : Represents m := by decide +kernel
  have hRepresents' : Represents n := by decide +kernel
  have hSum : Represents (m + n) := by decide +kernel
  refine ⟨hm, hn, hTop, ?_, ?_, ?_⟩
  · have hAdd := (add_addends hm hn (by decide) (by decide)).2.1 hRepresents hRepresents' hSum
    exact hAdd.1 (by decide)
  · have hAdd := (add_addends hm .ofNull (by decide) (by decide)).2.1 hRepresents rfl hRepresents
    exact hAdd.2 (by decide)
  · have hAdd := (add_addends hTop hTop (by decide) (by decide)).1 rfl rfl (by decide) (by decide)
    rwa [if_neg (by decide)] at hAdd

/-- Half of the sum is an integer of 64 bits with sign, but the sum is not one any more. -/
theorem add_past_signed_range :
    let m : Int := 4611686018427387904
    IsAddend (integer m) m ∧ m + m < 2 ^ 64 ∧
      (integer m).add (integer m) = number (.double (.ofInt (m + m))) ∧
      (integer m).add (integer m) ≠ integer (m + m) := by
  intro m
  have hm : IsAddend (integer m) m :=
    .ofInteger (by simp [integer, m])
  have hRepresents : Represents m := by decide +kernel
  have hSum : Represents (m + m) := by decide +kernel
  have hAdd := hm.add_eq hm hRepresents hRepresents hSum (by decide) (by decide)
  rw [if_neg (by decide)] at hAdd
  refine ⟨hm, by decide, hAdd, ?_⟩
  rw [hAdd]
  simp [integer]

end Value

end Reshape
