import Reshape.Proofs.Binary64.Rounding

/-!
# Integers as binary64 numbers

The number nearest to an integer of 64 bits stands for that integer to 53 significant bits. So two
integers have the same number exactly if they agree in these, and integers up to `2 ^ 53` keep their
value.
-/

namespace Reshape.Binary64

/-- An integer to 53 significant bits. -/
def rounded (n : Int) : Int := if n < 0 then -significant n.natAbs else significant n.natAbs

theorem rounded_of_natAbs_le {n : Int} (h : n.natAbs ≤ 2 ^ 53) : rounded n = n := by
  rw [rounded, significant_of_le h]
  split <;> omega

@[simp]
theorem rounded_neg_iff {n : Int} : rounded n < 0 ↔ n < 0 := by
  unfold rounded
  constructor
  · intro h
    split at h <;> omega
  · intro h
    have hPos := le_significant (n := n.natAbs) (k := 1) (by decide) (by omega)
    rw [if_pos h]
    omega

theorem rounded_mono {m n : Int} (h : m ≤ n) : rounded m ≤ rounded n := by
  unfold rounded
  by_cases hm : m < 0 <;> by_cases hn : n < 0
  · have hMagnitude : significant n.natAbs ≤ significant m.natAbs := significant_mono (by omega)
    simp only [hm, hn, if_true]
    omega
  · simp only [hm, hn, if_true, if_false]
    omega
  · omega
  · have hMagnitude : significant m.natAbs ≤ significant n.natAbs := significant_mono (by omega)
    simp only [hm, hn, if_false]
    omega

/-- Where a sum of integers below `2 ^ 63` is past them, that of their roundings is, once rounded. -/
theorem le_rounded_add {m n : Int} (hm : m < 2 ^ 63) (hn : n < 2 ^ 63) (hSum : 2 ^ 63 ≤ m + n) :
    2 ^ 63 ≤ rounded (rounded m + rounded n) := by
  have hParts : 2 ^ 63 - 2 ^ 9 ≤ rounded m + rounded n := by
    unfold rounded
    rw [if_neg (by omega), if_neg (by omega)]
    rcases Nat.le_total n.natAbs m.natAbs with hSmaller | hSmaller
    · have h := le_significant_add (by omega) hSmaller (by omega)
      omega
    · have h := le_significant_add (by omega) hSmaller (by omega)
      omega
  calc 2 ^ 63 = rounded (2 ^ 63 - 2 ^ 9) := by decide +kernel
    _ ≤ rounded (rounded m + rounded n) := rounded_mono hParts

/-! ## The number nearest to an integer -/

theorem one_pos : 0 < one := by decide +kernel

theorem intCast_one_pos : (0 : Int) < one := Int.natCast_pos.mpr one_pos

theorem mul_one_neg_iff {k : Int} : k * one < 0 ↔ k < 0 := by
  have h := Int.mul_lt_mul_right (b := k) (c := 0) intCast_one_pos
  rwa [Int.zero_mul] at h

variable {m n : Int}

theorem magnitude_ofInt (n : Int) : (ofInt n).magnitude = nearest (n.natAbs * one) 1 := rfl

@[simp]
theorem negative_ofInt (n : Int) : (ofInt n).negative = decide (n < 0) := rfl

@[simp]
theorem isNaN_ofInt (n : Int) : (ofInt n).isNaN = false := by
  have hBound := nearest_le_infinityMagnitude (n.natAbs * one) 1
  exact decide_eq_false (by rw [magnitude_ofInt]; omega)

theorem magnitude_ofInt_pos (h : n ≠ 0) : 0 < (ofInt n).magnitude := by
  have hUnit : one ≤ n.natAbs * one := Nat.le_mul_of_pos_left one (by omega)
  calc 0 < nearest one 1 := by decide +kernel
    _ ≤ (ofInt n).magnitude := nearest_mono hUnit

@[simp]
theorem isNegative_ofInt (n : Int) : (ofInt n).isNegative = decide (n < 0) := by
  by_cases h : n < 0
  · have hPos := magnitude_ofInt_pos (n := n) (by omega)
    simp [isNegative, isZero, h]
    omega
  · simp [isNegative, h]

theorem isFinite_ofInt (h : n.natAbs < 2 ^ 64) : (ofInt n).isFinite = true :=
  isFinite_ofNat h (by decide)

theorem le_natAbs_of_not_isFinite_ofInt (h : (ofInt n).isFinite = false) : 2 ^ 64 ≤ n.natAbs := by
  by_contra hSmall
  rw [isFinite_ofInt (by omega)] at h
  cases h

theorem units_ofInt (h : (ofInt n).isFinite = true) :
    (ofInt n).units = significant n.natAbs * one := by
  have hFinite : nearest (n.natAbs * one) 1 < infinityMagnitude := of_decide_eq_true h
  rw [units, magnitude_ofInt, unitsOf_nearest hFinite]
  exact significant_mul_two_pow n.natAbs 1074

theorem signedUnits_ofInt (h : (ofInt n).isFinite = true) :
    (ofInt n).signedUnits = rounded n * one := by
  rw [signedUnits, negative_ofInt, units_ofInt h, rounded]
  by_cases hNegative : n < 0
  · rw [if_pos (decide_eq_true hNegative), if_pos hNegative, Int.natCast_mul, Int.neg_mul]
  · rw [decide_eq_false hNegative, if_neg hNegative, Int.natCast_mul]
    rfl

/-! ## Equality and order -/

theorem orderKey_injective : Function.Injective orderKey := by
  rintro ⟨negative, magnitude⟩ ⟨negative', magnitude'⟩ h
  unfold orderKey at h
  cases negative <;> cases negative' <;> simp at h ⊢ <;> omega

theorem magnitude_ofInt_le_iff (hm : m.natAbs < 2 ^ 64) (hn : n.natAbs < 2 ^ 64) :
    (ofInt m).magnitude ≤ (ofInt n).magnitude ↔ significant m.natAbs ≤ significant n.natAbs := by
  rw [← strictMono_unitsOf.le_iff_le]
  change (ofInt m).units ≤ (ofInt n).units ↔ _
  rw [units_ofInt (isFinite_ofInt hm), units_ofInt (isFinite_ofInt hn)]
  exact Nat.mul_le_mul_right_iff one_pos

theorem orderKey_ofInt (n : Int) : (ofInt n).orderKey =
    if n < 0 then -((ofInt n).magnitude : Int) - 1 else (ofInt n).magnitude := by
  simp [orderKey]

theorem orderKey_ofInt_le_iff (hm : m.natAbs < 2 ^ 64) (hn : n.natAbs < 2 ^ 64) :
    (ofInt m).orderKey ≤ (ofInt n).orderKey ↔ rounded m ≤ rounded n := by
  have hMagnitude := magnitude_ofInt_le_iff hm hn
  have hReversed := magnitude_ofInt_le_iff hn hm
  have hSign := rounded_neg_iff (n := m)
  have hSign' := rounded_neg_iff (n := n)
  rw [orderKey_ofInt, orderKey_ofInt]
  unfold rounded at hSign hSign' ⊢
  by_cases hNegative : m < 0 <;> by_cases hNegative' : n < 0 <;>
    simp only [hNegative, hNegative', if_true, if_false, iff_true, iff_false] at hSign hSign' ⊢ <;>
    omega

theorem equal_ofInt_iff_eq : (ofInt m).equal (ofInt n) = true ↔ ofInt m = ofInt n := by
  constructor
  · intro h
    by_cases hEq : ofInt m = ofInt n
    · exact hEq
    · -- Numbers of magnitude zero come from zero only.
      obtain ⟨hm, hn⟩ : (ofInt m).magnitude = 0 ∧ (ofInt n).magnitude = 0 := by
        simpa [equal, hEq, isZero] using h
      have hZero : m = 0 := by
        by_contra hNonzero
        exact Nat.ne_of_gt (magnitude_ofInt_pos hNonzero) hm
      have hZero' : n = 0 := by
        by_contra hNonzero
        exact Nat.ne_of_gt (magnitude_ofInt_pos hNonzero) hn
      rw [hZero, hZero']
  · intro h
    simp [equal, h]

theorem equal_ofInt_iff (hm : m.natAbs < 2 ^ 64) (hn : n.natAbs < 2 ^ 64) :
    (ofInt m).equal (ofInt n) = true ↔ rounded m = rounded n := by
  rw [equal_ofInt_iff_eq, ← orderKey_injective.eq_iff]
  have hLe := orderKey_ofInt_le_iff hm hn
  have hGe := orderKey_ofInt_le_iff hn hm
  omega

/-! ## Whole numbers -/

theorem signedUnits_of_isWhole {x : Binary64} (h : x.isWhole = true) :
    x.signedUnits = x.truncate * one := by
  have hWhole : x.units % one = 0 := by simpa [isWhole] using (Bool.and_eq_true_iff.mp h).2
  refine (Int.tdiv_mul_cancel ?_).symm
  have hDvd : (one : Int) ∣ (x.units : Int) :=
    Int.natCast_dvd_natCast.mpr (Nat.dvd_of_mod_eq_zero hWhole)
  unfold signedUnits
  split
  · exact Int.dvd_neg.mpr hDvd
  · exact hDvd

theorem truncate_of_signedUnits {x : Binary64} (h : x.signedUnits = n * one) : x.truncate = n := by
  rw [truncate, h]
  exact Int.mul_tdiv_cancel n (Int.ne_of_gt intCast_one_pos)

theorem isWhole_iff {x : Binary64} :
    x.isWhole = true ↔ x.isFinite = true ∧ ∃ n : Int, x.signedUnits = n * one := by
  constructor
  · intro h
    exact ⟨(Bool.and_eq_true_iff.mp h).1, x.truncate, signedUnits_of_isWhole h⟩
  · rintro ⟨hFinite, n, hUnits⟩
    have hMagnitude : x.units = n.natAbs * one := by
      have hAbs : x.signedUnits.natAbs = x.units := by
        unfold signedUnits
        split <;> simp
      rw [← hAbs, hUnits, Int.natAbs_mul, Int.natAbs_natCast]
    rw [isWhole, hFinite, hMagnitude]
    simp

theorem isNegative_of_isWhole {x : Binary64} (h : x.isWhole = true) :
    x.isNegative = decide (x.truncate < 0) := by
  have hFinite : x.magnitude < infinityMagnitude :=
    of_decide_eq_true (Bool.and_eq_true_iff.mp h).1
  have hZero : 0 < x.units ↔ 0 < x.magnitude := strictMono_unitsOf.lt_iff_lt (a := 0)
  rw [Bool.eq_iff_iff, decide_eq_true_iff, ← mul_one_neg_iff, ← signedUnits_of_isWhole h]
  unfold isNegative isNaN isZero signedUnits
  by_cases hNegative : x.negative = true
  · simp [hNegative]
    omega
  · simp [hNegative]

@[simp]
theorem isWhole_ofInt (h : (ofInt n).isFinite = true) : (ofInt n).isWhole = true := by
  rw [isWhole, h, units_ofInt h]
  simp

@[simp]
theorem truncate_ofInt (h : (ofInt n).isFinite = true) : (ofInt n).truncate = rounded n :=
  truncate_of_signedUnits (signedUnits_ofInt h)

theorem ofNat_eq_ofInt (k : Nat) : ofNat k = ofInt k := by
  have hSign : ¬ (k : Int) < 0 := by omega
  simp [ofNat, ofInt, hSign]

/-- The sum of two whole numbers is rounded once; a sum of zero takes no sign from one of them. -/
theorem add_of_isWhole {x y : Binary64} (hx : x.isWhole = true) (hy : y.isWhole = true)
    (hSign : x.truncate + y.truncate = 0 → (x.negative && y.negative) = false) :
    x.add y = ofInt (x.truncate + y.truncate) := by
  have hSum : x.signedUnits + y.signedUnits = (x.truncate + y.truncate) * one := by
    rw [signedUnits_of_isWhole hx, signedUnits_of_isWhole hy, Int.add_mul]
  rw [add]
  simp only [hSum]
  by_cases hZero : x.truncate + y.truncate = 0
  · rw [hSign hZero, hZero, Int.zero_mul, if_pos rfl]
    decide +kernel
  · have hNonzero : (x.truncate + y.truncate) * (one : Int) ≠ 0 :=
      Int.mul_ne_zero hZero (Int.ne_of_gt intCast_one_pos)
    rw [if_neg hNonzero, ofInt, ofRatio, Int.natAbs_mul, Int.natAbs_natCast]
    simp only [mul_one_neg_iff]

/-- A whole number and a count that has a number of its own add up to the number of their sum. -/
theorem add_ofNat {x : Binary64} {k : Nat} (h : x.isWhole = true) (hk : k ≤ 2 ^ 53) :
    x.add (ofNat k) = ofInt (x.truncate + k) := by
  have hFinite : (ofInt k).isFinite = true := isFinite_ofInt (by omega)
  have hCount : (ofInt k).truncate = k := by
    rw [truncate_ofInt hFinite, rounded_of_natAbs_le (by omega)]
  have hSign : (ofInt k).negative = false := by simp
  rw [ofNat_eq_ofInt, add_of_isWhole h (isWhole_ofInt hFinite), hCount]
  intro _
  rw [hSign, Bool.and_false]

theorem add_ofInt (hm : m.natAbs < 2 ^ 64) (hn : n.natAbs < 2 ^ 64) :
    (ofInt m).add (ofInt n) = ofInt (rounded m + rounded n) := by
  have hFinite := isFinite_ofInt hm
  have hFinite' := isFinite_ofInt hn
  rw [← truncate_ofInt hFinite, ← truncate_ofInt hFinite']
  refine add_of_isWhole (isWhole_ofInt hFinite) (isWhole_ofInt hFinite') fun hZero => ?_
  -- Two negative numbers do not add up to zero.
  rw [truncate_ofInt hFinite, truncate_ofInt hFinite'] at hZero
  have hSign := rounded_neg_iff (n := m)
  have hSign' := rounded_neg_iff (n := n)
  simp only [negative_ofInt, Bool.and_eq_false_iff, decide_eq_false_iff_not]
  omega

end Reshape.Binary64
