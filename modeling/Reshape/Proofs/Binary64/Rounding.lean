import Mathlib.Order.Monotone.Basic
import Reshape.Proofs.Binary64.Finite

/-!
# Rounding

A rounding keeps 53 significant bits. It keeps the order of numbers, leaves every number that has no
more bits as it is, and does not depend on the unit in which numbers are counted.
-/

namespace Reshape.Binary64

/-- A number to 53 significant bits, a tie going to the even last bit. -/
def significant (n : Nat) : Nat :=
  roundHalfEven n (2 ^ (Nat.log2 n - 52)) * 2 ^ (Nat.log2 n - 52)

theorem div_le_roundHalfEven (num den : Nat) : num / den ≤ roundHalfEven num den := by
  unfold roundHalfEven
  simp only
  split
  · omega
  · split <;> omega

theorem roundHalfEven_mul_right (num den : Nat) {k : Nat} (hk : 0 < k) :
    roundHalfEven (num * k) (den * k) = roundHalfEven num den := by
  have hTwice : 2 * (num % den * k) = 2 * (num % den) * k := (Nat.mul_assoc _ _ _).symm
  simp only [roundHalfEven, Nat.mul_div_mul_right _ _ hk, Nat.mul_mod_mul_right, hTwice,
    Nat.mul_lt_mul_right hk]

theorem roundHalfEven_of_dvd {num den : Nat} (hDen : 0 < den) (h : den ∣ num) :
    roundHalfEven num den * den = num := by
  have hRemainder : num % den = 0 := Nat.mod_eq_zero_of_dvd h
  simp [roundHalfEven, hRemainder, hDen, Nat.div_mul_cancel h]

/-- A number is rounded down by half of the last place at most. -/
theorem le_roundHalfEven {den : Nat} (hDen : 0 < den) (num : Nat) :
    2 * num ≤ 2 * (roundHalfEven num den * den) + den := by
  have hParts := Nat.div_add_mod' num den
  have hRemainder := Nat.mod_lt num hDen
  have hUp : (num / den + 1) * den = num / den * den + den := Nat.succ_mul _ _
  unfold roundHalfEven
  simp only
  split
  · omega
  · split
    · omega
    · have hTie : num / den * den ≤ (num / den + num / den % 2) * den :=
        Nat.mul_le_mul_right den (Nat.le_add_right _ _)
      omega

theorem roundHalfEven_mono {a b : Nat} (h : a ≤ b) (den : Nat) :
    roundHalfEven a den ≤ roundHalfEven b den := by
  have hQuotient : a / den ≤ b / den := Nat.div_le_div_right h
  rcases Nat.lt_or_eq_of_le hQuotient with hLt | hEq
  · calc roundHalfEven a den ≤ a / den + 1 := roundHalfEven_le a den
      _ ≤ b / den := hLt
      _ ≤ roundHalfEven b den := div_le_roundHalfEven b den
  · have hRemainder : a % den ≤ b % den := by
      have ha := Nat.div_add_mod a den
      have hb := Nat.div_add_mod b den
      rw [hEq] at ha
      omega
    unfold roundHalfEven
    simp only [hEq]
    split <;> split <;> (try split) <;> (try split) <;> omega

/-! ## The significand -/

theorem le_div_shift {n : Nat} (h : 52 ≤ Nat.log2 n) : 2 ^ 52 ≤ n / 2 ^ (Nat.log2 n - 52) := by
  have hNonzero : n ≠ 0 := by
    rintro rfl
    simp [Nat.log2_zero] at h
  rw [Nat.le_div_iff_mul_le (Nat.two_pow_pos _), ← Nat.pow_add]
  calc 2 ^ (52 + (Nat.log2 n - 52)) = 2 ^ Nat.log2 n := by rw [Nat.add_sub_cancel' h]
    _ ≤ n := Nat.log2_self_le hNonzero

theorem significand_le (n : Nat) : roundHalfEven n (2 ^ (Nat.log2 n - 52)) ≤ 2 ^ 53 :=
  Nat.le_trans (roundHalfEven_le n _) (div_shift_lt n)

theorem le_significand {n : Nat} (h : 52 ≤ Nat.log2 n) :
    2 ^ 52 ≤ roundHalfEven n (2 ^ (Nat.log2 n - 52)) :=
  Nat.le_trans (le_div_shift h) (div_le_roundHalfEven n _)

theorem significant_of_dvd {n : Nat} (h : 2 ^ (Nat.log2 n - 52) ∣ n) : significant n = n :=
  roundHalfEven_of_dvd (Nat.two_pow_pos _) h

theorem log2_le_log2 {a b : Nat} (h : a ≤ b) : Nat.log2 a ≤ Nat.log2 b := by
  rcases Nat.eq_zero_or_pos a with rfl | hPos
  · simp [Nat.log2_zero]
  · rw [Nat.le_log2 (by omega)]
    exact Nat.le_trans (Nat.log2_self_le (by omega)) h

theorem significant_of_le {n : Nat} (h : n ≤ 2 ^ 53) : significant n = n := by
  have hShift : Nat.log2 n - 52 ≤ 1 := by
    have hLog := log2_le_log2 h
    rw [Nat.log2_two_pow] at hLog
    omega
  apply significant_of_dvd
  rcases Nat.lt_or_eq_of_le h with hLt | rfl
  · have hLog : Nat.log2 n < 53 := by
      rcases Nat.eq_zero_or_pos n with rfl | hPos
      · simp [Nat.log2_zero]
      · exact (Nat.log2_lt (by omega)).mpr hLt
    rw [show Nat.log2 n - 52 = 0 by omega]
    exact Nat.one_dvd n
  · exact Nat.pow_dvd_pow 2 (Nat.le_trans hShift (by decide))

theorem log2_mul_two_pow {n : Nat} (h : n ≠ 0) (k : Nat) :
    Nat.log2 (n * 2 ^ k) = Nat.log2 n + k := by
  have hPos := Nat.two_pow_pos k
  rw [Nat.log2_eq_iff (Nat.mul_ne_zero h (by omega))]
  constructor
  · rw [Nat.pow_add]
    exact Nat.mul_le_mul_right _ (Nat.log2_self_le h)
  · rw [Nat.add_right_comm]
    exact mul_two_pow_lt Nat.lt_log2_self k

/-- A coarser unit divides what it counts, so it is no matter whether one rounds before or after. -/
theorem significant_mul_two_pow (n k : Nat) : significant (n * 2 ^ k) = significant n * 2 ^ k := by
  rcases Nat.eq_zero_or_pos n with rfl | hPos
  · simp [significant, roundHalfEven]
  have hLog := log2_mul_two_pow (by omega : n ≠ 0) k
  by_cases hWide : 52 ≤ Nat.log2 n
  · have hShift : Nat.log2 (n * 2 ^ k) - 52 = Nat.log2 n - 52 + k := by omega
    rw [significant, significant, hShift, Nat.pow_add,
      roundHalfEven_mul_right _ _ (Nat.two_pow_pos k), Nat.mul_assoc]
  · have hSmall : n ≤ 2 ^ 53 := by
      have hLt : n < 2 ^ (Nat.log2 n + 1) := Nat.lt_log2_self
      have hPow : 2 ^ (Nat.log2 n + 1) ≤ 2 ^ 53 := Nat.pow_le_pow_right (by decide) (by omega)
      omega
    rw [significant_of_le hSmall]
    refine significant_of_dvd (Nat.dvd_mul_left_of_dvd (Nat.pow_dvd_pow 2 ?_) n)
    omega

/-! ## Magnitudes -/

/-- The magnitude that a number of units is rounded to if no magnitude is the last one. -/
def unbounded (num : Nat) : Nat :=
  (Nat.log2 num - 52) * 2 ^ 52 + roundHalfEven num (2 ^ (Nat.log2 num - 52))

theorem nearest_one (num : Nat) : nearest num 1 = min (unbounded num) infinityMagnitude := by
  rw [nearest, Nat.div_one, Nat.one_mul]
  rfl

theorem unbounded_mono {a b : Nat} (h : a ≤ b) : unbounded a ≤ unbounded b := by
  unfold unbounded
  have hShift : Nat.log2 a - 52 ≤ Nat.log2 b - 52 := Nat.sub_le_sub_right (log2_le_log2 h) 52
  rcases Nat.lt_or_eq_of_le hShift with hLt | hEq
  · have ha := significand_le a
    have hb : 2 ^ 52 ≤ roundHalfEven b (2 ^ (Nat.log2 b - 52)) := le_significand (by omega)
    omega
  · rw [hEq]
    exact Nat.add_le_add_left (roundHalfEven_mono h _) _

theorem nearest_mono {a b : Nat} (h : a ≤ b) : nearest a 1 ≤ nearest b 1 := by
  have hMagnitude := unbounded_mono h
  rw [nearest_one, nearest_one]
  omega

theorem binade_succ (k : Nat) : (2 ^ 52 + 0) * 2 ^ (k + 1) = 2 ^ 53 * 2 ^ k := by
  rw [Nat.add_zero, ← Nat.pow_add, ← Nat.pow_add, Nat.add_comm k 1, ← Nat.add_assoc]

theorem unitsOf_lt_succ (m : Nat) : unitsOf m < unitsOf (m + 1) := by
  unfold unitsOf
  by_cases hSmall : m + 1 < 2 ^ 53
  · rw [if_pos hSmall, if_pos (by omega)]
    omega
  rw [if_neg hSmall]
  by_cases hBorder : m < 2 ^ 53
  · obtain rfl : m = 2 ^ 53 - 1 := by omega
    decide
  rw [if_neg hBorder]
  -- Either both magnitudes lie in one binade, or the second one begins the next.
  by_cases hBinade : m % 2 ^ 52 + 1 < 2 ^ 52
  · have hQuotient : (m + 1) / 2 ^ 52 = m / 2 ^ 52 := by omega
    have hRemainder : (m + 1) % 2 ^ 52 = m % 2 ^ 52 + 1 := by omega
    rw [hQuotient, hRemainder]
    exact Nat.mul_lt_mul_of_pos_right (by omega) (Nat.two_pow_pos _)
  · have hQuotient : (m + 1) / 2 ^ 52 - 1 = m / 2 ^ 52 - 1 + 1 := by omega
    have hRemainder : (m + 1) % 2 ^ 52 = 0 := by omega
    rw [hQuotient, hRemainder, binade_succ]
    exact Nat.mul_lt_mul_of_pos_right (by omega) (Nat.two_pow_pos _)

theorem strictMono_unitsOf : StrictMono unitsOf := strictMono_nat_of_lt_succ unitsOf_lt_succ

@[simp]
theorem unitsOf_unbounded (num : Nat) : unitsOf (unbounded num) = significant num := by
  rw [unbounded, significant]
  have hHigh := significand_le num
  by_cases hWide : 52 < Nat.log2 num
  · have hLow := le_significand (n := num) (by omega)
    generalize roundHalfEven num (2 ^ (Nat.log2 num - 52)) = q at hLow hHigh
    obtain ⟨s, hs⟩ : ∃ s, Nat.log2 num - 52 = s + 1 := ⟨Nat.log2 num - 53, by omega⟩
    rw [hs, unitsOf, if_neg (by omega)]
    rcases Nat.lt_or_eq_of_le hHigh with hLt | rfl
    · have hQuotient : ((s + 1) * 2 ^ 52 + q) / 2 ^ 52 - 1 = s + 1 := by omega
      have hRemainder : 2 ^ 52 + ((s + 1) * 2 ^ 52 + q) % 2 ^ 52 = q := by omega
      rw [hQuotient, hRemainder]
    · -- The significand was rounded up to the next binade.
      have hQuotient : ((s + 1) * 2 ^ 52 + 2 ^ 53) / 2 ^ 52 - 1 = s + 1 + 1 := by omega
      have hRemainder : ((s + 1) * 2 ^ 52 + 2 ^ 53) % 2 ^ 52 = 0 := by omega
      rw [hQuotient, hRemainder, binade_succ]
  · have hShift : Nat.log2 num - 52 = 0 := by omega
    have hSmall := div_shift_lt num
    rw [hShift, Nat.pow_zero, Nat.div_one] at hSmall
    have hExact : roundHalfEven num 1 * 1 = num :=
      roundHalfEven_of_dvd Nat.one_pos (Nat.one_dvd num)
    rw [Nat.mul_one] at hExact
    rw [hShift, Nat.pow_zero, hExact, unitsOf, if_pos (by omega)]
    omega

theorem unitsOf_nearest {num : Nat} (h : nearest num 1 < infinityMagnitude) :
    unitsOf (nearest num 1) = significant num := by
  have hMagnitude : nearest num 1 = unbounded num := by
    rw [nearest_one] at h ⊢
    omega
  rw [hMagnitude, unitsOf_unbounded]

theorem significant_mono {a b : Nat} (h : a ≤ b) : significant a ≤ significant b := by
  rw [← unitsOf_unbounded, ← unitsOf_unbounded]
  exact strictMono_unitsOf.monotone (unbounded_mono h)

theorem le_significant {n k : Nat} (hk : k ≤ 2 ^ 53) (h : k ≤ n) : k ≤ significant n := by
  have hMono := significant_mono h
  rwa [significant_of_le hk] at hMono

theorem two_mul_le_significant (n : Nat) : 2 * n ≤ 2 * significant n + 2 ^ (Nat.log2 n - 52) :=
  le_roundHalfEven (Nat.two_pow_pos _) n

theorem two_pow_dvd_significant {n k : Nat} (h : k ≤ Nat.log2 n - 52) : 2 ^ k ∣ significant n :=
  Nat.dvd_mul_left_of_dvd (Nat.pow_dvd_pow 2 h) _

/--
Rounding two numbers below `2 ^ 63` takes less than a last place off a sum of `2 ^ 63`, since what
is left is a multiple of the last place of the smaller one.
-/
theorem le_significant_add {m n : Nat} (hm : m < 2 ^ 63) (hSmaller : n ≤ m)
    (hSum : 2 ^ 63 ≤ m + n) : 2 ^ 63 - 2 ^ 9 ≤ significant m + significant n := by
  have hRest : significant (2 ^ 63 - m) ≤ significant n := significant_mono (by omega)
  by_cases hHalf : m = 2 ^ 62
  · have hExact : significant (2 ^ 62) = 2 ^ 62 := by decide +kernel
    rw [hHalf, show 2 ^ 63 - 2 ^ 62 = 2 ^ 62 by decide] at hRest
    rw [hHalf]
    omega
  · have hLog : Nat.log2 m = 62 := (Nat.log2_eq_iff (by omega)).mpr ⟨by omega, hm⟩
    have hLogRest : Nat.log2 (2 ^ 63 - m) < 62 := (Nat.log2_lt (by omega)).mpr (by omega)
    obtain ⟨k, hk⟩ : ∃ k, k = Nat.log2 (2 ^ 63 - m) - 52 := ⟨_, rfl⟩
    have hDvd : 2 ^ k ∣ significant m + significant (2 ^ 63 - m) :=
      Nat.dvd_add (two_pow_dvd_significant (by omega)) (two_pow_dvd_significant (by omega))
    have hDvd' : 2 ^ k ∣ 2 ^ 63 - 2 ^ 9 :=
      Nat.dvd_sub (Nat.pow_dvd_pow 2 (by omega)) (Nat.pow_dvd_pow 2 (by omega))
    have hError := two_mul_le_significant m
    have hErrorRest := two_mul_le_significant (2 ^ 63 - m)
    rw [hLog] at hError
    rw [← hk] at hErrorRest
    by_contra hLess
    have hGap := Nat.le_of_dvd (by omega) (Nat.dvd_sub hDvd' hDvd)
    have hPos := Nat.two_pow_pos k
    omega

end Reshape.Binary64
