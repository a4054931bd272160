import Reshape.Binary64.Basic

/-!
# Finite roundings

A natural number below the highest binade rounds to a finite number.
-/

namespace Reshape.Binary64

theorem roundHalfEven_le (num den : Nat) : roundHalfEven num den ≤ num / den + 1 := by
  unfold roundHalfEven
  simp only
  split
  · omega
  · split <;> omega

theorem div_shift_lt (n : Nat) : n / 2 ^ (Nat.log2 n - 52) < 2 ^ 53 := by
  rw [Nat.div_lt_iff_lt_mul (Nat.two_pow_pos _), ← Nat.pow_add]
  calc n < 2 ^ (Nat.log2 n + 1) := Nat.lt_log2_self
    _ ≤ 2 ^ (53 + (Nat.log2 n - 52)) := Nat.pow_le_pow_right (by decide) (by omega)

theorem nearest_le {num k : Nat} (h : num < 2 ^ k) :
    nearest num 1 ≤ (k - 53 + 2) * 2 ^ 52 := by
  have hShift : Nat.log2 num - 52 ≤ k - 53 := by
    rcases Nat.eq_zero_or_pos num with rfl | hPos
    · simp [Nat.log2_zero]
    · have hLog := (Nat.log2_lt (Nat.pos_iff_ne_zero.mp hPos)).mpr h
      omega
  have hRound : roundHalfEven num (2 ^ (Nat.log2 num - 52)) ≤ 2 * 2 ^ 52 :=
    Nat.le_trans (roundHalfEven_le num _) (div_shift_lt num)
  calc nearest num 1 ≤ (Nat.log2 num - 52) * 2 ^ 52 +
        roundHalfEven num (2 ^ (Nat.log2 num - 52)) := by
        rw [nearest, Nat.div_one, Nat.one_mul]
        exact Nat.min_le_left _ _
    _ ≤ (k - 53) * 2 ^ 52 + 2 * 2 ^ 52 :=
        Nat.add_le_add (Nat.mul_le_mul_right _ hShift) hRound
    _ = (k - 53 + 2) * 2 ^ 52 := (Nat.add_mul _ _ _).symm

theorem mul_two_pow_lt {n k : Nat} (h : n < 2 ^ k) (m : Nat) : n * 2 ^ m < 2 ^ (k + m) := by
  rw [Nat.pow_add]
  exact Nat.mul_lt_mul_of_pos_right h (Nat.two_pow_pos m)

theorem isFinite_ofNat {n k : Nat} (h : n < 2 ^ k) (hk : k ≤ 1023) :
    (ofNat n).isFinite = true := by
  have hUnits : n * one < 2 ^ (k + 1074) := mul_two_pow_lt h 1074
  have hBinade : k + 1074 - 53 + 2 < 2047 := by omega
  exact decide_eq_true <| calc
    nearest (n * one) 1 ≤ (k + 1074 - 53 + 2) * 2 ^ 52 := nearest_le hUnits
    _ < infinityMagnitude := Nat.mul_lt_mul_of_pos_right hBinade (Nat.two_pow_pos 52)

end Reshape.Binary64
