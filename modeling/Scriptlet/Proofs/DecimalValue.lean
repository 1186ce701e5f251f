import Scriptlet.Proofs.NearestDouble
import Scriptlet.Number.Numeral

/-!
The numbers that decimals stand for. The shortest decimal of a double lies in the part of the line
that is rounded to it, and a numeral's decimal is rounded correctly however large or small it is.
-/

namespace Scriptlet

namespace Decimal

variable {m : ℕ} {e : ℤ} {d : Decimal}

/-- The number that a decimal stands for. -/
def value (d : Decimal) : ℚ := d.coefficient * 10 ^ d.exponent

theorem value_nonneg (d : Decimal) : 0 ≤ d.value :=
  mul_nonneg (Nat.cast_nonneg _) (zpow_nonneg (by norm_num) _)

theorem den_toFraction_pos (d : Decimal) : 0 < d.toFraction.den :=
  Fraction.den_times_pos (by decide) Nat.one_pos d.exponent

theorem value_toFraction (d : Decimal) : d.toFraction.value = d.value := by
  rw [toFraction, Fraction.value_times (by decide), Fraction.value_ofNat, value, Nat.cast_ofNat]

theorem value_trim (d : Decimal) : d.trim.value = d.value := by
  fun_induction trim d with
  | case1 d h ih =>
    have hten : (d.coefficient : ℚ) = 10 * (d.coefficient / 10 : ℕ) := by
      exact_mod_cast (Nat.mul_div_cancel' (Nat.dvd_of_mod_eq_zero h.2)).symm
    rw [ih, value, value, hten, zpow_add_one₀ (by norm_num)]
    ring
  | case2 => rfl

/-- A half is five tenths. -/
theorem value_exact (m : ℕ) (e : ℤ) : (exact m e).value = m * 2 ^ e := by
  rw [exact]
  split
  next he =>
    obtain ⟨k, rfl⟩ := Int.eq_ofNat_of_zero_le he
    simp [value]
  next he =>
    obtain ⟨k, hk⟩ := Int.eq_ofNat_of_zero_le (Int.le_of_lt (Int.neg_pos_of_neg (not_le.1 he)))
    obtain rfl : e = -k := by omega
    have hten : (10 : ℚ) ^ k = 2 ^ k * 5 ^ k := by
      rw [← mul_pow]
      norm_num
    have htwo : (2 : ℚ) ^ k ≠ 0 := pow_ne_zero k two_ne_zero
    have hfive : (5 : ℚ) ^ k ≠ 0 := pow_ne_zero k (by norm_num)
    simp only [value, neg_neg, Int.toNat_natCast, zpow_neg, zpow_natCast, Nat.pow_eq, hten]
    push_cast
    field_simp

theorem covers_of_onGrid {place : ℤ} (h : onGrid m e place = some d) :
    Double.covers m e d.toFraction = true := by
  rw [onGrid] at h
  simpa using List.find?_some h

/-- Whether a grid is hit or not, the shortest decimal is rounded to its double. -/
theorem covered_shortest (hm : 0 < m) (e : ℤ) : Double.Covered m e (shortest m e).value := by
  rw [shortest, value_trim]
  set found := (List.range 17).findSome? fun k : ℕ =>
    onGrid m e ((Double.magnitude m e).log 10 - k) with hfound
  cases hd : found with
  | none =>
    rw [Option.getD_none, value_exact]
    exact Double.covered_self m e
  | some d =>
    obtain ⟨k, -, hk⟩ := List.exists_of_findSome?_eq_some (hfound.symm.trans hd)
    rw [Option.getD_some, ← value_toFraction]
    exact (Double.covers_iff hm d.den_toFraction_pos).1 (covers_of_onGrid hk)

/-- The place of the first digit says how large a decimal is. -/
theorem pow_le_value_lt_pow (hc : 0 < d.coefficient) :
    (10 : ℚ) ^ (d.exponent + floorLog 10 d.coefficient) ≤ d.value ∧
      d.value < 10 ^ (d.exponent + floorLog 10 d.coefficient + 1) := by
  have hten : (0 : ℚ) < 10 ^ d.exponent := zpow_pos (by norm_num) _
  have hle : (10 : ℚ) ^ (floorLog 10 d.coefficient : ℤ) ≤ d.coefficient :=
    mod_cast pow_floorLog_le 10 hc
  have hlt : (d.coefficient : ℚ) < 10 ^ ((floorLog 10 d.coefficient : ℤ) + 1) :=
    mod_cast lt_pow_floorLog (by decide) d.coefficient
  rw [add_assoc, add_comm d.exponent, add_comm d.exponent, zpow_add₀ (by norm_num),
    zpow_add₀ (by norm_num), value]
  exact ⟨mul_le_mul_of_nonneg_right hle hten.le, mul_lt_mul_of_pos_right hlt hten⟩

end Decimal

namespace Numeral

theorem two_zpow_le_ten_zpow (k : ℕ) : (2 : ℚ) ^ (3 * k : ℤ) ≤ 10 ^ (k : ℤ) := by
  rw [zpow_mul, zpow_natCast, zpow_natCast]
  exact pow_le_pow_left₀ (by norm_num) (by norm_num) k

theorem le_half_least : (10 : ℚ) ^ (-400 : ℤ) ≤ 2 ^ Double.leastExponent / 2 := by
  have h : (10 : ℚ) ^ (-400 : ℤ) ≤ 2 ^ (-1200 : ℤ) := by
    rw [zpow_neg, zpow_neg]
    exact inv_anti₀ (Double.two_zpow_pos _) (two_zpow_le_ten_zpow 400)
  have hmono : (2 : ℚ) ^ (-1200 : ℤ) ≤ 2 ^ (-1075 : ℤ) := zpow_le_zpow_right₀ one_le_two (by decide)
  have hhalf : (2 : ℚ) ^ Double.leastExponent = 2 * 2 ^ (-1075 : ℤ) := by
    rw [← Double.two_zpow_succ, Double.leastExponent_eq]
    norm_num
  linarith

theorem overflow_le : Double.overflow ≤ (10 : ℚ) ^ (401 : ℤ) := by
  have htop := Double.two_zpow_pos 971
  calc Double.overflow = (2 ^ 53 - 1 / 2) * 2 ^ (971 : ℤ) := Double.overflow_eq
    _ ≤ 2 ^ 53 * 2 ^ (971 : ℤ) := mul_le_mul_of_nonneg_right (by norm_num) htop.le
    _ = 2 ^ (53 + 971 : ℤ) := (zpow_add₀ two_ne_zero 53 971).symm
    _ ≤ 2 ^ (3 * (401 : ℕ) : ℤ) := zpow_le_zpow_right₀ one_le_two (by decide)
    _ ≤ 10 ^ (401 : ℤ) := two_zpow_le_ten_zpow 401

/-- Beyond the range of doubles the power of ten does not have to be worked out. -/
theorem rounds_nearest (negative : Bool) (d : Decimal) :
    Double.Rounds negative d.value (nearest negative d) := by
  have hnonneg := d.value_nonneg
  have hzero : d.value ≤ 2 ^ Double.leastExponent / 2 →
      Double.Rounds negative d.value (Double.withSign negative 0) := fun hq =>
    Double.rounds_withSign_finiteBits Double.regular_zero hnonneg (Double.covered_zero hnonneg hq)
      negative
  rw [nearest]
  split
  next h =>
    refine hzero ?_
    rcases d.coefficient.eq_zero_or_pos with hc | hc
    · rw [Decimal.value, hc, Nat.cast_zero, zero_mul]
      exact (half_pos (Double.two_zpow_pos _)).le
    · have hlead := h.resolve_left hc.ne'
      calc d.value ≤ 10 ^ (d.exponent + floorLog 10 d.coefficient + 1) :=
            (Decimal.pow_le_value_lt_pow hc).2.le
        _ ≤ 10 ^ (-400 : ℤ) := zpow_le_zpow_right₀ (by norm_num) hlead
        _ ≤ 2 ^ Double.leastExponent / 2 := le_half_least
  next h =>
    obtain ⟨hc, -⟩ := not_or.1 h
    split
    next hlead =>
      refine Double.rounds_withSign_infinityBits ?_ negative
      calc Double.overflow ≤ 10 ^ (401 : ℤ) := overflow_le
        _ ≤ 10 ^ (d.exponent + floorLog 10 d.coefficient) :=
            zpow_le_zpow_right₀ (by norm_num) hlead
        _ ≤ d.value := (Decimal.pow_le_value_lt_pow (Nat.pos_of_ne_zero hc)).1
    next =>
      have h := Double.rounds_nearest d.den_toFraction_pos negative
      rwa [d.value_toFraction] at h

end Numeral

end Scriptlet
