import Scriptlet.Number.Fraction
import Mathlib.Data.Int.Log
import Mathlib.Data.Rat.Floor
import Mathlib.Algebra.Order.Floor.Semifield
import Mathlib.Algebra.Order.Field.Power
import Mathlib.Tactic.FieldSimp
import Mathlib.Tactic.Linarith
import Mathlib.Tactic.Positivity
import Mathlib.Tactic.Ring

/-!
The rational numbers that fractions stand for, and what the operations on fractions do to them.
-/

namespace Scriptlet

/-- `n` is the whole number nearest to `q`, the even one of two that are equally near. -/
def NearestWhole (q : ℚ) (n : ℕ) : Prop :=
  |q - n| < 1 / 2 ∨ |q - n| = 1 / 2 ∧ n % 2 = 0

namespace NearestWhole

variable {q : ℚ} {m n : ℕ}

theorem abs_sub_le (h : NearestWhole q n) : |q - n| ≤ 1 / 2 := h.elim le_of_lt fun h => h.1.le

theorem le_add (h : NearestWhole q n) : q ≤ n + 1 / 2 := by
  have := le_of_abs_le h.abs_sub_le
  linarith

theorem sub_le (h : NearestWhole q n) : n - 1 / 2 ≤ q := by
  have := neg_le_of_abs_le h.abs_sub_le
  linarith

/-- A bound that is a whole number is one for the nearest whole number too. -/
theorem le_of_le (h : NearestWhole q n) (hm : q ≤ m) : n ≤ m := by
  have hn := h.sub_le
  have hlt : (n : ℚ) < (m + 1 : ℕ) := by
    push_cast
    linarith
  exact Nat.lt_succ_iff.1 (Nat.cast_lt.1 hlt)

theorem ge_of_ge (h : NearestWhole q n) (hm : m ≤ q) : m ≤ n := by
  have hn := h.le_add
  have hlt : (m : ℚ) < (n + 1 : ℕ) := by
    push_cast
    linarith
  exact Nat.lt_succ_iff.1 (Nat.cast_lt.1 hlt)

end NearestWhole

/-- A power with an integral exponent as `Fraction.times` works it out. -/
theorem zpow_eq_div {base : ℕ} (hb : 0 < base) (e : ℤ) :
    (base : ℚ) ^ e = (base : ℚ) ^ e.toNat / (base : ℚ) ^ (-e).toNat := by
  have hne : (base : ℚ) ≠ 0 := Nat.cast_ne_zero.2 hb.ne'
  rw [← zpow_natCast, ← zpow_natCast, ← zpow_sub₀ hne, Int.toNat_sub_toNat_neg]

/-- A whole number that is another one times a power, with powers of one base on both sides. -/
theorem eq_mul_pow_of_zpow {base : ℕ} (hb : 0 < base) {m n k : ℕ} {e : ℤ}
    (h : (m : ℚ) * base ^ e = n * base ^ (e + k)) : m = n * base ^ k := by
  have hne : (base : ℚ) ≠ 0 := Nat.cast_ne_zero.2 hb.ne'
  rw [zpow_add₀ hne, mul_comm ((base : ℚ) ^ e), ← mul_assoc, zpow_natCast] at h
  exact_mod_cast mul_right_cancel₀ (zpow_ne_zero e hne) h

/-- The logarithm is the exponent of the only power below with none between. -/
theorem log_eq_of_le_of_lt {base : ℕ} (hb : 1 < base) {q : ℚ} {e : ℤ} (hle : (base : ℚ) ^ e ≤ q)
    (hlt : q < (base : ℚ) ^ (e + 1)) : Int.log base q = e := by
  have hq : 0 < q := lt_of_lt_of_le (zpow_pos (Nat.cast_pos.2 (by omega)) e) hle
  have h₁ := (Int.zpow_le_iff_le_log hb hq).1 hle
  have h₂ := (Int.lt_zpow_iff_log_lt hb hq).1 hlt
  omega

namespace Fraction

variable {x y : Fraction} {base : ℕ}

/-- The number that a fraction stands for. -/
def value (x : Fraction) : ℚ := x.num / x.den

theorem value_nonneg (x : Fraction) : 0 ≤ x.value := div_nonneg (Nat.cast_nonneg _) (Nat.cast_nonneg _)

theorem value_pos (hn : 0 < x.num) (hd : 0 < x.den) : 0 < x.value :=
  div_pos (Nat.cast_pos.2 hn) (Nat.cast_pos.2 hd)

theorem value_eq_zero (h : x.num = 0) : x.value = 0 := by rw [value, h, Nat.cast_zero, zero_div]

@[simp] theorem value_ofNat (n : ℕ) : (ofNat n).value = n := by simp [value, ofNat]

theorem den_times_pos (hb : 0 < base) (hd : 0 < x.den) (e : ℤ) : 0 < (x.times base e).den :=
  Nat.mul_pos hd (Nat.pow_pos hb)

theorem num_times_pos (hb : 0 < base) (hn : 0 < x.num) (e : ℤ) : 0 < (x.times base e).num :=
  Nat.mul_pos hn (Nat.pow_pos hb)

theorem value_times (hb : 0 < base) (x : Fraction) (e : ℤ) :
    (x.times base e).value = x.value * (base : ℚ) ^ e := by
  rw [zpow_eq_div hb, value, value, times, div_mul_div_comm]
  simp

theorem lt_iff (hx : 0 < x.den) (hy : 0 < y.den) : x.lt y = true ↔ x.value < y.value := by
  rw [lt, decide_eq_true_iff, value, value, div_lt_div_iff₀ (Nat.cast_pos.2 hx) (Nat.cast_pos.2 hy)]
  exact_mod_cast Iff.rfl

theorem le_iff (hx : 0 < x.den) (hy : 0 < y.den) : x.le y = true ↔ x.value ≤ y.value := by
  rw [le, decide_eq_true_iff, value, value, div_le_div_iff₀ (Nat.cast_pos.2 hx) (Nat.cast_pos.2 hy)]
  exact_mod_cast Iff.rfl

/-- The whole part and what is left of it. -/
theorem value_sub_floor (hd : 0 < x.den) :
    x.value - (x.num / x.den : ℕ) = (x.num % x.den : ℕ) / x.den := by
  have hne : (x.den : ℚ) ≠ 0 := Nat.cast_ne_zero.2 hd.ne'
  have hsplit : (x.num : ℚ) = x.den * (x.num / x.den : ℕ) + (x.num % x.den : ℕ) :=
    mod_cast (Nat.div_add_mod x.num x.den).symm
  rw [value, eq_div_iff hne, sub_mul, div_mul_cancel₀ _ hne]
  linarith

theorem round_nearest (hd : 0 < x.den) : NearestWhole x.value x.round := by
  have hdq : (0 : ℚ) < x.den := Nat.cast_pos.2 hd
  have hsub := value_sub_floor hd
  set part : ℚ := (x.num % x.den : ℕ) / x.den with hpart
  have hnonneg : 0 ≤ part := div_nonneg (Nat.cast_nonneg _) hdq.le
  have hone : part < 1 := (div_lt_one hdq).2 (Nat.cast_lt.2 (Nat.mod_lt _ hd))
  have hlt : 2 * (x.num % x.den) < x.den ↔ part < 1 / 2 := by
    rw [hpart, div_lt_div_iff₀ hdq two_pos, mul_comm 2, one_mul]
    exact_mod_cast Iff.rfl
  have heq : 2 * (x.num % x.den) = x.den ↔ part = 1 / 2 := by
    rw [hpart, div_eq_div_iff hdq.ne' two_ne_zero, mul_comm 2, one_mul]
    exact_mod_cast Iff.rfl
  by_cases h : 2 * (x.num % x.den) < x.den ∨ 2 * (x.num % x.den) = x.den ∧ x.num / x.den % 2 = 0
  · rw [round, if_pos h, NearestWhole, hsub, abs_of_nonneg hnonneg, ← hlt, ← heq]
    exact h
  · have hup : x.value - (x.num / x.den + 1 : ℕ) = -(1 - part) := by
      push_cast at hsub ⊢
      linarith
    rw [round, if_neg h, NearestWhole, hup, abs_neg, abs_of_pos (by linarith)]
    obtain ⟨hnot, hodd⟩ := not_or.1 h
    rcases (not_lt.1 (mt hlt.2 hnot)).eq_or_lt with htie | hhigh
    · have := heq.2 htie.symm
      refine .inr ⟨by linarith, ?_⟩
      omega
    · exact .inl (by linarith)

/-- The logarithms of numerator and denominator bracket the one of the fraction. -/
theorem pow_lt_value_lt_pow (hb : 1 < base) (hn : 0 < x.num) (hd : 0 < x.den) :
    (base : ℚ) ^ ((floorLog base x.num : ℤ) - floorLog base x.den - 1) < x.value ∧
      x.value < (base : ℚ) ^ ((floorLog base x.num : ℤ) - floorLog base x.den + 1) := by
  have hbase : (0 : ℚ) < base := Nat.cast_pos.2 (by omega)
  have hdq : (0 : ℚ) < x.den := Nat.cast_pos.2 hd
  have hn₁ : (base : ℚ) ^ (floorLog base x.num : ℤ) ≤ x.num := mod_cast pow_floorLog_le base hn
  have hn₂ : (x.num : ℚ) < (base : ℚ) ^ ((floorLog base x.num : ℤ) + 1) :=
    mod_cast lt_pow_floorLog hb x.num
  have hd₁ : (base : ℚ) ^ (floorLog base x.den : ℤ) ≤ x.den := mod_cast pow_floorLog_le base hd
  have hd₂ : (x.den : ℚ) < (base : ℚ) ^ ((floorLog base x.den : ℤ) + 1) :=
    mod_cast lt_pow_floorLog hb x.den
  constructor
  · rw [value, lt_div_iff₀ hdq]
    calc (base : ℚ) ^ ((floorLog base x.num : ℤ) - floorLog base x.den - 1) * x.den
        < (base : ℚ) ^ ((floorLog base x.num : ℤ) - floorLog base x.den - 1) *
            (base : ℚ) ^ ((floorLog base x.den : ℤ) + 1) := by gcongr
      _ = (base : ℚ) ^ (floorLog base x.num : ℤ) := by
          rw [← zpow_add₀ hbase.ne']
          congr 1
          ring
      _ ≤ x.num := hn₁
  · rw [value, div_lt_iff₀ hdq]
    calc (x.num : ℚ) < (base : ℚ) ^ ((floorLog base x.num : ℤ) + 1) := hn₂
      _ = (base : ℚ) ^ ((floorLog base x.num : ℤ) - floorLog base x.den + 1) *
            (base : ℚ) ^ (floorLog base x.den : ℤ) := by
          rw [← zpow_add₀ hbase.ne']
          congr 1
          ring
      _ ≤ (base : ℚ) ^ ((floorLog base x.num : ℤ) - floorLog base x.den + 1) * x.den := by gcongr

theorem log_eq (hb : 1 < base) (hn : 0 < x.num) (hd : 0 < x.den) :
    x.log base = Int.log base x.value := by
  obtain ⟨hlow, hhigh⟩ := pow_lt_value_lt_pow hb hn hd
  have hle : ∀ e : ℤ, ((ofNat 1).times base e).le x = true ↔ (base : ℚ) ^ e ≤ x.value := by
    intro e
    rw [le_iff (den_times_pos (by omega) Nat.one_pos e) hd, value_times (by omega), value_ofNat,
      Nat.cast_one, one_mul]
  rw [log]
  split
  next h => exact (log_eq_of_le_of_lt hb ((hle _).1 h) hhigh).symm
  next h =>
    refine (log_eq_of_le_of_lt hb hlow.le ?_).symm
    rw [Int.sub_add_cancel]
    exact not_le.1 (mt (hle _).2 h)

end Fraction

end Scriptlet
