import Scriptlet.Number.Division
import Scriptlet.Proofs.NumberOrder

/-!
Quotients of doubles. What is found from the signs where the divisor is a zero is what division of
doubles has there; so the quotient of any two doubles is found, and it is the one of division.
-/

namespace Scriptlet.Double

open Float.Model

/-- The sign is the highest bit of a word. -/
theorem decide_signBit_le {negative : Bool} {x : Float} {bits : ℕ} (h : bits ≤ infinityBits)
    (hx : x.toBits.toNat = signBits negative + bits) :
    decide (signBit ≤ x.toBits.toNat) = negative := by
  rw [infinityBits_eq] at h
  rw [hx, signBits, signBit, Nat.pow_eq, Bool.eq_iff_iff, decide_eq_true_iff]
  cases negative <;> simp
  omega

theorem isNaN_iff {x : Float} : x.isNaN = true ↔ ofFloat x = .nan := by
  have hx : x.isNaN = x.toModel.unpack.isNaN := rfl
  rw [hx, ofFloat_eq_ofUnpacked]
  cases x.toModel.unpack with
  | notANumber => exact iff_of_true rfl rfl
  | infinity s | zero s | finite s m e hm => exact iff_of_false nofun nofun

/-- What is equal to zero is one of the two zeros. -/
theorem beq_zero_iff {x : Float} : (x == 0) = true ↔ ∃ s, ofFloat x = .finite s 0 leastExponent := by
  have hzero : ofFloat 0 = .finite false 0 leastExponent := by decide
  constructor
  · intro h
    rcases eq_or_zero_of_beq h with rfl | ⟨s, -, hx, -⟩
    · exact ⟨false, hzero⟩
    · exact ⟨s, hx⟩
  · rintro ⟨s, hx⟩
    exact beq_of_zeros hx hzero

theorem eq_withSign_zero {x : Float} {s : Bool} (hx : ofFloat x = .finite s 0 leastExponent) :
    x = withSign s 0 := by
  have hbits : finiteBits 0 leastExponent = 0 := by
    rw [finiteBits, Int.sub_self]
    rfl
  rw [← hbits]
  exact ofFloat_injective (hx.trans (ofFloat_withSign_finiteBits s regular_zero).symm)

/-- The bits of one. -/
def oneBits : ℕ := 1023 * 2 ^ 52

section ZeroDivisor

variable (s t : Bool) {x : Float}

/-- The dividends of which a zero divisor makes no number. -/
theorem beq_zero_or_isNaN_iff : (x == 0 || x.isNaN) = true ↔
    (∃ s, ofFloat x = .finite s 0 leastExponent) ∨ ofFloat x = .nan := by
  rw [Bool.or_eq_true, beq_zero_iff, isNaN_iff]

theorem copySign_infinity {bits : ℕ} (h : bits ≤ infinityBits)
    (hx : x.toBits.toNat = signBits s + bits) :
    copySign (withSign false infinityBits) x = withSign s infinityBits := by
  rw [copySign, decide_signBit_le h hx]
  cases s <;> decide

theorem copySign_one : copySign 1 (withSign t 0) = withSign t oneBits := by
  cases t <;> decide

theorem infinity_mul_one : withSign s infinityBits * withSign t oneBits =
    withSign (s ^^ t) infinityBits := by
  cases s <;> cases t <;> decide

theorem nan_div_zero : .ofBits nanBits / withSign t 0 = .ofBits nanBits := by
  cases t <;> decide

theorem zero_div_zero : withSign s 0 / withSign t 0 = .ofBits nanBits := by
  cases s <;> cases t <;> decide

theorem infinity_div_zero : withSign s infinityBits / withSign t 0 =
    withSign (s ^^ t) infinityBits := by
  cases s <;> cases t <;> decide

theorem finite_div_zero {m : ℕ} {e : ℤ} (hx : ofFloat x = .finite s m e) (hm : m ≠ 0) :
    x / withSign t 0 = withSign (s ^^ t) infinityBits := by
  have hdiv : x / withSign t 0 =
      ⟨.pack (UnpackedFloat.div Format.binary64 x.toModel.unpack (withSign t 0).toModel.unpack)⟩ := rfl
  rw [ofFloat_eq_ofUnpacked] at hx
  rw [hdiv]
  cases hu : x.toModel.unpack with
  | notANumber | infinity sign =>
    rw [hu] at hx
    cases hx
  | zero sign =>
    rw [hu] at hx
    cases hx
    exact absurd rfl hm
  | finite sign n f hn =>
    rw [hu] at hx
    cases hx
    cases sign <;> cases t <;> rfl

end ZeroDivisor

/-- The quotient of any two doubles is found, and it is the one of division. -/
theorem quotient?_eq (x y : Float) : quotient? x y = some (x / y) := by
  rw [quotient?, divide?]
  split
  next hy =>
    obtain ⟨t, ht⟩ := beq_zero_iff.1 hy
    obtain rfl := eq_withSign_zero ht
    rw [copySign_one]
    cases hx : ofFloat x with
    | nan =>
      obtain rfl : x = .ofBits nanBits := ofFloat_injective (hx.trans ofFloat_nan.symm)
      rw [if_pos (beq_zero_or_isNaN_iff.2 (.inr hx)), nan_div_zero]
    | infinite s =>
      have hx' := hx.trans (ofFloat_withSign_infinityBits s).symm
      have hword := toBits_of_infinite hx
      rw [if_neg, copySign_infinity s (Nat.le_refl _) hword, infinity_mul_one,
        ofFloat_injective hx', infinity_div_zero]
      rw [beq_zero_or_isNaN_iff, hx]
      simp
    | finite s m e =>
      obtain ⟨hregular, hword⟩ := regular_of_ofFloat hx
      by_cases hm : m = 0
      · subst hm
        obtain ⟨-, rfl⟩ := hregular.eq_zero (by rw [Nat.cast_zero, zero_mul])
        rw [if_pos (beq_zero_or_isNaN_iff.2 (.inl ⟨s, hx⟩)), eq_withSign_zero hx, zero_div_zero]
      · rw [if_neg, copySign_infinity s (finiteBits_lt hregular).le hword, infinity_mul_one,
          finite_div_zero s t hx hm]
        rw [beq_zero_or_isNaN_iff, hx]
        simp [hm]
  next => rfl

end Scriptlet.Double
