import Scriptlet.Number.Double
import Mathlib

/-!
The words of doubles. A float keeps the word that it is made of, except that a number that is none
has one word only; so a double determines its float.
-/

namespace Scriptlet.Double

open Float.Model

theorem toNat_unpackMantissa (b : BitVec Format.binary64.numBits) :
    (UnpackedFloat.unpackMantissa b).toNat = b.toNat % 2 ^ 52 := by
  simp [UnpackedFloat.unpackMantissa]

theorem toNat_unpackExponent (b : BitVec Format.binary64.numBits) :
    (UnpackedFloat.unpackExponent b).toNat = b.toNat / 2 ^ 52 % 2 ^ 11 := by
  simp [UnpackedFloat.unpackExponent, Nat.shiftRight_eq_div_pow]

theorem toNat_unpackSign (b : BitVec Format.binary64.numBits) :
    (UnpackedFloat.unpackSign b).toNat = b.toNat / 2 ^ 63 % 2 := by
  simp [UnpackedFloat.unpackSign, Nat.shiftRight_eq_div_pow]

theorem isNaNBits_iff (b : BitVec Format.binary64.numBits) :
    UnpackedFloat.isNaNBits b = true ↔
      b.toNat / 2 ^ 52 % 2 ^ 11 = 2047 ∧ b.toNat % 2 ^ 52 ≠ 0 := by
  rw [UnpackedFloat.isNaNBits, decide_eq_true_iff, ← BitVec.toNat_inj, ne_eq, ← BitVec.toNat_inj,
    toNat_unpackMantissa, toNat_unpackExponent]
  rfl

theorem ofBits_eq_nan_iff {w : UInt64} :
    ofBits w = .nan ↔ w.toNat / 2 ^ 52 % 2 ^ 11 = 2047 ∧ w.toNat % 2 ^ 52 ≠ 0 := by
  rw [ofBits]
  simp only [Nat.pow_eq]
  split
  next he =>
    split
    next hm => exact ⟨nofun, fun h => absurd hm h.2⟩
    next hm => exact ⟨fun _ => ⟨he, hm⟩, fun _ => rfl⟩
  next he =>
    refine ⟨fun h => ?_, fun h => absurd h.1 he⟩
    split at h <;> cases h

theorem toBits_ofBits {w : UInt64} (h : ofBits w ≠ .nan) : (Float.ofBits w).toBits = w := by
  let b : BitVec Format.binary64.numBits := w.toBitVec
  have hb := UnpackedFloat.pack_unpack b
  rw [if_neg (mt (fun h => ofBits_eq_nan_iff.2 ((isNaNBits_iff b).1 h)) h)] at hb
  exact congrArg UInt64.ofBitVec hb

/-- All words that stand for no number become one. -/
theorem toBits_ofBits_of_nan {w : UInt64} (h : ofBits w = .nan) :
    (Float.ofBits w).toBits = 0x7ff8000000000000 := by
  let b : BitVec Format.binary64.numBits := w.toBitVec
  have hb := UnpackedFloat.pack_unpack b
  rw [if_pos ((isNaNBits_iff b).2 (ofBits_eq_nan_iff.1 h))] at hb
  exact congrArg UInt64.ofBitVec hb

/-- What a finite double consists of: a mantissa of at most 53 bits and the least exponent, or a
mantissa of exactly 53 bits and any exponent in range. -/
structure Regular (m : Nat) (e : Int) : Prop where
  lt : m < 2 ^ 53
  least_le : leastExponent ≤ e
  le : e ≤ 971
  full : leastExponent < e → 2 ^ 52 ≤ m

/-- The bits of a finite double without its sign. The highest bit of a full mantissa is the last one
of the exponent. -/
def finiteBits (m : Nat) (e : Int) : Nat := (e - leastExponent).toNat * 2 ^ 52 + m

/-- The weight of the sign in a word. -/
def signBits (negative : Bool) : Nat := if negative then 2 ^ 63 else 0

theorem infinityBits_eq : infinityBits = 2047 * 2 ^ 52 := rfl

theorem leastExponent_eq : leastExponent = -1074 := rfl

theorem finiteBits_lt {m : Nat} {e : Int} (h : Regular m e) : finiteBits m e < infinityBits := by
  obtain ⟨hlt, hleast, hle, -⟩ := h
  rw [leastExponent_eq] at hleast
  rw [finiteBits, leastExponent_eq, infinityBits_eq]
  omega

/-- How a double is read from the parts of its word. -/
theorem ofBits_eq {w : UInt64} {negative : Bool} {exponent fraction : Nat}
    (he : exponent < 2048) (hf : fraction < 2 ^ 52)
    (hw : w.toNat = signBits negative + (exponent * 2 ^ 52 + fraction)) :
    ofBits w =
      if exponent = 2047 then if fraction = 0 then infinite negative else nan
      else if exponent = 0 then finite negative fraction leastExponent
      else finite negative (2 ^ 52 + fraction) (leastExponent + (exponent : Int) - 1) := by
  have hsign : decide (signBit ≤ w.toNat) = negative := by
    rw [hw, signBits, signBit, Nat.pow_eq, Bool.eq_iff_iff, decide_eq_true_iff]
    cases negative <;> simp
    omega
  have hexponent : w.toNat / 2 ^ 52 % 2048 = exponent := by
    rw [hw, signBits]
    split <;> omega
  have hfraction : w.toNat % 2 ^ 52 = fraction := by
    rw [hw, signBits]
    split <;> omega
  simp only [ofBits, Nat.pow_eq, hsign, hexponent, hfraction]

/-- Any word without a sign up to the one of infinity is kept. -/
theorem toNat_toBits_withSign (negative : Bool) {bits : Nat} (h : bits ≤ infinityBits) :
    (withSign negative bits).toBits.toNat = signBits negative + bits := by
  rw [infinityBits_eq] at h
  have hw : (UInt64.ofNat (if negative then signBit + bits else bits)).toNat =
      signBits negative + bits := by
    rw [UInt64.toNat_ofNat', signBit, signBits, Nat.pow_eq]
    split <;> omega
  rw [withSign, toBits_ofBits, hw]
  rw [ne_eq, ofBits_eq_nan_iff, hw, signBits]
  split <;> omega

theorem ofFloat_withSign (negative : Bool) {bits exponent fraction : Nat} (h : bits ≤ infinityBits)
    (hb : bits = exponent * 2 ^ 52 + fraction) (hf : fraction < 2 ^ 52) :
    ofFloat (withSign negative bits) =
      if exponent = 2047 then if fraction = 0 then infinite negative else nan
      else if exponent = 0 then finite negative fraction leastExponent
      else finite negative (2 ^ 52 + fraction) (leastExponent + (exponent : Int) - 1) := by
  have hw := toNat_toBits_withSign negative h
  rw [infinityBits_eq] at h
  rw [hb] at hw h
  rw [ofFloat, hb, ofBits_eq (by omega) hf hw]

theorem ofFloat_withSign_infinityBits (negative : Bool) :
    ofFloat (withSign negative infinityBits) = .infinite negative := by
  have hb : infinityBits = 2047 * 2 ^ 52 + 0 := rfl
  rw [ofFloat_withSign negative (Nat.le_refl _) hb (by omega), if_pos rfl, if_pos rfl]

theorem ofFloat_withSign_finiteBits (negative : Bool) {m : Nat} {e : Int} (h : Regular m e) :
    ofFloat (withSign negative (finiteBits m e)) = .finite negative m e := by
  have hle := Nat.le_of_lt (finiteBits_lt h)
  obtain ⟨hm, hleast, hmost, hfull⟩ := h
  rw [leastExponent_eq] at hleast hfull
  by_cases hsmall : m < 2 ^ 52
  · obtain rfl : e = leastExponent := by
      rw [leastExponent_eq]
      omega
    have hb : finiteBits m leastExponent = 0 * 2 ^ 52 + m := by
      rw [finiteBits, Int.sub_self, Int.toNat_zero]
    rw [ofFloat_withSign negative hle hb hsmall, if_neg (by omega), if_pos rfl]
  · have hb : finiteBits m e = (e + 1075).toNat * 2 ^ 52 + (m - 2 ^ 52) := by
      rw [finiteBits, leastExponent_eq]
      omega
    have hmantissa : 2 ^ 52 + (m - 2 ^ 52) = m := by omega
    have hexponent : -1074 + ((e + 1075).toNat : Int) - 1 = e := by omega
    rw [ofFloat_withSign negative hle hb (by omega), if_neg (by omega), if_neg (by omega),
      leastExponent_eq, hmantissa, hexponent]

/-- Every word has the three parts. -/
theorem exists_parts (w : UInt64) :
    ∃ negative exponent fraction, exponent < 2048 ∧ fraction < 2 ^ 52 ∧
      w.toNat = signBits negative + (exponent * 2 ^ 52 + fraction) := by
  have hw := w.toNat_lt
  refine ⟨decide (2 ^ 63 ≤ w.toNat), w.toNat / 2 ^ 52 % 2048, w.toNat % 2 ^ 52, by omega, by omega, ?_⟩
  rw [signBits]
  by_cases h : 2 ^ 63 ≤ w.toNat
  · rw [if_pos (decide_eq_true h)]
    omega
  · rw [if_neg (Bool.eq_false_iff.1 (decide_eq_false h))]
    omega

/-- A finite double is made of regular parts, which determine its word. -/
theorem regular_of_ofFloat {x : Float} {negative : Bool} {m : Nat} {e : Int}
    (h : ofFloat x = .finite negative m e) :
    Regular m e ∧ x.toBits.toNat = signBits negative + finiteBits m e := by
  obtain ⟨sign, exponent, fraction, he, hf, hw⟩ := exists_parts x.toBits
  rw [ofFloat, ofBits_eq he hf hw] at h
  split at h
  · split at h <;> cases h
  · split at h <;> cases h
    next hzero =>
      refine ⟨⟨by omega, Int.le_refl _, by decide, fun h => absurd h (Int.lt_irrefl _)⟩, ?_⟩
      rw [hw, finiteBits, Int.sub_self, Int.toNat_zero, hzero]
    next hzero =>
      refine ⟨⟨by omega, by omega, ?_, fun _ => by omega⟩, ?_⟩
      · rw [leastExponent_eq]
        omega
      · rw [hw, finiteBits]
        omega

theorem toBits_of_infinite {x : Float} {negative : Bool} (h : ofFloat x = .infinite negative) :
    x.toBits.toNat = signBits negative + infinityBits := by
  obtain ⟨sign, exponent, fraction, he, hf, hw⟩ := exists_parts x.toBits
  rw [ofFloat, ofBits_eq he hf hw] at h
  split at h
  · split at h <;> cases h
    rw [hw, infinityBits_eq]
    omega
  · split at h <;> cases h

theorem toBits_of_nan {x : Float} (h : ofFloat x = .nan) : x.toBits = 0x7ff8000000000000 := by
  rw [← Float.ofBits_toBits x]
  exact toBits_ofBits_of_nan h

/-- A float is determined by the double that it stands for. -/
theorem ofFloat_injective {x y : Float} (h : ofFloat x = ofFloat y) : x = y := by
  apply Float.toBits_inj.1
  cases hx : ofFloat x with
  | nan => rw [toBits_of_nan hx, toBits_of_nan (h ▸ hx)]
  | infinite negative =>
    exact UInt64.toNat_inj.1 ((toBits_of_infinite hx).trans (toBits_of_infinite (h ▸ hx)).symm)
  | finite negative m e =>
    exact UInt64.toNat_inj.1 ((regular_of_ofFloat hx).2.trans (regular_of_ofFloat (h ▸ hx)).2.symm)

/-- A float made of a word stands for the same double as the word. -/
theorem ofFloat_ofBits (w : UInt64) : ofFloat (.ofBits w) = ofBits w := by
  by_cases h : ofBits w = .nan
  · rw [ofFloat, toBits_ofBits_of_nan h, h]
    decide
  · rw [ofFloat, toBits_ofBits h]

theorem ofFloat_nan : ofFloat (.ofBits 0x7ff8000000000000) = .nan := by
  rw [ofFloat_ofBits]
  decide

end Scriptlet.Double
