import Scriptlet.Proofs.DoubleDivision
import Scriptlet.Proofs.PlainText

/-!
The text that shows a number, found step by step. Words stand for what is not finite and for the
zeros; the listing of any other number is read as a decimal, which is freed of the zeros at its end
and laid out without a power of ten. The style in which numbers are shown comes to the same.
-/

namespace Scriptlet

namespace Decimal

variable {d d' : Decimal}

/-- Among the decimals of one number only one does not end in a zero. -/
theorem eq_of_value_eq (h : d.coefficient % 10 ≠ 0) (h' : d'.coefficient % 10 ≠ 0)
    (hv : d.value = d'.value) : d = d' := by
  wlog hle : d.exponent ≤ d'.exponent generalizing d d'
  · exact (this h' h hv.symm (le_of_not_ge hle)).symm
  obtain ⟨k, hk⟩ := Int.le.dest hle
  obtain ⟨c, e⟩ := d
  obtain ⟨c', e'⟩ := d'
  obtain rfl : e + k = e' := hk
  have hc : c = c' * 10 ^ k := eq_mul_pow_of_zpow (by decide) hv
  cases k with
  | zero =>
    rw [pow_zero, mul_one] at hc
    rw [hc, Nat.cast_zero, add_zero]
  | succ k =>
    rw [pow_succ, ← mul_assoc] at hc
    exact absurd (hc ▸ Nat.mul_mod_left _ 10) h

theorem trim_eq_of_value_eq (h : d.coefficient % 10 ≠ 0) (hv : d'.value = d.value) : d'.trim = d := by
  have hv := d'.value_trim.trans hv
  refine eq_of_value_eq (d'.coefficient_trim.resolve_left fun hzero => h ?_) h hv
  rw [value, hzero, Nat.cast_zero, zero_mul, value, eq_comm, mul_eq_zero] at hv
  rw [Nat.cast_eq_zero.1 (hv.resolve_right (zpow_ne_zero _ (by norm_num)))]

end Decimal

namespace NumberStyle

/-- What is shown for a number, if its listing is a decimal. -/
def shownBySteps (x : Float) : Option String :=
  if x.isNaN then some "NaN"
  else if x.isInf then some (if 0 < x then "inf" else "-inf")
  else if x == 0 then some (if Double.copySign 1 x < 0 then "-0" else "0")
  else
    match Numeral.parse (listed.render x).toList with
    | some (.decimal negative d) => some <| String.ofList <|
        double.sign negative ++ positional [] (Nat.toDigits 10 d.trim.coefficient) d.trim.exponent
    | _ => none

theorem isInf_iff {x : Float} : x.isInf = true ↔ ∃ s, Double.ofFloat x = .infinite s := by
  have hx : x.isInf = x.toModel.unpack.isInf := rfl
  rw [hx, Double.ofFloat_eq_ofUnpacked]
  cases x.toModel.unpack with
  | infinity s => exact iff_of_true rfl ⟨_, rfl⟩
  | notANumber | zero s | finite s m e hm => exact iff_of_false nofun nofun

/-- A listing is read as the decimal that it was written from, up to zeros at its end. -/
theorem exists_parse_listed {x : Float} {s : Bool} {m : ℕ} {e : ℤ}
    (hx : Double.ofFloat x = .finite s m e) (hm : 0 < m) :
    ∃ d, Numeral.parse (listed.render x).toList = some (.decimal s d) ∧ d.trim = .shortest m e := by
  have hlast := (Decimal.coefficient_shortest (Double.regular_of_ofFloat hx).1 hm).2
  obtain ⟨d, hv, hw⟩ :=
    spelledBy_decimal readable_listed (.shortest m e) s _ (written_sign s)
  have hrender : (listed.render x).toList = double.sign s ++ listed.decimal (.shortest m e) := by
    rw [render, String.toList_ofList, hx, double, if_neg hm.ne']
  exact ⟨d, Numeral.parse_of_written (hrender ▸ hw), Decimal.trim_eq_of_value_eq hlast hv⟩

/-- The text that shows a number is found by these steps. -/
theorem shownBySteps_eq (x : Float) : shownBySteps x = some (shown.render x) := by
  rw [shownBySteps]
  cases hx : Double.ofFloat x with
  | nan =>
    rw [if_pos (Double.isNaN_iff.2 hx), render, hx]
    rfl
  | infinite s =>
    have hnan : ¬ x.isNaN = true := by
      intro h
      cases hx.symm.trans (Double.isNaN_iff.1 h)
    obtain rfl := Double.ofFloat_injective (hx.trans (Double.ofFloat_withSign_infinityBits s).symm)
    rw [if_neg hnan, if_pos (isInf_iff.2 ⟨s, hx⟩), render, hx]
    cases s <;> rfl
  | finite s m e =>
    have hnan : ¬ x.isNaN = true := by
      intro h
      cases hx.symm.trans (Double.isNaN_iff.1 h)
    have hinf : ¬ x.isInf = true := by
      intro h
      obtain ⟨t, ht⟩ := isInf_iff.1 h
      cases hx.symm.trans ht
    rw [if_neg hnan, if_neg hinf]
    rcases m.eq_zero_or_pos with rfl | hm
    · obtain ⟨-, rfl⟩ := (Double.regular_of_ofFloat hx).1.eq_zero (by rw [Nat.cast_zero, zero_mul])
      rw [if_pos (Double.beq_zero_iff.2 ⟨s, hx⟩), render, hx, Double.eq_withSign_zero hx,
        Double.copySign_one]
      cases s <;> decide
    · obtain ⟨d, hd, htrim⟩ := exists_parse_listed hx hm
      have hzero : ¬ (x == 0) = true := by
        rw [Double.beq_zero_iff, hx]
        rintro ⟨-, ⟨⟩⟩
        exact absurd hm (lt_irrefl 0)
      simp only [if_neg hzero, hd, htrim]
      rw [render, hx, double, if_neg hm.ne']
      rfl

end NumberStyle

end Scriptlet
