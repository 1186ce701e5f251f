import Scriptlet.Number.Style
import Scriptlet.Proofs.NumberReading

/-!
The texts of numbers are numerals. However a style sets the digits, the point and the power of ten,
the text says what the decimal says; so a number is read back from its text.
-/

namespace Scriptlet

theorem digits_toDigits (n : ℕ) : Digits (Nat.toDigits 10 n) := fun _ h =>
  Nat.isDigit_of_mem_toDigits (by decide) (by decide) h

theorem digits_zeros (n : ℕ) : Digits (List.replicate n '0') := fun c h => by
  rw [List.eq_of_mem_replicate h]
  decide

theorem digits_append {front back : List Char} (hf : Digits front) (hb : Digits back) :
    Digits (front ++ back) := List.forall_mem_append.2 ⟨hf, hb⟩

/-- With a sign in front the text is a numeral that says as much as the decimal. -/
def Decimal.SpelledBy (d : Decimal) (text : List Char) : Prop :=
  ∀ negative mark, WrittenSign negative mark →
    ∃ d' : Decimal, d'.value = d.value ∧ WrittenNumeral (.decimal negative d') (mark ++ text)

namespace Decimal

variable {d : Decimal} {digits text power : List Char} {places : ℕ} {e : ℤ}

theorem spelledBy_of_written (hd : WrittenDigits digits places text) (hne : digits ≠ [])
    (hp : WrittenPower e power)
    (hv : (Nat.ofDigitChars 10 digits 0 : ℚ) * 10 ^ (e - places) = d.value) :
    d.SpelledBy (text ++ power) := fun _ _ hs =>
  ⟨⟨Nat.ofDigitChars 10 digits 0, e - places⟩, hv, .decimal hs hd hne hp⟩

theorem spelledBy_of_digits (hd : WrittenDigits digits places text) (hne : digits ≠ [])
    (hv : (Nat.ofDigitChars 10 digits 0 : ℚ) * 10 ^ (-places : ℤ) = d.value) :
    d.SpelledBy text := by
  have h := spelledBy_of_written (d := d) hd hne .absent (by rwa [zero_sub])
  rwa [List.append_nil] at h

end Decimal

namespace NumberStyle

/-- Whole numbers end with a point and a zero or with nothing, and the word for a number that is none
is the usual one. -/
structure Readable (style : NumberStyle) : Prop where
  wholeEnd : style.wholeEnd.toList = [] ∨ style.wholeEnd.toList = ['.', '0']
  nan : style.nan.toList.map Char.toLower = "nan".toList

theorem readable_shown : shown.Readable := ⟨by decide, by decide⟩

theorem readable_listed : listed.Readable := ⟨by decide, by decide⟩

section Positional

variable {d : Decimal} {digits : List Char}

/-- No power of ten is lost: the zeros behind the digits stand for it. -/
theorem spelledBy_zeros (hd : Digits digits) (hne : digits ≠ [])
    (hv : Nat.ofDigitChars 10 digits 0 = d.coefficient) (he : 0 ≤ d.exponent) {wholeEnd : List Char}
    (hw : wholeEnd = [] ∨ wholeEnd = ['.', '0']) :
    d.SpelledBy (digits ++ List.replicate d.exponent.toNat '0' ++ wholeEnd) := by
  obtain ⟨k, hk⟩ := Int.eq_ofNat_of_zero_le he
  rw [hk, Int.toNat_natCast]
  have hd' := digits_append hd (digits_zeros k)
  have hv' : Nat.ofDigitChars 10 (digits ++ List.replicate k '0') 0 = 10 ^ k * d.coefficient := by
    rw [Nat.ofDigitChars_append, hv, Nat.ofDigitChars_replicate_zero]
  rcases hw with rfl | rfl
  · rw [List.append_nil]
    refine Decimal.spelledBy_of_digits (.whole hd') (by simp [hne]) ?_
    rw [hv', Decimal.value, hk, zpow_natCast]
    push_cast
    ring
  · have hp : WrittenDigits (digits ++ List.replicate k '0' ++ List.replicate 1 '0')
        (List.replicate 1 '0').length (digits ++ List.replicate k '0' ++ '.' :: List.replicate 1 '0') :=
      .point hd' (digits_zeros 1)
    refine Decimal.spelledBy_of_digits hp (by simp) ?_
    rw [Nat.ofDigitChars_append, hv', Nat.ofDigitChars_replicate_zero, List.length_replicate,
      Decimal.value, hk, zpow_natCast, zpow_neg]
    push_cast
    field_simp

/-- The point stands among the digits. -/
theorem spelledBy_point {places : ℕ} (hd : Digits digits) (hne : digits ≠ [])
    (hv : Nat.ofDigitChars 10 digits 0 = d.coefficient) (he : -(places : ℤ) = d.exponent)
    (hle : places ≤ digits.length) :
    d.SpelledBy (digits.take (digits.length - places) ++
      '.' :: digits.drop (digits.length - places)) := by
  set k := digits.length - places
  have hp : WrittenDigits (digits.take k ++ digits.drop k) (digits.drop k).length
      (digits.take k ++ '.' :: digits.drop k) :=
    .point (fun c h => hd c (List.mem_of_mem_take h)) fun c h => hd c (List.mem_of_mem_drop h)
  rw [List.take_append_drop, List.length_drop, Nat.sub_sub_self hle] at hp
  exact Decimal.spelledBy_of_digits hp hne (by rw [hv, he, Decimal.value])

/-- The point stands in front of the digits, with zeros between. -/
theorem spelledBy_point_zeros {places : ℕ} (hd : Digits digits)
    (hv : Nat.ofDigitChars 10 digits 0 = d.coefficient) (he : -(places : ℤ) = d.exponent)
    (hle : digits.length ≤ places) :
    d.SpelledBy ('0' :: '.' :: (List.replicate (places - digits.length) '0' ++ digits)) := by
  set zeros := List.replicate (places - digits.length) '0' with hzeros
  have hp : WrittenDigits (['0'] ++ (zeros ++ digits)) (zeros ++ digits).length
      (['0'] ++ '.' :: (zeros ++ digits)) :=
    .point (digits_zeros 1) (digits_append (digits_zeros _) hd)
  have hlength : (zeros ++ digits).length = places := by
    rw [List.length_append, hzeros, List.length_replicate, Nat.sub_add_cancel hle]
  have hcount : Nat.ofDigitChars 10 (['0'] ++ (zeros ++ digits)) 0 = d.coefficient := by
    rw [Nat.ofDigitChars_append, Nat.ofDigitChars_append, hzeros]
    change Nat.ofDigitChars 10 digits (Nat.ofDigitChars 10 _ 0) = _
    rw [Nat.ofDigitChars_replicate_zero, Nat.mul_zero, hv]
  exact Decimal.spelledBy_of_digits hp (by simp) (by rw [hcount, hlength, he, Decimal.value])

end Positional

theorem spelledBy_positional (d : Decimal) {wholeEnd : List Char}
    (hw : wholeEnd = [] ∨ wholeEnd = ['.', '0']) :
    d.SpelledBy (positional wholeEnd (Nat.toDigits 10 d.coefficient) d.exponent) := by
  have hd := digits_toDigits d.coefficient
  have hv : Nat.ofDigitChars 10 (Nat.toDigits 10 d.coefficient) 0 = d.coefficient :=
    Nat.ofDigitChars_ten_toDigits
  have hne : Nat.toDigits 10 d.coefficient ≠ [] := Nat.toDigits_ne_nil
  rw [positional]
  split
  next he => exact spelledBy_zeros hd hne hv he hw
  next he =>
    have hexp : -((-d.exponent).toNat : ℤ) = d.exponent := by omega
    split
    next hlt => exact spelledBy_point hd hne hv hexp hlt.le
    next hle => exact spelledBy_point_zeros hd hv hexp (not_lt.1 hle)

/-- One digit and perhaps a point and the others behind it. -/
theorem writtenDigits_point_behind_first {digits : List Char} (hd : Digits digits) (hne : digits ≠ []) :
    WrittenDigits digits (digits.length - 1)
      (digits.take 1 ++ if digits.length ≤ 1 then [] else '.' :: digits.drop 1) := by
  obtain ⟨c, rest, rfl⟩ := List.exists_cons_of_ne_nil hne
  cases rest with
  | nil => exact .whole hd
  | cons c' rest =>
    have hfirst : Digits [c] := List.forall_mem_singleton.2 (hd c List.mem_cons_self)
    exact .point hfirst fun _ h => hd _ (List.mem_cons_of_mem _ h)

theorem writtenPower_scientific (lead : ℤ) :
    WrittenPower lead ('e' :: (if lead < 0 then '-' else '+') ::
      (List.replicate (2 - (Nat.toDigits 10 lead.natAbs).length) '0' ++ Nat.toDigits 10 lead.natAbs)) := by
  set zeros := List.replicate (2 - (Nat.toDigits 10 lead.natAbs).length) '0' with hzeros
  have hd : Digits (zeros ++ Nat.toDigits 10 lead.natAbs) :=
    digits_append (digits_zeros _) (digits_toDigits _)
  have hne : zeros ++ Nat.toDigits 10 lead.natAbs ≠ [] := by simp [Nat.toDigits_ne_nil]
  have hv : Nat.ofDigitChars 10 (zeros ++ Nat.toDigits 10 lead.natAbs) 0 = lead.natAbs := by
    rw [Nat.ofDigitChars_append, hzeros, Nat.ofDigitChars_replicate_zero, Nat.mul_zero,
      Nat.ofDigitChars_ten_toDigits]
  by_cases h : lead < 0
  · have hp := WrittenPower.present (.inl rfl) .minus hne hd
    rw [if_pos rfl, hv] at hp
    have habs : -(lead.natAbs : ℤ) = lead := by omega
    rw [if_pos h]
    rwa [habs] at hp
  · have hp := WrittenPower.present (.inl rfl) .plus hne hd
    rw [if_neg Bool.false_ne_true, hv] at hp
    have habs : (lead.natAbs : ℤ) = lead := by omega
    rw [if_neg h]
    rwa [habs] at hp

theorem spelledBy_scientific (d : Decimal) :
    d.SpelledBy (scientific (Nat.toDigits 10 d.coefficient)
      (d.exponent + (Nat.toDigits 10 d.coefficient).length - 1)) := by
  have hd := digits_toDigits d.coefficient
  have hv : Nat.ofDigitChars 10 (Nat.toDigits 10 d.coefficient) 0 = d.coefficient :=
    Nat.ofDigitChars_ten_toDigits
  have hne : Nat.toDigits 10 d.coefficient ≠ [] := Nat.toDigits_ne_nil
  have hpos := List.length_pos_iff.2 hne
  set lead := d.exponent + (Nat.toDigits 10 d.coefficient).length - 1 with hlead
  have hexp : lead - ((Nat.toDigits 10 d.coefficient).length - 1 : ℕ) = d.exponent := by omega
  have h := Decimal.spelledBy_of_written (d := d) (writtenDigits_point_behind_first hd hne) hne
    (writtenPower_scientific lead) (by rw [hv, hexp, Decimal.value])
  rw [scientific, List.append_assoc (_ ++ _)]
  exact h

theorem spelledBy_decimal {style : NumberStyle} (h : style.Readable) (d : Decimal) :
    d.SpelledBy (style.decimal d) := by
  rw [decimal]
  split
  · exact spelledBy_positional d h.wholeEnd
  · exact spelledBy_scientific d

theorem written_sign (negative : Bool) : WrittenSign negative (double.sign negative) := by
  cases negative
  · exact .absent
  · exact .minus

theorem written_double {style : NumberStyle} (h : style.Readable) (x : Float) :
    ∃ n : Numeral, n.Means x ∧ WrittenNumeral n (style.double (.ofFloat x)) := by
  cases hx : Double.ofFloat x with
  | nan => exact ⟨.nan, hx, .nan .absent h.nan⟩
  | infinite negative => exact ⟨.infinity negative, hx, .infinity (written_sign negative) (.inl (by decide))⟩
  | finite negative m e =>
    have hsign := written_sign negative
    set d : Decimal := if m = 0 then ⟨0, 0⟩ else .shortest m e with hd
    have hc : Double.Covered m e d.value := by
      rcases m.eq_zero_or_pos with rfl | hm
      · have h := Double.covered_self 0 e
        rwa [Nat.cast_zero, zero_mul, ← zero_mul ((10 : ℚ) ^ (0 : ℤ))] at h
      · rw [hd, if_neg hm.ne']
        exact Decimal.covered_shortest hm e
    obtain ⟨d', hv, hw⟩ := spelledBy_decimal h d negative _ (written_sign negative)
    exact ⟨.decimal negative d', Double.rounds_of_covered hx d'.value_nonneg (hv ▸ hc), hw⟩

theorem read?_render {style : NumberStyle} (h : style.Readable) (x : Float) :
    Numeral.read? (style.render x) = some x := by
  obtain ⟨n, hn, hw⟩ := written_double h x
  refine Numeral.read?_eq_some_iff.2 ⟨n, ?_, hn⟩
  rw [render, String.toList_ofList]
  exact Numeral.namesNumeral_of_written hw

end NumberStyle

end Scriptlet
