import Scriptlet.Proofs.NumberRoundTrip

/-!
The two texts of a number say the same. The one that shows it is written out in full: it has no
power of ten, no zero to spare on either side, and a point only if the number is not whole.
-/

namespace Scriptlet

namespace Decimal

variable {m : ℕ} {e : ℤ} {d : Decimal}

theorem coefficient_trim_le (d : Decimal) : d.trim.coefficient ≤ d.coefficient := by
  fun_induction trim d with
  | case1 d h ih => exact ih.trans (Nat.div_le_self _ _)
  | case2 => exact Nat.le_refl _

theorem pow_log_le_magnitude (hm : 0 < m) (e : ℤ) :
    (10 : ℚ) ^ (Double.magnitude m e).log 10 ≤ m * 2 ^ e ∧
      (m : ℚ) * 2 ^ e < 10 ^ ((Double.magnitude m e).log 10 + 1) := by
  have hnum : 0 < (Double.magnitude m e).num := Fraction.num_times_pos two_pos hm e
  have hden : 0 < (Double.magnitude m e).den := Fraction.den_times_pos two_pos Nat.one_pos e
  have hpos : (0 : ℚ) < m * 2 ^ e := mul_pos (Nat.cast_pos.2 hm) (Double.two_zpow_pos e)
  rw [Fraction.log_eq (by decide) hnum hden, magnitude_value]
  exact ⟨Int.zpow_log_le_self (by decide) hpos, Int.lt_zpow_succ_log_self (by decide) _⟩

theorem scaled_value (m : ℕ) (e place : ℤ) :
    ((Double.magnitude m e).times 10 (-place)).value = m * 2 ^ e / 10 ^ place := by
  rw [Fraction.value_times (by decide), magnitude_value, zpow_neg, div_eq_mul_inv, Nat.cast_ofNat]

theorem den_scaled_pos (m : ℕ) (e place : ℤ) :
    0 < ((Double.magnitude m e).times 10 (-place)).den :=
  Fraction.den_times_pos (by decide) (Fraction.den_times_pos two_pos Nat.one_pos e) _

/-- On the grid that starts `k` places behind the first digit a coefficient has at most `k + 1`
digits, or is the next power of ten. -/
theorem coefficient_of_onGrid (hm : 0 < m) {k : ℕ}
    (h : onGrid m e ((Double.magnitude m e).log 10 - k) = some d) :
    d.coefficient ≤ 10 ^ (k + 1) := by
  set place := (Double.magnitude m e).log 10 - k with hplace
  set scaled := (Double.magnitude m e).times 10 (-place) with hscaled
  have hden : 0 < scaled.den := den_scaled_pos m e place
  have hlt : scaled.value < (10 ^ (k + 1) : ℕ) := by
    have hten : (0 : ℚ) < 10 ^ place := zpow_pos (by norm_num) _
    have hsum : ((k + 1 : ℕ) : ℤ) + place = (Double.magnitude m e).log 10 + 1 := by
      push_cast
      omega
    rw [hscaled, scaled_value, div_lt_iff₀ hten, Nat.cast_pow, Nat.cast_ofNat, ← zpow_natCast,
      ← zpow_add₀ (by norm_num), hsum]
    exact (pow_log_le_magnitude hm e).2
  have hnear : scaled.round ≤ 10 ^ (k + 1) := (Fraction.round_nearest hden).le_of_le hlt.le
  have hfloor : scaled.floor < 10 ^ (k + 1) := by
    have hpart := Fraction.value_sub_floor hden
    have hnonneg : (0 : ℚ) ≤ (scaled.num % scaled.den : ℕ) / scaled.den := by positivity
    have hle : (scaled.floor : ℚ) ≤ scaled.value := by
      rw [Fraction.floor]
      linarith
    exact_mod_cast hle.trans_lt hlt
  rw [onGrid] at h
  have hmem := List.mem_of_find?_eq_some h
  simp only [List.map_cons, List.map_nil, List.mem_cons, List.not_mem_nil, or_false] at hmem
  rcases hmem with rfl | rfl
  · exact hnear
  · rcases scaled.round_eq_floor_or with hround | hround
    all_goals
      simp only [← hscaled, hround]
      omega

/-- Seventeen digits tell more numbers apart than there are mantissas. -/
theorem zpow_lt_gapBelow (h : Double.Regular m e) (hm : 0 < m) :
    (10 : ℚ) ^ ((Double.magnitude m e).log 10 - 16) < Double.gapBelow m e := by
  have hlow := (pow_log_le_magnitude hm e).1
  have hpos := Double.two_zpow_pos e
  have hsplit : (10 : ℚ) ^ ((Double.magnitude m e).log 10 - 16) =
      10 ^ (Double.magnitude m e).log 10 / 10 ^ 16 := by
    rw [zpow_sub₀ (by norm_num)]
    norm_cast
  rw [hsplit, div_lt_iff₀ (by norm_num), Double.gapBelow]
  split
  next hfull =>
    have hcast : (m : ℚ) = 2 ^ 52 := by exact_mod_cast hfull.1
    rw [hcast] at hlow
    linarith
  next =>
    have hle : (m : ℚ) * 2 ^ e ≤ (2 ^ 53 : ℕ) * 2 ^ e := Double.cast_mul_two_zpow_le h.lt.le e
    push_cast at hle
    linarith

theorem exists_onGrid_seventeen (h : Double.Regular m e) (hm : 0 < m) :
    ∃ d, onGrid m e ((Double.magnitude m e).log 10 - (16 : ℕ)) = some d := by
  set place := (Double.magnitude m e).log 10 - (16 : ℕ) with hplace
  set scaled := (Double.magnitude m e).times 10 (-place) with hscaled
  have hten : (0 : ℚ) < 10 ^ place := zpow_pos (by norm_num) _
  have hgap : (10 : ℚ) ^ place < Double.gapBelow m e := zpow_lt_gapBelow h hm
  have hle := Double.gapBelow_le m e
  have hnear := Fraction.round_nearest (den_scaled_pos m e place)
  have hbelow := hnear.sub_le
  have habove := hnear.le_add
  rw [scaled_value, le_div_iff₀ hten] at hbelow
  rw [scaled_value, div_le_iff₀ hten] at habove
  have hcovers : Double.covers m e (⟨scaled.round, place⟩ : Decimal).toFraction = true := by
    rw [Double.covers_iff hm (den_toFraction_pos _), value_toFraction, value]
    simp only
    refine ⟨⟨?_, ?_⟩, .inr ⟨?_, ?_⟩⟩ <;> linarith
  rw [onGrid]
  simp only [List.map_cons]
  exact ⟨_, List.find?_cons_of_pos hcovers⟩

theorem exists_onGrid_shortest (h : Double.Regular m e) (hm : 0 < m) :
    ∃ d : Decimal, d.coefficient ≤ 10 ^ 17 ∧ shortest m e = d.trim := by
  rw [shortest]
  set found := (List.range 17).findSome? fun k : ℕ =>
    onGrid m e ((Double.magnitude m e).log 10 - k) with hfound
  cases hd : found with
  | none =>
    obtain ⟨d, hgrid⟩ := exists_onGrid_seventeen h hm
    have hnone := List.findSome?_eq_none_iff.1 (hfound.symm.trans hd) 16 (by simp)
    rw [hgrid] at hnone
    cases hnone
  | some d =>
    obtain ⟨k, hk, hgrid⟩ := List.exists_of_findSome?_eq_some (hfound.symm.trans hd)
    have hle : k + 1 ≤ 17 := List.mem_range.1 hk
    exact ⟨d, (coefficient_of_onGrid hm hgrid).trans (Nat.pow_le_pow_right (by decide) hle), rfl⟩

theorem coefficient_shortest_ne_zero (hm : 0 < m) (e : ℤ) : (shortest m e).coefficient ≠ 0 := by
  intro hzero
  have hlow := (covered_shortest hm e).1.1
  have hgap := Double.gapBelow_le m e
  have hpos := Double.two_zpow_pos e
  have hle : ((1 : ℕ) : ℚ) * 2 ^ e ≤ m * 2 ^ e := Double.cast_mul_two_zpow_le hm e
  rw [value, hzero, Nat.cast_zero, zero_mul] at hlow
  rw [Nat.cast_one, one_mul] at hle
  linarith

theorem coefficient_shortest (h : Double.Regular m e) (hm : 0 < m) :
    (shortest m e).coefficient < 10 ^ 17 ∧ (shortest m e).coefficient % 10 ≠ 0 := by
  have hne := coefficient_shortest_ne_zero hm e
  obtain ⟨d, hle, hd⟩ := exists_onGrid_shortest h hm
  have htrim := d.coefficient_trim_le
  rw [hd] at hne ⊢
  have hlast := d.coefficient_trim.resolve_left hne
  exact ⟨by omega, hlast⟩

/-- The shortest decimal is whole just if the double is. -/
theorem exists_value_shortest_iff (hm : 0 < m) (e : ℤ) :
    (∃ k : ℕ, (shortest m e).value = k) ↔ ∃ k : ℕ, (m : ℚ) * 2 ^ e = k := by
  constructor
  · rintro ⟨k, hk⟩
    obtain ⟨⟨hlow, hhigh⟩, -⟩ := covered_shortest hm e
    have hgap := Double.gapBelow_le m e
    rw [hk] at hlow hhigh
    rcases le_or_gt 0 e with he | he
    · obtain ⟨n, rfl⟩ := Int.eq_ofNat_of_zero_le he
      exact ⟨m * 2 ^ n, by push_cast; rfl⟩
    · obtain ⟨n, hn⟩ := Int.eq_ofNat_of_zero_le (Int.neg_nonneg_of_nonpos he.le)
      obtain rfl : e = -n := by omega
      have hpos : (0 : ℚ) < 2 ^ n := by positivity
      have hone : (2 : ℚ) ^ (-n : ℤ) * 2 ^ n = 1 := by
        rw [zpow_neg, zpow_natCast, inv_mul_cancel₀ hpos.ne']
      -- the distance of `m` to a whole number is at most a half
      have habove : (m : ℚ) < (k * 2 ^ n + 1 : ℕ) := by
        push_cast
        nlinarith
      have hbelow : ((k * 2 ^ n : ℕ) : ℚ) < (m + 1 : ℕ) := by
        push_cast
        nlinarith
      have heq : m = k * 2 ^ n := by
        have := Nat.cast_lt.1 habove
        have := Nat.cast_lt.1 hbelow
        omega
      refine ⟨k, ?_⟩
      rw [heq, Nat.cast_mul, mul_assoc, Nat.cast_pow, Nat.cast_ofNat, mul_comm (2 ^ n), hone,
        mul_one]
  · rintro ⟨k, hk⟩
    obtain ⟨n, hn⟩ := Int.eq_ofNat_of_zero_le (exponent_shortest_nonneg hm hk)
    exact ⟨(shortest m e).coefficient * 10 ^ n, by rw [value, hn, zpow_natCast]; push_cast; rfl⟩

end Decimal

theorem getLast?_toDigits (n : ℕ) : (Nat.toDigits 10 n).getLast? = some (n % 10).digitChar := by
  rw [Nat.toDigits_eq_if (by decide)]
  split
  next h => rw [Nat.mod_eq_of_lt h, List.getLast?_singleton]
  next => exact List.getLast?_concat

/-- A number's digits begin with a zero for zero alone. -/
theorem head?_toDigits {n : ℕ} (hn : 0 < n) : (Nat.toDigits 10 n).head? ≠ some '0' := by
  induction n using Nat.strongRecOn with
  | ind n ih =>
    rw [Nat.toDigits_eq_if (by decide)]
    split
    next h => simpa using hn.ne'
    next h =>
      rw [List.head?_append_of_ne_nil _ Nat.toDigits_ne_nil]
      exact ih (n / 10) (by omega) (by omega)

def plainText (whole fraction : List Char) : List Char :=
  whole ++ if fraction = [] then [] else '.' :: fraction

/-- The digits in front of a point and behind it say `q`, and none is there to spare: the ones in
front begin with a zero only if it is alone, the ones behind do not end with a zero, and there are
none behind if `q` is whole. -/
structure Plain (q : ℚ) (whole fraction : List Char) : Prop where
  digits_whole : Digits whole
  whole_ne_nil : whole ≠ []
  value_eq : (Nat.ofDigitChars 10 (whole ++ fraction) 0 : ℚ) / 10 ^ fraction.length = q
  head_whole : whole.head? = some '0' → whole = ['0']
  digits_fraction : Digits fraction
  last_fraction : fraction.getLast? ≠ some '0'
  fraction_eq_nil_iff : fraction = [] ↔ ∃ k : ℕ, q = k

/-- The digits of a numeral without a power of ten say what the numeral does. -/
theorem Decimal.SpelledBy.value_eq {d : Decimal} {whole fraction : List Char}
    (h : d.SpelledBy (plainText whole fraction)) (hw : Digits whole) (hf : Digits fraction)
    (hne : whole ≠ []) :
    (Nat.ofDigitChars 10 (whole ++ fraction) 0 : ℚ) / 10 ^ fraction.length = d.value := by
  obtain ⟨d', hv, hd'⟩ := h false [] .absent
  have hdigits : WrittenDigits (whole ++ fraction) fraction.length (plainText whole fraction) := by
    rw [plainText]
    split
    next hnone =>
      subst hnone
      rw [List.append_nil]
      exact .whole hw
    next => exact .point hw hf
  have hwritten := WrittenNumeral.decimal .absent hdigits (by simp [hne]) .absent
  rw [List.append_nil] at hwritten
  -- a text is no two numerals
  have heq := (Numeral.plain?_of_written hd').symm.trans (Numeral.plain?_of_written hwritten)
  cases heq
  rw [← hv, Decimal.value, zero_sub, zpow_neg, zpow_natCast, div_eq_mul_inv]

theorem plainText_nil (whole : List Char) : plainText whole [] = whole := List.append_nil whole

theorem plainText_of_ne_nil {fraction : List Char} (h : fraction ≠ []) (whole : List Char) :
    plainText whole fraction = whole ++ '.' :: fraction := by
  rw [plainText, if_neg h]

/-- The digits of a coefficient without a zero on either side. -/
structure Decimal.HasDigits (d : Decimal) (digits : List Char) : Prop where
  all_digits : Digits digits
  ne_nil : digits ≠ []
  count : Nat.ofDigitChars 10 digits 0 = d.coefficient
  head : digits.head? ≠ some '0'
  last : digits.getLast? ≠ some '0'

theorem Decimal.hasDigits_toDigits {d : Decimal} (h : d.coefficient % 10 ≠ 0) :
    d.HasDigits (Nat.toDigits 10 d.coefficient) where
  all_digits := digits_toDigits d.coefficient
  ne_nil := Nat.toDigits_ne_nil
  count := Nat.ofDigitChars_ten_toDigits
  head := head?_toDigits (by omega)
  last := by
    rw [getLast?_toDigits, Ne, Option.some.injEq, Nat.digitChar_eq_zero]
    exact h

namespace NumberStyle

section Positional

variable {d : Decimal} {digits : List Char} {places : ℕ}

theorem plain_zeros (h : d.HasDigits digits) (he : 0 ≤ d.exponent) :
    Plain d.value (digits ++ List.replicate d.exponent.toNat '0') [] := by
  have hspelled := spelledBy_zeros h.all_digits h.ne_nil h.count he (.inl rfl)
  have hwhole := digits_append h.all_digits (digits_zeros d.exponent.toNat)
  have hne : digits ++ List.replicate d.exponent.toNat '0' ≠ [] := by simp [h.ne_nil]
  obtain ⟨k, hk⟩ := Int.eq_ofNat_of_zero_le he
  have hvalue : d.value = (d.coefficient * 10 ^ k : ℕ) := by
    rw [Decimal.value, hk, zpow_natCast]
    push_cast
    rfl
  exact {
    digits_whole := hwhole
    whole_ne_nil := hne
    value_eq := Decimal.SpelledBy.value_eq hspelled hwhole (by simp [Digits]) hne
    head_whole := fun hz => absurd ((List.head?_append_of_ne_nil _ h.ne_nil).symm.trans hz) h.head
    digits_fraction := by simp [Digits]
    last_fraction := by simp
    fraction_eq_nil_iff := iff_of_true rfl ⟨_, hvalue⟩ }

theorem plain_point (h : d.HasDigits digits) (he : -(places : ℤ) = d.exponent) (hpos : 0 < places)
    (hlt : places < digits.length) (hq : ¬ ∃ k : ℕ, d.value = k) :
    Plain d.value (digits.take (digits.length - places))
      (digits.drop (digits.length - places)) := by
  have hspelled := spelledBy_point h.all_digits h.ne_nil h.count he hlt.le
  set front := digits.take (digits.length - places) with hfront
  set back := digits.drop (digits.length - places) with hback
  have hwhole : Digits front := fun c hc => h.all_digits c (List.mem_of_mem_take hc)
  have hfraction : Digits back := fun c hc => h.all_digits c (List.mem_of_mem_drop hc)
  have hfne : front ≠ [] := by
    rw [hfront, Ne, List.take_eq_nil_iff, not_or]
    exact ⟨by omega, h.ne_nil⟩
  have hbne : back ≠ [] := by
    rw [hback, Ne, List.drop_eq_nil_iff]
    omega
  rw [← plainText_of_ne_nil hbne] at hspelled
  exact {
    digits_whole := hwhole
    whole_ne_nil := hfne
    value_eq := hspelled.value_eq hwhole hfraction hfne
    head_whole := fun hz => by
      rw [hfront, List.head?_take, if_neg (by omega)] at hz
      exact absurd hz h.head
    digits_fraction := hfraction
    last_fraction := by
      rw [hback, List.getLast?_drop, if_neg (by omega)]
      exact h.last
    fraction_eq_nil_iff := iff_of_false hbne hq }

theorem plain_point_zeros (h : d.HasDigits digits) (he : -(places : ℤ) = d.exponent)
    (hle : digits.length ≤ places) (hq : ¬ ∃ k : ℕ, d.value = k) :
    Plain d.value ['0'] (List.replicate (places - digits.length) '0' ++ digits) := by
  have hspelled := spelledBy_point_zeros h.all_digits h.count he hle
  set back := List.replicate (places - digits.length) '0' ++ digits with hback
  have hfraction : Digits back := digits_append (digits_zeros _) h.all_digits
  have hbne : back ≠ [] := by simp [hback, h.ne_nil]
  have htext : plainText ['0'] back = '0' :: '.' :: back := plainText_of_ne_nil hbne ['0']
  rw [← htext] at hspelled
  exact {
    digits_whole := digits_zeros 1
    whole_ne_nil := List.cons_ne_nil _ _
    value_eq := hspelled.value_eq (digits_zeros 1) hfraction (List.cons_ne_nil _ _)
    head_whole := fun _ => rfl
    digits_fraction := hfraction
    last_fraction := by
      rw [hback, List.getLast?_append_of_ne_nil _ h.ne_nil]
      exact h.last
    fraction_eq_nil_iff := iff_of_false hbne hq }

end Positional

/-- Without a power of ten a decimal that does not end in a zero is a plain text. -/
theorem exists_plain_positional {d : Decimal} (hd : d.coefficient % 10 ≠ 0) :
    ∃ whole fraction, Plain d.value whole fraction ∧
      positional [] (Nat.toDigits 10 d.coefficient) d.exponent = plainText whole fraction := by
  have h := Decimal.hasDigits_toDigits hd
  rw [positional]
  split
  next he => exact ⟨_, _, plain_zeros h he, rfl⟩
  next he =>
    have hexp : -((-d.exponent).toNat : ℤ) = d.exponent := by omega
    have hq : ¬ ∃ k : ℕ, d.value = k := by
      rintro ⟨k, hk⟩
      exact he (Decimal.exponent_nonneg hd hk)
    split
    next hlt =>
      have hp := plain_point h hexp (by omega) hlt hq
      have hne := mt hp.fraction_eq_nil_iff.1 hq
      exact ⟨_, _, hp, (plainText_of_ne_nil hne _).symm⟩
    next hle =>
      have hp := plain_point_zeros h hexp (not_lt.1 hle) hq
      have hne := mt hp.fraction_eq_nil_iff.1 hq
      exact ⟨_, _, hp, (plainText_of_ne_nil hne ['0']).symm⟩

/-- The listing of a finite double that is not zero is a numeral of seventeen digits at most, apart
from zeros at its end, and the text that shows the double says the very same number: with its sign,
a point only if it is not whole, no digit to spare and no power of ten, however large or small it
is. -/
theorem shown_says_listed {x : Float} {negative : Bool} {m : ℕ} {e : ℤ}
    (hx : Double.ofFloat x = .finite negative m e) (hm : 0 < m) :
    ∃ d listedAs : Decimal, ∃ whole fraction : List Char,
      d.coefficient < 10 ^ 17 ∧
      WrittenNumeral (.decimal negative listedAs) (listed.render x).toList ∧
      listedAs.value = d.value ∧ Plain d.value whole fraction ∧
      (shown.render x).toList = (if negative then ['-'] else []) ++ plainText whole fraction ∧
      (fraction = [] ↔ ∃ k : ℕ, (m : ℚ) * 2 ^ e = k) := by
  have hregular := (Double.regular_of_ofFloat hx).1
  obtain ⟨hcount, hlast⟩ := Decimal.coefficient_shortest hregular hm
  obtain ⟨listedAs, hvalue, hlisted⟩ :=
    spelledBy_decimal readable_listed (.shortest m e) negative _ (written_sign negative)
  obtain ⟨whole, fraction, hplain, htext⟩ := exists_plain_positional hlast
  have hrender (style : NumberStyle) : (style.render x).toList =
      double.sign negative ++ style.decimal (.shortest m e) := by
    rw [render, String.toList_ofList, hx, double, if_neg hm.ne']
  refine ⟨.shortest m e, listedAs, whole, fraction, hcount, ?_, hvalue, hplain, ?_, ?_⟩
  · rwa [hrender]
  · rw [hrender, ← htext]
    rfl
  · rw [hplain.fraction_eq_nil_iff, Decimal.exists_value_shortest_iff hm]

/-- A number of 23 places in front of the point, listed with a power of ten. -/
theorem shown_says_listed_whole :
    let x : Float := .ofBits 0xc4b52d02c7e14af6
    Double.ofFloat x = .finite true 5960464477539062 24 ∧
      ∃ listedAs : Decimal, ∃ whole : List Char, Plain listedAs.value whole [] ∧
        WrittenNumeral (.decimal true listedAs) (listed.render x).toList ∧
        (shown.render x).toList = '-' :: whole := by
  intro x
  have hx : Double.ofFloat x = .finite true 5960464477539062 24 := by
    rw [Double.ofFloat_ofBits]
    decide
  obtain ⟨d, listedAs, whole, fraction, -, hlisted, hvalue, hplain, htext, hwhole⟩ :=
    shown_says_listed hx (by decide)
  have hnone : fraction = [] := hwhole.2 ⟨5960464477539062 * 2 ^ 24, by norm_num⟩
  subst hnone
  rw [plainText_nil] at htext
  exact ⟨hx, listedAs, whole, hvalue ▸ hplain, hlisted, htext⟩

end NumberStyle

end Scriptlet
