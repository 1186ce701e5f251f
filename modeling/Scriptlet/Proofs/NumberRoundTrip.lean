import Scriptlet.Proofs.NumberText
import Scriptlet.Proofs.ProgramText

/-!
Numbers survive being shown. The text of a number is read back as the same number, to the bit, and
the text of a whole number is one token that is parsed as that number.
-/

namespace Scriptlet

namespace Decimal

variable {m k : ℕ} {e : ℤ} {d : Decimal}

theorem exponent_le_trim (d : Decimal) : d.exponent ≤ d.trim.exponent := by
  fun_induction trim d with
  | case1 d h ih =>
    simp only at ih
    omega
  | case2 => exact Int.le_refl _

/-- A whole number without zeros at its end has no places behind the point. -/
theorem exponent_nonneg (hd : d.coefficient % 10 ≠ 0) (hv : d.value = k) : 0 ≤ d.exponent := by
  by_contra he
  obtain ⟨n, hn⟩ := Int.eq_ofNat_of_zero_le (show 0 ≤ -d.exponent - 1 by omega)
  have hexp : d.exponent = -((n + 1 : ℕ) : ℤ) := by omega
  rw [value, hexp, zpow_neg, zpow_natCast, mul_inv_eq_iff_eq_mul₀ (by positivity)] at hv
  have hmul : d.coefficient = k * 10 ^ (n + 1) := by exact_mod_cast hv
  rw [hmul, pow_succ, ← mul_assoc, Nat.mul_mod_left] at hd
  exact hd rfl

theorem magnitude_value (m : ℕ) (e : ℤ) : (Double.magnitude m e).value = m * 2 ^ e := by
  rw [Double.magnitude, Fraction.value_times two_pos, Fraction.value_ofNat, Nat.cast_ofNat]

theorem exponent_of_onGrid {place : ℤ} (h : onGrid m e place = some d) : d.exponent = place := by
  rw [onGrid] at h
  have hmem := List.mem_of_find?_eq_some h
  obtain ⟨c, -, rfl⟩ := List.mem_map.1 hmem
  rfl

/-- The grid of whole numbers is hit by every whole number. -/
theorem onGrid_zero (hm : 0 < m) (hk : (m : ℚ) * 2 ^ e = k) : onGrid m e 0 = some ⟨k, 0⟩ := by
  have hden : 0 < (Double.magnitude m e).den := Fraction.den_times_pos two_pos Nat.one_pos e
  have hround := Fraction.round_nearest (Fraction.den_times_pos (by decide : 0 < 10) hden (-0))
  rw [Fraction.value_times (by decide), magnitude_value, hk, neg_zero, zpow_zero, mul_one] at hround
  have hnear : ((Double.magnitude m e).times 10 (-0)).round = k :=
    Nat.le_antisymm (hround.le_of_le le_rfl) (hround.ge_of_ge le_rfl)
  have hcovers : Double.covers m e (⟨k, 0⟩ : Decimal).toFraction = true := by
    rw [Double.covers_iff hm (den_toFraction_pos _), value_toFraction, value, zpow_zero, mul_one, ← hk]
    exact Double.covered_self m e
  rw [onGrid]
  simp only [hnear, List.map_cons]
  exact List.find?_cons_of_pos hcovers

theorem log_nonneg (hm : 0 < m) (hk : (m : ℚ) * 2 ^ e = k) : 0 ≤ (Double.magnitude m e).log 10 := by
  have hnum : 0 < (Double.magnitude m e).num := Fraction.num_times_pos two_pos hm e
  have hden : 0 < (Double.magnitude m e).den := Fraction.den_times_pos two_pos Nat.one_pos e
  rw [Fraction.log_eq (by decide) hnum hden, magnitude_value, hk, Int.log_natCast]
  exact Int.natCast_nonneg _

theorem mem_of_range_eq {front behind : List ℕ} {n i j : ℕ} (h : List.range n = front ++ i :: behind)
    (hj : j < i) : j ∈ front := by
  have hsorted : (front ++ i :: behind).Pairwise (· < ·) := h ▸ List.pairwise_lt_range
  have hi : i < n := List.mem_range.1 (h ▸ List.mem_append_right _ List.mem_cons_self)
  have hmem : j ∈ front ++ i :: behind := h ▸ List.mem_range.2 (hj.trans hi)
  rcases List.mem_append.1 hmem with hfront | hbehind
  · exact hfront
  · rcases List.mem_cons.1 hbehind with rfl | hbehind
    · exact absurd hj (lt_irrefl _)
    · have := (List.pairwise_cons.1 (List.pairwise_append.1 hsorted).2.1).1 j hbehind
      omega

/-- No finer grid is tried than the one of whole numbers. -/
theorem exponent_shortest_nonneg (hm : 0 < m) (hk : (m : ℚ) * 2 ^ e = k) :
    0 ≤ (shortest m e).exponent := by
  rw [shortest]
  set lead := (Double.magnitude m e).log 10 with hlead
  set found := (List.range 17).findSome? fun k : ℕ => onGrid m e (lead - k) with hfound
  cases hd : found with
  | none =>
    rw [Option.getD_none]
    have hv : (exact m e).trim.value = m * 2 ^ e := (value_trim _).trans (value_exact m e)
    rcases coefficient_trim (exact m e) with hzero | htrimmed
    · rw [value, hzero, Nat.cast_zero, zero_mul] at hv
      have : (0 : ℚ) < m * 2 ^ e := mul_pos (Nat.cast_pos.2 hm) (Double.two_zpow_pos e)
      exact absurd hv this.ne
    · exact exponent_nonneg htrimmed (hv.trans hk)
  | some d =>
    rw [Option.getD_some]
    refine le_trans ?_ (exponent_le_trim d)
    obtain ⟨front, i, behind, hrange, hi, hnone⟩ := List.findSome?_eq_some_iff.1 (hfound.symm.trans hd)
    rw [exponent_of_onGrid hi]
    by_contra hneg
    have hlog := log_nonneg hm hk
    have hearlier := hnone lead.toNat (mem_of_range_eq hrange (by omega))
    rw [Int.toNat_of_nonneg hlog, sub_self, onGrid_zero hm hk] at hearlier
    cases hearlier

end Decimal

namespace NumberStyle

/-- A whole number is shown by its digits alone. -/
theorem digits_shown {m k : ℕ} {e : ℤ} (hk : (m : ℚ) * 2 ^ e = k) :
    Digits (shown.double (.finite false m e)) ∧ shown.double (.finite false m e) ≠ [] := by
  set d : Decimal := if m = 0 then ⟨0, 0⟩ else .shortest m e with hd
  have he : 0 ≤ d.exponent := by
    rcases m.eq_zero_or_pos with rfl | hm
    · exact Int.le_refl 0
    · rw [hd, if_neg hm.ne']
      exact Decimal.exponent_shortest_nonneg hm hk
  have htext : shown.double (.finite false m e) =
      Nat.toDigits 10 d.coefficient ++ List.replicate d.exponent.toNat '0' := by
    have hfull : ∀ lead, shown.inFull lead = true := fun _ => rfl
    change shown.decimal d = _
    rw [decimal, if_pos (hfull _), positional, if_pos he]
    exact List.append_nil _
  rw [htext]
  exact ⟨digits_append (digits_toDigits _) (digits_zeros _), by simp [Nat.toDigits_ne_nil]⟩

end NumberStyle

/-- A row of digits is one token. -/
theorem tokenize_digits (source : String) {text : List Char} (hd : Digits text) (hne : text ≠ []) :
    ∃ seq, tokenize source (String.ofList text) = .ok seq ∧
      seq.body = [⟨.number, String.ofList text, .start source⟩] := by
  let l : Lexeme := ⟨.number, text⟩
  have hl : l.Valid := Lexeme.valid_number hd hne
  have hend : Laid source ([] ++ [] ++ l.text) [] [] := .tail (by simp)
  have hlaid := Laid.token (by simp) hl (by simp) hend
  rw [List.nil_append, List.append_nil] at hlaid
  refine ⟨⟨[_], Scan.endMark (.behind source l.text), rfl⟩, tokenize_eq_ok_iff_laid.2 ⟨?_, ?_⟩, rfl⟩
  · rwa [String.toList_ofList]
  · rw [String.toList_ofList]

/-- A text that is one number token is parsed as that number. -/
theorem parseExpression_of_number {source text : String} {x : Float} {seq : TokenSeq}
    (hseq : tokenize source text = .ok seq) (hbody : seq.body = [⟨.number, text, .start source⟩])
    (hread : Numeral.read? text = some x) :
    parseExpression source text = .ok (.literal (.number x) (.start source)) := by
  have hlex : lex source text = .ok (.start seq) := lex_eq_ok_iff.2 ⟨seq, hseq, rfl⟩
  have hoperand : Parser.operandRun (some (Parser.expression seq.body.length)) seq.body =
      .ok (.literal (.number x) (.start source), []) := by
    simp only [hbody, Parser.operandRun, hread]
  have hrun : (Parser.expression (seq.body.length + 1)).run seq.body =
      .ok (.literal (.number x) (.start source), []) := Parser.chainRun_last hoperand (by simp)
  have hrest : (Cursor.start seq).rest = seq.body := rfl
  rw [parseExpression, hlex]
  change ((Cursor.start seq).expression (seq.body.length + 1)).1 = _
  rw [Cursor.expression, hrest, hrun]

namespace Value

/-- `y` is what the word `w` stands for: a number with that word, or a number that is none if `w` is
the word of such a one. -/
def Restores (w : UInt64) (y : Float) : Prop :=
  if Double.ofBits w = .nan then Double.ofFloat y = .nan else y.toBits = w

theorem restores_ofBits (w : UInt64) : Restores w (.ofBits w) := by
  rw [Restores]
  split
  next h => exact (Double.ofFloat_ofBits w).trans h
  next h => exact Double.toBits_ofBits h

theorem parseNumber_of_read? {text : String} {x : Float} (h : Numeral.read? text = some x)
    (here : Position) : parseNumber here text = .ok (.number x) := by
  rw [parseNumber, h]

/-- Texts of one style that are equal are texts of equal numbers. -/
theorem render_injective {style : NumberStyle} (h : style.Readable) {x y : Float}
    (heq : style.render x = style.render y) : x = y := by
  have hx := NumberStyle.read?_render h x
  rw [heq, NumberStyle.read?_render h y] at hx
  exact (Option.some.inj hx).symm

theorem render_ne {style : NumberStyle} (h : style.Readable) {w u : UInt64} (hne : w ≠ u)
    (hw : Double.ofBits w ≠ .nan) (hu : Double.ofBits u ≠ .nan) :
    style.render (.ofBits w) ≠ style.render (.ofBits u) := by
  intro heq
  have hbits := congrArg Float.toBits (render_injective h heq)
  rw [Double.toBits_ofBits hw, Double.toBits_ofBits hu] at hbits
  exact hne hbits

/-- Every word's number is read back from the text that shows it and from the text inside its listing,
so that two words do not share a text unless they stand for numbers that are none. What shows a whole
number without a minus sign is one token, and parsed as a literal of it. -/
theorem number_survives_display (w : UInt64) (here : Position) (source : String) :
    (∃ y, parseNumber here (number (.ofBits w)).text = .ok (.number y) ∧ Restores w y) ∧
    (∃ inner y, (number (.ofBits w)).listing = "Number(" ++ inner ++ ")" ∧
      parseNumber here inner = .ok (.number y) ∧ Restores w y) ∧
    (∀ u, w ≠ u → Double.ofBits w ≠ .nan → Double.ofBits u ≠ .nan →
      (number (.ofBits w)).text ≠ (number (.ofBits u)).text ∧
      (number (.ofBits w)).listing ≠ (number (.ofBits u)).listing) ∧
    ∀ m e (k : ℕ), Double.ofBits w = .finite false m e → (m : ℚ) * 2 ^ e = k →
      ∃ seq, tokenize source (number (.ofBits w)).text = .ok seq ∧
        seq.body = [⟨.number, (number (.ofBits w)).text, .start source⟩] ∧
        parseExpression source (number (.ofBits w)).text =
          .ok (.literal (.number (.ofBits w)) (.start source)) := by
  have hshown := NumberStyle.read?_render NumberStyle.readable_shown (.ofBits w)
  have hlisted := NumberStyle.read?_render NumberStyle.readable_listed (.ofBits w)
  refine ⟨⟨_, parseNumber_of_read? hshown here, restores_ofBits w⟩,
    ⟨_, _, rfl, parseNumber_of_read? hlisted here, restores_ofBits w⟩,
    fun u hne hw hu => ⟨render_ne NumberStyle.readable_shown hne hw hu, fun heq => ?_⟩,
    fun m e k hm hk => ?_⟩
  · rw [listing, listing, String.append_left_inj, String.append_right_inj] at heq
    exact render_ne NumberStyle.readable_listed hne hw hu heq
  · obtain ⟨hd, hne⟩ := NumberStyle.digits_shown hk
    rw [← hm, ← Double.ofFloat_ofBits] at hd hne
    obtain ⟨seq, hseq, hbody⟩ := tokenize_digits source hd hne
    exact ⟨seq, hseq, hbody, parseExpression_of_number hseq hbody hshown⟩

/-- Ten and minus ten. -/
theorem number_survives_display_ten :
    let ten : UInt64 := 0x4024000000000000
    let minus : UInt64 := 0xc024000000000000
    Double.ofBits ten = .finite false (5 * 2 ^ 50) (-49) ∧
    (number (.ofBits ten)).text ≠ (number (.ofBits minus)).text ∧
    ∃ seq, tokenize "in" (number (.ofBits ten)).text = .ok seq ∧ seq.body.length = 1 ∧
      parseExpression "in" (number (.ofBits ten)).text =
        .ok (.literal (.number (.ofBits ten)) ⟨"in", 1, 1⟩) := by
  intro ten minus
  have hten : Double.ofBits ten = .finite false (5 * 2 ^ 50) (-49) := by decide
  obtain ⟨-, -, hne, hwhole⟩ := number_survives_display ten (.start "in") "in"
  obtain ⟨seq, hseq, hbody, hparse⟩ := hwhole _ _ 10 hten (by norm_num)
  exact ⟨hten, (hne minus (by decide) (by decide) (by decide)).1, seq, hseq,
    congrArg List.length hbody, hparse⟩

end Value

end Scriptlet
