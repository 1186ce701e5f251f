import Scriptlet.Proofs.Complaints
import Scriptlet.Proofs.NumberText
import Scriptlet.Proofs.ProgramLiterals

/-!
Numbers in a text. Every number token of a text is read, so that nobody is told that one is no
numeral. What is read has no sign; it is a number, or infinity if that many digits are written.
-/

namespace Scriptlet

open Scriptlet.Expr

namespace Double

/-- Without a sign, the word of a rounded number is at most that of infinity. -/
theorem Rounds.toNat_toBits_le {q : ℚ} {x : Float} (h : Rounds false q x) :
    x.toBits.toNat ≤ infinityBits := by
  have hsign : signBits false = 0 := rfl
  rcases h.infinite_or_finite with hx | ⟨m, e, hx⟩
  · rw [toBits_of_infinite hx, hsign, Nat.zero_add]
  · obtain ⟨hr, hw⟩ := regular_of_ofFloat hx
    rw [hw, hsign, Nat.zero_add]
    exact (finiteBits_lt hr).le

/-- The sign bit is not set, and the bits stand for a number or for infinity. -/
def Unsigned (x : Float) : Prop := x.toBits.toNat < 2 ^ 63 ∧ ofFloat x ≠ .nan

theorem Rounds.unsigned {q : ℚ} {x : Float} (h : Rounds false q x) : Unsigned x :=
  ⟨Nat.lt_of_le_of_lt h.toNat_toBits_le (by decide), h.ne_nan⟩

end Double

variable {source text : String} {seq : TokenSeq}

/-- Every number token of a text is read as the double nearest to the whole number in it. -/
theorem exists_read?_of_tokenize (h : tokenize source text = .ok seq) {t : Token}
    (ht : t ∈ seq.toList) (hk : t.kind = .number) : ∃ x, Numeral.read? t.text = some x ∧
      Double.Rounds false (Nat.ofDigitChars 10 t.text.toList 0) x := by
  have hbody : t ∈ seq.body := by
    rcases List.mem_append.1 ht with hb | hl
    · exact hb
    · rw [List.mem_singleton.1 hl, seq.last_kind] at hk
      cases hk
  obtain ⟨hd, hne⟩ := (tokenize_eq_ok_iff_laid.1 h).1.digits_of_number t hbody hk
  exact Numeral.read?_of_digits hd hne

namespace Cursor.ComplainsOf

variable {c d : Cursor} {report : Diagnostic}

/-- At the tokens of a text nobody asks for a numeral. -/
theorem wanted_ne_numeral (h : c.ComplainsOf d report) (ht : tokenize source text = .ok c.tokens) :
    ∀ fault, report = .syntactic fault → fault.wanted ≠ .numeral := by
  intro fault hf hn
  obtain ⟨hd, hr⟩ := h
  subst hf
  rcases hr with ⟨hr, -⟩ | ⟨wanted, hr, hu⟩
  · cases hr
  · cases hr
    obtain rfl : wanted = .numeral := hn
    obtain ⟨hk, hnone⟩ := hu
    have hmem : d.current ∈ c.tokens.toList := hd ▸ d.tokens.get_mem d.index
    obtain ⟨x, hx, -⟩ := exists_read?_of_tokenize ht hmem hk
    cases hnone.symm.trans hx

/-- Only the complaint about a numeral begins with these words. -/
theorem not_unable (h : c.ComplainsOf d report)
    (hn : ∀ fault, report = .syntactic fault → fault.wanted ≠ .numeral) :
    ¬ "Unable to convert ".toList <+: report.message.toList := by
  rcases h.2 with ⟨rfl, -⟩ | ⟨wanted, rfl, -⟩
  · change ¬ "Unable to convert ".toList <+: "Program is nested too deeply".toList
    decide
  · have hw : wanted ≠ .numeral := hn _ rfl
    cases wanted with
    | numeral => exact absurd rfl hw
    | operand | semicolon | closeOrComma => simp [Diagnostic.message, ParseFault.message]

end Cursor.ComplainsOf

/-- Any row of digits with a semicolon is a program. -/
theorem parseProgram_of_digits (source : String) {digits : List Char} (hd : Digits digits)
    (hne : digits ≠ []) : ∃ seq x, tokenize source (.ofList (digits ++ [';'])) = .ok seq ∧
      parseProgram source (.ofList (digits ++ [';'])) =
        .ok (.block [.literal (.number x) (.start source)] (.start source)) ∧
      Double.Rounds false (Nat.ofDigitChars 10 digits 0) x := by
  let number : Lexeme := ⟨.number, digits⟩
  let mark : Lexeme := ⟨.semicolon, [';']⟩
  let first : Token := Scan.token (.start source) number
  let second : Token := Scan.token (.behind source digits) mark
  let seq : TokenSeq := ⟨[first, second], Scan.endMark (.behind source (digits ++ [';'])), rfl⟩
  have hend : Laid source ([] ++ [] ++ digits ++ [] ++ mark.text) [] [] := .tail (by simp)
  have hmark := Laid.token (l := mark) (by simp) (by decide) (by simp) hend
  have hstop : ∀ c ∈ ([] ++ (mark.text ++ [])).head?, number.kind.goesOn c = false := by
    intro c hc
    cases Option.some.inj hc
    rfl
  have hlaid := Laid.token (l := number) (by simp) (Lexeme.valid_number hd hne) hstop hmark
  have ht : tokenize source (.ofList (digits ++ [';'])) = .ok seq := by
    rw [tokenize_eq_ok_iff_laid, String.toList_ofList]
    simp only [List.nil_append, List.append_nil] at hlaid
    exact ⟨hlaid, rfl⟩
  have hdigits : Digits (String.ofList digits).toList := by simpa using hd
  obtain ⟨x, hx, hr⟩ := Numeral.read?_of_digits hdigits (by simpa using hne)
  have hfirst : Written (.literal (.number x) (.start source)) [first] :=
    .number (t := first) rfl hx
  have hsecond : second.kind = .semicolon := rfl
  refine ⟨seq, x, ht, parseProgram_eq_ok_iff.2 ?_, by simpa using hr⟩
  exact ⟨seq, _, none, ht, .last hfirst hsecond, by simp [Canonical.literal], rfl⟩

/-- In a text that has tokens every number, however many digits it has, is read as the double
nearest to it. A program is never refused because one could not be read, and every number in its
tree is read from a token of the text, has no sign, and is not the double that is no number. -/
theorem number_tokens_are_read (h : tokenize source text = .ok seq) :
    (∀ t ∈ seq.toList, t.kind = .number → ∃ x, parseNumber t.position t.text = .ok (.number x) ∧
      Double.Rounds false (Nat.ofDigitChars 10 t.text.toList 0) x) ∧
    (∀ report, parseProgram source text = .error report →
      ¬ "Unable to convert ".toList <+: report.message.toList) ∧
    ∀ tree, parseProgram source text = .ok tree → ∀ x, .number x ∈ tree.literals →
      Double.Unsigned x ∧ ∃ t ∈ seq.toList, t.kind = .number ∧
        parseNumber t.position t.text = .ok (.number x) := by
  rw [parseProgram_eq_block h]
  refine ⟨fun t ht hk => ?_, fun report hp => ?_, fun tree hp x hx => ?_⟩
  · obtain ⟨x, hx, hr⟩ := exists_read?_of_tokenize h ht hk
    exact ⟨x, by rw [parseNumber, hx], hr⟩
  · have hc := Cursor.complainsOf_of_block (Prod.ext hp rfl)
    exact hc.not_unable (hc.wanted_ne_numeral h)
  · rcases Cursor.spelledIn_of_block (Prod.ext hp rfl) _ hx with ⟨b, hb⟩ | ⟨t, ht, hk, y, hy, hv⟩
    · cases hb
    · cases hv
      have hmem : t ∈ seq.toList := List.mem_append_left _ ht
      obtain ⟨z, hz, hr⟩ := exists_read?_of_tokenize h hmem hk
      cases hy.symm.trans hz
      exact ⟨hr.unsigned, t, hmem, hk, by rw [parseNumber, hy]⟩

/-- A one and five hundred and twelve zeros are a literal like others, and infinite. -/
theorem number_tokens_are_read_overflow :
    let text := String.ofList (Nat.toDigits 10 (10 ^ 512) ++ [';'])
    ∃ seq tree x, tokenize "in" text = .ok seq ∧ parseProgram "in" text = .ok tree ∧
      tree.literals = [.number x] ∧ Double.ofFloat x = .infinite false ∧ Double.Unsigned x := by
  intro text
  obtain ⟨seq, x, ht, hp, hr⟩ :=
    parseProgram_of_digits "in" (digits_toDigits (10 ^ 512)) Nat.toDigits_ne_nil
  have hbig : Double.overflow ≤ ((10 ^ 512 : ℕ) : ℚ) := by
    have hpow : (2 : ℚ) ^ 1024 = 4 ^ 512 := by rw [show (4 : ℚ) = 2 ^ 2 by norm_num, ← pow_mul]
    have hle : (4 : ℚ) ^ 512 ≤ 10 ^ 512 := pow_le_pow_left₀ (by norm_num) (by norm_num) 512
    have hpos : (0 : ℚ) < 2 ^ 970 := pow_pos two_pos 970
    rw [Double.overflow, hpow, Nat.cast_pow, Nat.cast_ofNat]
    exact (sub_le_self _ hpos.le).trans hle
  rw [Nat.ofDigitChars_ten_toDigits] at hr
  have hx : .number x ∈ literals (.block [.literal (.number x) (.start "in")] (.start "in")) := by
    simp [literals, literalsAll]
  obtain ⟨-, -, hread⟩ := number_tokens_are_read ht
  exact ⟨seq, _, x, ht, hp, rfl, hr.infinite hbig, (hread _ hp x hx).1⟩

end Scriptlet
