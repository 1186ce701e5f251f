import Scriptlet.Number.Numeral
import Mathlib.Data.List.TakeWhile

/-!
Which texts are numerals, and what they say. The grammar is given by what a numeral is put together
from; reading a text finds the numeral that it is, or that it is none.
-/

namespace Scriptlet

/-- A sign is a plus, a minus or nothing. -/
inductive WrittenSign : Bool → List Char → Prop where
  | absent : WrittenSign false []
  | plus : WrittenSign false ['+']
  | minus : WrittenSign true ['-']

def Digits (text : List Char) : Prop := ∀ c ∈ text, c.isDigit = true

/-- Digits with at most one point, which may come first or last. `places` of them follow the
point. -/
inductive WrittenDigits : List Char → Nat → List Char → Prop where
  | whole {digits : List Char} (h : Digits digits) : WrittenDigits digits 0 digits
  | point {front back : List Char} (hf : Digits front) (hb : Digits back) :
    WrittenDigits (front ++ back) back.length (front ++ '.' :: back)

/-- Nothing, or a power of ten: `e` or `E`, a sign and one digit or more. -/
inductive WrittenPower : Int → List Char → Prop where
  | absent : WrittenPower 0 []
  | present {mark : Char} {negative : Bool} {sign digits : List Char} (hm : mark = 'e' ∨ mark = 'E')
    (hs : WrittenSign negative sign) (hne : digits ≠ []) (hd : Digits digits) :
    WrittenPower (if negative then -(Nat.ofDigitChars 10 digits 0 : Int) else Nat.ofDigitChars 10 digits 0)
      (mark :: (sign ++ digits))

/-- A numeral without margins and underscores, and what it says. -/
inductive WrittenNumeral : Numeral → List Char → Prop where
  | nan {negative : Bool} {sign word : List Char} (hs : WrittenSign negative sign)
    (hw : word.map Char.toLower = "nan".toList) : WrittenNumeral .nan (sign ++ word)
  | infinity {negative : Bool} {sign word : List Char} (hs : WrittenSign negative sign)
    (hw : word.map Char.toLower = "inf".toList ∨ word.map Char.toLower = "infinity".toList) :
    WrittenNumeral (.infinity negative) (sign ++ word)
  | decimal {negative : Bool} {sign digits text power : List Char} {places : Nat} {e : Int}
    (hs : WrittenSign negative sign) (hd : WrittenDigits digits places text) (hne : digits ≠ [])
    (hp : WrittenPower e power) :
    WrittenNumeral (.decimal negative ⟨Nat.ofDigitChars 10 digits 0, e - places⟩)
      (sign ++ (text ++ power))

/-- Every underscore stands between two digits. -/
def Grouped (text : List Char) : Prop :=
  ∀ front back, text = front ++ '_' :: back →
    front.getLast?.any Char.isDigit = true ∧ back.head?.any Char.isDigit = true

/-- The text is a numeral, with blanks around it and underscores among its digits if it likes. Digits
and blanks of other scripts are taken for those of ASCII. -/
def NamesNumeral (text : List Char) (n : Numeral) : Prop :=
  ∃ left core right, text.map Text.toAscii = left ++ (core ++ right) ∧
    (∀ c ∈ left ++ right, Numeral.isMargin c = true) ∧
    Grouped core ∧ WrittenNumeral n (core.filter (· ≠ '_'))

namespace Numeral

variable {text : List Char}

/-- As `Grouped`, for a text behind a digit or behind something else. -/
def GroupedBehind (before : Bool) (text : List Char) : Prop :=
  ∀ front back, text = front ++ '_' :: back →
    (front.getLast?.map Char.isDigit).getD before = true ∧ back.head?.any Char.isDigit = true

theorem groupedBehind_false : GroupedBehind false text ↔ Grouped text := by
  have hlast : ∀ front : List Char,
      (front.getLast?.map Char.isDigit).getD false = front.getLast?.any Char.isDigit := by
    intro front
    cases front.getLast? <;> rfl
  simp only [GroupedBehind, Grouped, hlast]

theorem groupedBehind_nil (before : Bool) : GroupedBehind before [] := by
  intro front back h
  simp at h

theorem getLast?_cons_isDigit (c : Char) (front : List Char) (before : Bool) :
    ((c :: front).getLast?.map Char.isDigit).getD before =
      (front.getLast?.map Char.isDigit).getD c.isDigit := by
  rw [List.getLast?_cons]
  cases front.getLast? <;> rfl

theorem groupedBehind_cons {before : Bool} {c : Char} {rest : List Char} :
    GroupedBehind before (c :: rest) ↔
      (c = '_' → before = true ∧ rest.head?.any Char.isDigit = true) ∧
        GroupedBehind c.isDigit rest := by
  constructor
  · intro h
    refine ⟨?_, fun front back hrest => ?_⟩
    · rintro rfl
      exact h [] rest rfl
    · rw [← getLast?_cons_isDigit c front before]
      exact h (c :: front) back (by rw [hrest, List.cons_append])
  · rintro ⟨hc, hrest⟩ front back h
    cases front with
    | nil =>
      obtain ⟨rfl, rfl⟩ := List.cons.inj h
      exact hc rfl
    | cons d front =>
      obtain ⟨rfl, rfl⟩ := List.cons.inj h
      rw [getLast?_cons_isDigit]
      exact hrest front back rfl

theorem joinGroups_eq_some_iff {before : Bool} {plain : List Char} :
    joinGroups before text = some plain ↔
      GroupedBehind before text ∧ text.filter (· ≠ '_') = plain := by
  induction text generalizing before plain with
  | nil => simp [joinGroups, groupedBehind_nil]
  | cons c rest ih =>
    rw [groupedBehind_cons]
    by_cases hc : c = '_'
    · subst hc
      rw [joinGroups]
      split
      next hb =>
        rw [Bool.and_eq_true] at hb
        rw [ih]
        simp [hb]
      next hb =>
        rw [Bool.and_eq_true] at hb
        simp [hb]
    · rw [joinGroups, Option.map_eq_some_iff]
      · constructor
        · rintro ⟨plain, hj, rfl⟩
          obtain ⟨hg, rfl⟩ := ih.1 hj
          exact ⟨⟨fun h => absurd h hc, hg⟩, by simp [hc]⟩
        · rintro ⟨⟨-, hg⟩, rfl⟩
          exact ⟨_, ih.2 ⟨hg, rfl⟩, by simp [hc]⟩
      · exact hc

theorem written_sign (text : List Char) :
    ∃ mark, WrittenSign (sign text).1 mark ∧ text = mark ++ (sign text).2 := by
  fun_cases sign text with
  | case1 rest => exact ⟨['-'], .minus, rfl⟩
  | case2 rest => exact ⟨['+'], .plus, rfl⟩
  | case3 => exact ⟨[], .absent, rfl⟩

theorem sign_append {negative : Bool} {mark rest : List Char} (hs : WrittenSign negative mark)
    (hr : ∀ c ∈ rest.head?, c ≠ '-' ∧ c ≠ '+') : sign (mark ++ rest) = (negative, rest) := by
  cases hs with
  | absent =>
    rw [List.nil_append]
    fun_cases sign rest with
    | case1 rest => exact absurd rfl (hr '-' rfl).1
    | case2 rest => exact absurd rfl (hr '+' rfl).2
    | case3 => rfl
  | plus => rfl
  | minus => rfl

theorem ne_of_isDigit {c d : Char} (hc : c.isDigit = true) (hd : d.isDigit = false) : c ≠ d := by
  rintro rfl
  rw [hc] at hd
  cases hd

theorem digits_eq (text : List Char) : Digits (digits text).1 ∧ text = (digits text).1 ++ (digits text).2 :=
  ⟨fun _ h => List.mem_takeWhile_imp h, (List.takeWhile_append_dropWhile).symm⟩

theorem digits_append {ds rest : List Char} (hd : Digits ds)
    (hr : ∀ c ∈ rest.head?, c.isDigit = false) : digits (ds ++ rest) = (ds, rest) := by
  rw [digits, List.takeWhile_append_of_pos hd, List.dropWhile_append_of_pos hd]
  cases rest with
  | nil => simp
  | cons c rest => simp [hr c rfl]

theorem head?_isDigit {ds rest : List Char} (hd : Digits ds) (hne : ds ≠ []) :
    ∃ c, (ds ++ rest).head? = some c ∧ c.isDigit = true := by
  cases ds with
  | nil => exact absurd rfl hne
  | cons c ds => exact ⟨c, rfl, hd c List.mem_cons_self⟩

theorem power_eq_some_iff {e : Int} : power text = some e ↔ WrittenPower e text := by
  constructor
  · intro h
    cases text with
    | nil =>
      cases h
      exact .absent
    | cons c rest =>
      obtain ⟨mark, hs, hrest⟩ := written_sign rest
      rw [power] at h
      by_cases hm : c = 'e' ∨ c = 'E'
      · rw [if_pos hm] at h
        dsimp only at h
        by_cases hd : (sign rest).2 ≠ [] ∧ (sign rest).2.all Char.isDigit = true
        · rw [if_pos hd] at h
          cases h
          have hp := WrittenPower.present hm hs hd.1 (List.all_eq_true.1 hd.2)
          rwa [← hrest] at hp
        · rw [if_neg hd] at h
          cases h
      · rw [if_neg hm] at h
        cases h
  · intro h
    cases h with
    | absent => rfl
    | @present c negative mark ds hm hs hne hd =>
      have hsign : sign (mark ++ ds) = (negative, ds) := by
        refine sign_append hs fun c hc => ?_
        have hdigit := hd c (List.mem_of_head? hc)
        exact ⟨ne_of_isDigit hdigit rfl, ne_of_isDigit hdigit rfl⟩
      rw [power, if_pos hm, hsign]
      exact if_pos ⟨hne, List.all_eq_true.2 hd⟩

theorem head?_of_writtenPower {e : Int} (h : WrittenPower e text) :
    ∀ c ∈ text.head?, c = 'e' ∨ c = 'E' := by
  cases h with
  | absent => simp
  | present hm => simpa using hm

/-- Digits, and behind them perhaps a point and more digits. -/
theorem written_places {whole : List Char} (hw : Digits whole) (text : List Char) :
    ∃ front, WrittenDigits (whole ++ (Numeral.places text).1) (Numeral.places text).1.length front ∧
      whole ++ text = front ++ (Numeral.places text).2 := by
  fun_cases Numeral.places text with
  | case1 rest =>
    obtain ⟨hd, hrest⟩ := digits_eq rest
    refine ⟨whole ++ '.' :: (digits rest).1, .point hw hd, ?_⟩
    rw [List.append_assoc, List.cons_append, ← hrest]
  | case2 =>
    refine ⟨whole, ?_, rfl⟩
    rw [List.append_nil]
    exact .whole hw

/-- A decimal without sign. -/
theorem decimal?_eq_some_iff {d : Decimal} :
    decimal? text = some d ↔ ∃ ds places front e behind, WrittenDigits ds places front ∧ ds ≠ [] ∧
      WrittenPower e behind ∧ text = front ++ behind ∧
      d = ⟨Nat.ofDigitChars 10 ds 0, e - places⟩ := by
  constructor
  · intro h
    obtain ⟨hwhole, htext⟩ := digits_eq text
    rw [decimal?] at h
    dsimp only at h
    by_cases hne : (digits text).1 = [] ∧ (Numeral.places (digits text).2).1 = []
    · rw [if_pos hne] at h
      cases h
    · rw [if_neg hne, Option.map_eq_some_iff] at h
      obtain ⟨e, hp, rfl⟩ := h
      obtain ⟨front, hd, hfront⟩ := written_places hwhole (digits text).2
      refine ⟨_, _, front, e, _, hd, ?_, power_eq_some_iff.1 hp, htext.trans hfront, rfl⟩
      exact fun h => hne (List.append_eq_nil_iff.1 h)
  · rintro ⟨ds, places, front, e, behind, hd, hne, hp, rfl, rfl⟩
    have hbehind : ∀ c ∈ behind.head?, c.isDigit = false ∧ c ≠ '.' := by
      intro c hc
      rcases head?_of_writtenPower hp c hc with rfl | rfl <;> decide
    have hplaces : Numeral.places behind = ([], behind) := by
      fun_cases Numeral.places behind with
      | case1 rest => exact absurd rfl (hbehind '.' rfl).2
      | case2 => rfl
    cases hd with
    | whole hd =>
      rw [decimal?, digits_append hd fun c hc => (hbehind c hc).1]
      simp only [hplaces]
      rw [if_neg fun h => hne h.1, power_eq_some_iff.2 hp]
      simp
    | @point whole fraction hf hb =>
      rw [decimal?, List.append_assoc, List.cons_append, digits_append hf (by simp)]
      simp only [Numeral.places]
      rw [digits_append hb fun c hc => (hbehind c hc).1]
      simp only
      rw [if_neg fun h => hne (by rw [h.1, h.2]; rfl), power_eq_some_iff.2 hp]
      rfl

/-- What a text without margins and underscores says. -/
def plain? (text : List Char) : Option Numeral :=
  let (negative, text) := sign text
  let word := text.map Char.toLower
  if word = "nan".toList then some nan
  else if word = "inf".toList ∨ word = "infinity".toList then some (infinity negative)
  else (decimal? text).map (decimal negative)

theorem parse_eq (text : List Char) : parse text = (joinGroups false text).bind plain? := rfl

/-- No word begins with a sign, a digit or a point. -/
theorem head?_of_word {word : List Char} (hw : word.map Char.toLower = "nan".toList ∨
    word.map Char.toLower = "inf".toList ∨ word.map Char.toLower = "infinity".toList) :
    ∃ c, word.head? = some c ∧ (c.toLower = 'n' ∨ c.toLower = 'i') := by
  cases word with
  | nil => simp at hw
  | cons c word =>
    have hletter : ∀ {d : Char} {name : List Char}, (c :: word).map Char.toLower = d :: name →
        c.toLower = d := fun h => (List.cons.inj h).1
    exact ⟨c, rfl, hw.elim (fun h => .inl (hletter h)) fun h => .inr (h.elim hletter hletter)⟩

theorem head?_of_writtenDigits {ds : List Char} {places : Nat} (hd : WrittenDigits ds places text)
    (hne : ds ≠ []) (behind : List Char) :
    ∃ c, (text ++ behind).head? = some c ∧ (c.isDigit = true ∨ c = '.') := by
  cases hd with
  | whole hd =>
    obtain ⟨c, hc, hdigit⟩ := head?_isDigit hd hne
    exact ⟨c, hc, .inl hdigit⟩
  | @point front back hf hb =>
    cases front with
    | nil => exact ⟨'.', rfl, .inr rfl⟩
    | cons c front => exact ⟨c, rfl, .inl (hf c List.mem_cons_self)⟩

theorem toNat_of_isDigit {c : Char} (h : c.isDigit = true) : 48 ≤ c.toNat ∧ c.toNat ≤ 57 := by
  simp only [Char.isDigit, Bool.and_eq_true, decide_eq_true_eq, UInt32.le_iff_toNat_le] at h
  exact h

theorem toLower_of_lt {c : Char} (h : c.toNat < 65) : c.toLower = c := by
  refine dif_neg ?_
  rintro ⟨hA, -⟩
  have hA : 65 ≤ c.toNat := UInt32.le_iff_toNat_le.1 hA
  omega

theorem toLower_ne_of_digit_or_point {c : Char} (h : c.isDigit = true ∨ c = '.') :
    ¬ (c.toLower = 'n' ∨ c.toLower = 'i') := by
  rcases h with h | rfl
  · rw [toLower_of_lt (Nat.lt_of_le_of_lt (toNat_of_isDigit h).2 (by decide))]
    rintro (rfl | rfl) <;> exact absurd h (by decide)
  · decide

/-- A text in digits is none of the words. -/
theorem not_word_of_writtenDigits {ds : List Char} {places : Nat} (hd : WrittenDigits ds places text)
    (hne : ds ≠ []) (behind : List Char) :
    ¬ ((text ++ behind).map Char.toLower = "nan".toList ∨
      (text ++ behind).map Char.toLower = "inf".toList ∨
      (text ++ behind).map Char.toLower = "infinity".toList) := by
  intro hw
  obtain ⟨c, hc, hdigit⟩ := head?_of_writtenDigits hd hne behind
  obtain ⟨d, hd, hletter⟩ := head?_of_word hw
  obtain rfl : c = d := Option.some.inj (hc.symm.trans hd)
  exact toLower_ne_of_digit_or_point hdigit hletter

theorem sign_append_of_head? {negative : Bool} {mark rest : List Char} {c : Char}
    (hs : WrittenSign negative mark) (hc : rest.head? = some c)
    (h : (c.isDigit = true ∨ c = '.') ∨ c.toLower = 'n' ∨ c.toLower = 'i') :
    sign (mark ++ rest) = (negative, rest) := by
  refine sign_append hs fun d hd => ?_
  obtain rfl : c = d := Option.some.inj (hc.symm.trans hd)
  constructor <;> rintro rfl <;> revert h <;> decide

theorem written_of_plain? {n : Numeral} (h : plain? text = some n) : WrittenNumeral n text := by
  obtain ⟨mark, hs, htext⟩ := written_sign text
  rw [plain?] at h
  dsimp only at h
  rw [htext]
  split at h
  next hw =>
    cases h
    exact .nan hs hw
  next =>
    split at h
    next hw =>
      cases h
      exact .infinity hs hw
    next =>
      obtain ⟨d, hd, rfl⟩ := Option.map_eq_some_iff.1 h
      obtain ⟨ds, places, front, e, behind, hds, hne, hp, hrest, rfl⟩ := decimal?_eq_some_iff.1 hd
      rw [hrest]
      exact .decimal hs hds hne hp

theorem plain?_of_written {n : Numeral} (h : WrittenNumeral n text) : plain? text = some n := by
  cases h with
  | @nan negative mark word hs hw =>
    obtain ⟨c, hc, hletter⟩ := head?_of_word (.inl hw)
    rw [plain?, sign_append_of_head? hs hc (.inr hletter)]
    exact if_pos hw
  | @infinity negative mark word hs hw =>
    obtain ⟨c, hc, hletter⟩ := head?_of_word (.inr hw)
    have hnan : word.map Char.toLower ≠ "nan".toList := by
      rcases hw with hw | hw <;> rw [hw] <;> decide
    rw [plain?, sign_append_of_head? hs hc (.inr hletter)]
    dsimp only
    rw [if_neg hnan, if_pos hw]
  | @decimal negative mark ds front behind places e hs hd hne hp =>
    obtain ⟨c, hc, hdigit⟩ := head?_of_writtenDigits hd hne behind
    obtain ⟨hnan, hinfinity⟩ := not_or.1 (not_word_of_writtenDigits hd hne behind)
    rw [plain?, sign_append_of_head? hs hc (.inl hdigit)]
    dsimp only
    rw [if_neg hnan, if_neg hinfinity,
      decimal?_eq_some_iff.2 ⟨_, _, _, _, _, hd, hne, hp, rfl, rfl⟩]
    rfl

theorem plain?_eq_some_iff {n : Numeral} : plain? text = some n ↔ WrittenNumeral n text :=
  ⟨written_of_plain?, plain?_of_written⟩

theorem parse_eq_some_iff {n : Numeral} :
    parse text = some n ↔ Grouped text ∧ WrittenNumeral n (text.filter (· ≠ '_')) := by
  rw [parse_eq, Option.bind_eq_some_iff]
  constructor
  · rintro ⟨plain, hj, hp⟩
    obtain ⟨hg, rfl⟩ := joinGroups_eq_some_iff.1 hj
    exact ⟨groupedBehind_false.1 hg, plain?_eq_some_iff.1 hp⟩
  · rintro ⟨hg, hw⟩
    exact ⟨_, joinGroups_eq_some_iff.2 ⟨groupedBehind_false.2 hg, rfl⟩, plain?_eq_some_iff.2 hw⟩

theorem isMargin_eq_false {c : Char} (h : 32 < c.toNat) : isMargin c = false := by
  have hspace : (c == ' ') = false := by
    rw [beq_eq_false_iff_ne]
    rintro rfl
    exact absurd h (by decide)
  have hreturn : ¬ c ≤ '\r' := fun hc => by
    have : c.toNat ≤ 13 := UInt32.le_iff_toNat_le.1 hc
    omega
  rw [isMargin, hspace, decide_eq_false hreturn, Bool.and_false, Bool.or_false]

/-- The characters that numerals are made of, underscores apart. -/
def isNumeralChar (c : Char) : Bool :=
  c.isDigit || ['+', '-', '.'].contains c || ['a', 'e', 'f', 'i', 'n', 't', 'y'].contains c.toLower

theorem isNumeralChar_of_isDigit {c : Char} (h : c.isDigit = true) : isNumeralChar c = true := by
  simp [isNumeralChar, h]

theorem isNumeralChar_of_toLower {c : Char}
    (h : c.toLower ∈ ['a', 'e', 'f', 'i', 'n', 't', 'y']) : isNumeralChar c = true := by
  simp only [isNumeralChar, List.contains_iff_mem.2 h, Bool.or_true]

theorem toNat_lt_of_toLower {c : Char} (h : c.toLower.toNat < 128) : c.toNat < 128 := by
  by_cases hc : 'A'.val ≤ c.val ∧ c.val ≤ 'Z'.val
  · exact Nat.lt_of_le_of_lt (UInt32.le_iff_toNat_le.1 hc.2) (by decide)
  · have hlower : c.toLower = c := dif_neg hc
    rwa [hlower] at h

/-- They are characters of ASCII that can be seen. -/
theorem bounds_of_isNumeralChar {c : Char} (h : isNumeralChar c = true) :
    32 < c.toNat ∧ c.toNat < 128 := by
  rw [isNumeralChar, Bool.or_eq_true, Bool.or_eq_true, List.contains_iff_mem,
    List.contains_iff_mem] at h
  have hbounds : (['+', '-', '.'] ++ ['a', 'e', 'f', 'i', 'n', 't', 'y']).all
      (fun c => 32 < c.toNat ∧ c.toNat < 128) = true := by
    decide
  have hbounds := fun c h => of_decide_eq_true (List.all_eq_true.1 hbounds c h)
  rcases h with (h | h) | h
  · have hdigit := toNat_of_isDigit h
    omega
  · exact hbounds c (List.mem_append_left _ h)
  · have hlower := hbounds c.toLower (List.mem_append_right _ h)
    refine ⟨?_, toNat_lt_of_toLower hlower.2⟩
    by_contra hc
    rw [toLower_of_lt (by omega)] at hlower
    exact hc hlower.1

theorem ne_underscore_of_isNumeralChar {c : Char} (h : isNumeralChar c = true) : c ≠ '_' := by
  rintro rfl
  revert h
  decide

theorem isNumeralChar_of_writtenSign {negative : Bool} {mark : List Char}
    (h : WrittenSign negative mark) : ∀ c ∈ mark, isNumeralChar c = true := by
  cases h <;> exact List.all_eq_true.1 (by decide)

theorem isNumeralChar_of_digits {ds : List Char} (h : Digits ds) : ∀ c ∈ ds, isNumeralChar c = true :=
  fun c hc => isNumeralChar_of_isDigit (h c hc)

theorem isNumeralChar_of_writtenDigits {ds : List Char} {places : Nat}
    (h : WrittenDigits ds places text) : ∀ c ∈ text, isNumeralChar c = true := by
  cases h with
  | whole h => exact isNumeralChar_of_digits h
  | point hf hb =>
    exact List.forall_mem_append.2 ⟨isNumeralChar_of_digits hf,
      List.forall_mem_cons.2 ⟨by decide, isNumeralChar_of_digits hb⟩⟩

theorem isNumeralChar_of_writtenPower {e : Int} (h : WrittenPower e text) :
    ∀ c ∈ text, isNumeralChar c = true := by
  cases h with
  | absent => simp
  | present hm hs hne hd =>
    refine List.forall_mem_cons.2 ⟨?_, List.forall_mem_append.2
      ⟨isNumeralChar_of_writtenSign hs, isNumeralChar_of_digits hd⟩⟩
    rcases hm with rfl | rfl <;> decide

theorem isNumeralChar_of_word {word name : List Char} (hw : word.map Char.toLower = name)
    (hn : name.all (['a', 'e', 'f', 'i', 'n', 't', 'y'].contains ·) = true) :
    ∀ c ∈ word, isNumeralChar c = true := fun c hc =>
  isNumeralChar_of_toLower (List.contains_iff_mem.1
    (List.all_eq_true.1 hn c.toLower (hw ▸ List.mem_map_of_mem hc)))

theorem isNumeralChar_of_writtenNumeral {n : Numeral} (h : WrittenNumeral n text) :
    ∀ c ∈ text, isNumeralChar c = true := by
  cases h with
  | nan hs hw =>
    exact List.forall_mem_append.2
      ⟨isNumeralChar_of_writtenSign hs, isNumeralChar_of_word hw (by decide)⟩
  | infinity hs hw =>
    refine List.forall_mem_append.2 ⟨isNumeralChar_of_writtenSign hs, ?_⟩
    rcases hw with hw | hw <;> exact isNumeralChar_of_word hw (by decide)
  | decimal hs hd hne hp =>
    exact List.forall_mem_append.2 ⟨isNumeralChar_of_writtenSign hs,
      List.forall_mem_append.2 ⟨isNumeralChar_of_writtenDigits hd, isNumeralChar_of_writtenPower hp⟩⟩

theorem not_writtenNumeral_nil (n : Numeral) : ¬ WrittenNumeral n [] := by
  intro h
  have := plain?_eq_some_iff.2 h
  cases this

theorem exists_margins (text : List Char) :
    ∃ left right, text = left ++ (strip text ++ right) ∧ ∀ c ∈ left ++ right, isMargin c = true := by
  refine ⟨text.takeWhile isMargin,
    ((text.dropWhile isMargin).reverse.takeWhile isMargin).reverse, ?_, fun c hc => ?_⟩
  · rw [strip, ← List.reverse_append, List.takeWhile_append_dropWhile, List.reverse_reverse,
      List.takeWhile_append_dropWhile]
  · rcases List.mem_append.1 hc with hc | hc
    · exact List.mem_takeWhile_imp hc
    · exact List.mem_takeWhile_imp (List.mem_reverse.1 hc)

theorem dropWhile_margin_append {left core : List Char} (hl : ∀ c ∈ left, isMargin c = true)
    (hc : ∀ c ∈ core, isMargin c = false) (hne : core ≠ []) (right : List Char) :
    (left ++ (core ++ right)).dropWhile isMargin = core ++ right := by
  rw [List.dropWhile_append_of_pos hl]
  cases core with
  | nil => exact absurd rfl hne
  | cons c core => simp [hc c List.mem_cons_self]

theorem strip_append {left core right : List Char} (hm : ∀ c ∈ left ++ right, isMargin c = true)
    (hc : ∀ c ∈ core, isMargin c = false) (hne : core ≠ []) :
    strip (left ++ (core ++ right)) = core := by
  have hl : ∀ c ∈ left, isMargin c = true := fun c h => hm c (List.mem_append_left _ h)
  have hr : ∀ c ∈ right.reverse, isMargin c = true := fun c h =>
    hm c (List.mem_append_right _ (List.mem_reverse.1 h))
  have hc' : ∀ c ∈ core.reverse, isMargin c = false := fun c h => hc c (List.mem_reverse.1 h)
  have hne' : core.reverse ≠ [] := by simpa using hne
  have hright := dropWhile_margin_append hr hc' hne' []
  rw [List.append_nil] at hright
  rw [strip, dropWhile_margin_append hl hc hne, List.reverse_append, hright, List.reverse_reverse]

/-- There are no margins inside a numeral. -/
theorem isMargin_of_written {n : Numeral} (h : WrittenNumeral n (text.filter (· ≠ '_'))) :
    ∀ c ∈ text, isMargin c = false := by
  intro c hc
  by_cases hu : c = '_'
  · rw [hu]
    decide
  · have hplain : c ∈ text.filter (· ≠ '_') := List.mem_filter.2 ⟨hc, by simpa using hu⟩
    exact isMargin_eq_false (bounds_of_isNumeralChar (isNumeralChar_of_writtenNumeral h c hplain)).1

theorem parse_strip_eq_some_iff {n : Numeral} :
    parse (strip (text.map Text.toAscii)) = some n ↔ NamesNumeral text n := by
  constructor
  · intro h
    obtain ⟨left, right, htext, hm⟩ := exists_margins (text.map Text.toAscii)
    exact ⟨left, _, right, htext, hm, parse_eq_some_iff.1 h⟩
  · rintro ⟨left, core, right, htext, hm, hg, hw⟩
    have hne : core ≠ [] := by
      rintro rfl
      exact not_writtenNumeral_nil n hw
    rw [htext, strip_append hm (isMargin_of_written hw) hne]
    exact parse_eq_some_iff.2 ⟨hg, hw⟩

/-- A numeral without underscores is read as it stands. -/
theorem parse_of_written {n : Numeral} (h : WrittenNumeral n text) : parse text = some n := by
  have hne : ∀ c ∈ text, c ≠ '_' := fun c hc =>
    ne_underscore_of_isNumeralChar (isNumeralChar_of_writtenNumeral h c hc)
  refine parse_eq_some_iff.2 ⟨fun front back htext => ?_, ?_⟩
  · exact absurd rfl (hne '_' (by simp [htext]))
  · rwa [List.filter_eq_self.2 fun c hc => decide_eq_true (hne c hc)]

theorem namesNumeral_of_written {n : Numeral} (h : WrittenNumeral n text) : NamesNumeral text n := by
  have hascii : text.map Text.toAscii = text :=
    Text.map_toAscii fun c hc => (bounds_of_isNumeralChar (isNumeralChar_of_writtenNumeral h c hc)).2
  refine ⟨[], text, [], ?_, by simp, parse_eq_some_iff.1 (parse_of_written h)⟩
  rw [hascii, List.append_nil, List.nil_append]

end Numeral

end Scriptlet
