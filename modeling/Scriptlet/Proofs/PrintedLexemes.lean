import Mathlib.Data.List.Chain
import Scriptlet.Proofs.TokenLayout

/-!
Printing lexemes with blanks of any choice around them, and reading them back. Two neighbours may
touch unless their kinds fuse.
-/

namespace Scriptlet

namespace Token.Kind

def isWord : Token.Kind → Bool
  | identifier | trueWord | falseWord => true
  | _ => false

/-- Lexemes of these kinds would be read as others if nothing stood between them. -/
def fuses (left right : Token.Kind) : Bool :=
  left.isWord && (right.isWord || right == number) || left == number && right == number ||
    left == assign && (right == assign || right == equals)

theorem goesOn_of_isBlank {c : Char} (h : isBlank c) (k : Token.Kind) : k.goesOn c = false := by
  rcases isBlank_iff.1 h with rfl | rfl | rfl | rfl <;> cases k <;> decide

end Token.Kind

namespace Lexeme

/-- The first character of a lexeme makes another one longer just if their kinds fuse. -/
theorem Valid.goesOn_head {l : Lexeme} (h : l.Valid) {c : Char} {cs : List Char}
    (ht : l.text = c :: cs) (k : Token.Kind) : k.goesOn c = k.fuses l.kind := by
  cases h with
  | trueWord | falseWord | equals =>
    cases ht
    cases k <;> decide
  | identifier hc =>
    cases ht
    have hd : c.isDigit = false := by
      rw [Bool.eq_false_iff]
      intro hd
      simp [isWordStart_eq_false_of_isDigit hd] at hc
    have he : c ≠ '=' := by
      intro h
      subst h
      exact absurd hc (by decide)
    cases k <;>
      simp [Token.Kind.goesOn, Token.Kind.fuses, Token.Kind.isWord, isWordChar, hc, hd, he]
  | number hc =>
    cases ht
    have he : c ≠ '=' := by
      intro h
      subst h
      exact absurd hc (by decide)
    cases k <;> simp [Token.Kind.goesOn, Token.Kind.fuses, Token.Kind.isWord, isWordChar, hc, he]
  | mark hk =>
    cases ht
    unfold punctuation? at hk
    split at hk <;> cases hk <;> cases k <;> decide

end Lexeme

/-- The text of lexemes, each with the blanks in front of it, and of the blanks behind them. -/
def printed (pieces : List (List Char × Lexeme)) (tail : List Char) : List Char :=
  pieces.flatMap (fun (gap, l) => gap ++ l.text) ++ tail

section printed
variable {source : String} {before tail gap : List Char} {l : Lexeme}
  {pieces : List (List Char × Lexeme)}

@[simp] theorem printed_nil : printed [] tail = tail := rfl

@[simp] theorem printed_cons : printed ((gap, l) :: pieces) tail =
    gap ++ (l.text ++ printed pieces tail) := by simp [printed]

/-- What follows a lexeme makes it longer just if a lexeme follows that touches it and fuses. -/
theorem printed_stops_iff (hl : ∀ p ∈ pieces, p.2.Valid) (hg : ∀ p ∈ pieces, ∀ c ∈ p.1, isBlank c)
    (ht : ∀ c ∈ tail, isBlank c) (k : Token.Kind) :
    (∀ c ∈ (printed pieces tail).head?, k.goesOn c = false) ↔
      ∀ q ∈ pieces.head?, q.1 = [] → k.fuses q.2.kind = false := by
  cases pieces with
  | nil =>
    refine iff_of_true (fun c hc => ?_) (by simp)
    exact Token.Kind.goesOn_of_isBlank (ht c (List.mem_of_mem_head? hc)) k
  | cons q pieces =>
    obtain ⟨gap, m⟩ := q
    cases gap with
    | nil =>
      have hm : m.Valid := hl _ List.mem_cons_self
      obtain ⟨c, cs, hc, -⟩ := hm.head
      simp [hc, hm.goesOn_head hc k]
    | cons c gap =>
      have hc : isBlank c := hg _ List.mem_cons_self c List.mem_cons_self
      simp [Token.Kind.goesOn_of_isBlank hc k]

theorem Lexeme.Valid.isBlank_head (h : l.Valid) (rest : List Char) :
    ∀ c ∈ (l.text ++ rest).head?, isBlank c = false := by
  obtain ⟨c, cs, ht, hb⟩ := h.head
  simp [ht, hb]

theorem laid_token_iff (hg : ∀ c ∈ gap, isBlank c) (hl : l.Valid) {rest : List Char} {t : Token}
    {ts : List Token} :
    Laid source before (gap ++ (l.text ++ rest)) (t :: ts) ∧ t.lexeme = l ↔
      t = Scan.token (.behind source (before ++ gap)) l ∧
        (∀ c ∈ rest.head?, l.kind.goesOn c = false) ∧
          Laid source (before ++ gap ++ l.text) rest ts := by
  constructor
  · intro h
    obtain ⟨h, hlex⟩ := h
    generalize htext : gap ++ (l.text ++ rest) = text at h
    cases h with
    | @token _ gap' rest' m _ hg' hm hstop hs =>
      rw [Scan.lexeme_token] at hlex
      subst hlex
      obtain ⟨rfl, hrest⟩ :=
        run_unique hg hg' (hl.isBlank_head rest) (hl.isBlank_head rest') htext
      obtain rfl := List.append_cancel_left hrest
      exact ⟨rfl, hstop, hs⟩
  · intro h
    obtain ⟨rfl, hstop, hs⟩ := h
    exact ⟨.token hg hl hstop hs, Scan.lexeme_token _ l⟩

theorem laid_printed_iff (source : String) (before : List Char) (hl : ∀ p ∈ pieces, p.2.Valid)
    (hg : ∀ p ∈ pieces, ∀ c ∈ p.1, isBlank c) (ht : ∀ c ∈ tail, isBlank c) :
    (∃ ts, Laid source before (printed pieces tail) ts ∧
      ts.map Token.lexeme = pieces.map Prod.snd) ↔
        pieces.IsChain fun p q => q.1 = [] → p.2.kind.fuses q.2.kind = false := by
  induction pieces generalizing before with
  | nil => exact iff_of_true ⟨[], .tail ht, rfl⟩ .nil
  | cons p pieces ih =>
    obtain ⟨gap, l⟩ := p
    obtain ⟨hlv, hl⟩ := List.forall_mem_cons.1 hl
    obtain ⟨hgb, hg⟩ := List.forall_mem_cons.1 hg
    rw [List.isChain_cons, ← ih (before ++ gap ++ l.text) hl hg,
      ← printed_stops_iff hl hg ht, printed_cons]
    constructor
    · intro h
      obtain ⟨ts, h, hmap⟩ := h
      cases ts with
      | nil => simp at hmap
      | cons t ts =>
        obtain ⟨hlex, hmap⟩ := List.cons.inj hmap
        obtain ⟨-, hstop, hs⟩ := (laid_token_iff hgb hlv).1 ⟨h, hlex⟩
        exact ⟨hstop, ts, hs, hmap⟩
    · intro h
      obtain ⟨hstop, ts, hs, hmap⟩ := h
      obtain ⟨h, hlex⟩ := (laid_token_iff hgb hlv).2 ⟨rfl, hstop, hs⟩
      exact ⟨_, h, by simp [hmap]⟩

end printed

theorem tokenize_lexemes_iff_laid {source : String} {text : List Char} {ls : List Lexeme} :
    (∃ seq, tokenize source (String.ofList text) = .ok seq ∧
      seq.toList.map Token.lexeme = ls ++ [⟨.finish, []⟩]) ↔
        ∃ ts, Laid source [] text ts ∧ ts.map Token.lexeme = ls := by
  constructor
  · intro h
    obtain ⟨seq, h, hmap⟩ := h
    obtain ⟨hl, -⟩ := tokenize_eq_ok_iff_laid.1 h
    rw [String.toList_ofList] at hl
    rw [TokenSeq.toList, List.map_append] at hmap
    exact ⟨seq.body, hl, (List.append_inj' hmap rfl).1⟩
  · intro h
    obtain ⟨ts, hl, rfl⟩ := h
    refine ⟨⟨ts, Scan.endMark (.behind source text), rfl⟩, tokenize_eq_ok_iff_laid.2 ?_, ?_⟩
    · simpa using hl
    · simp [TokenSeq.toList, Scan.endMark, Token.lexeme]

/-- Printed lexemes are read back, closed by the end mark, exactly when no two that touch fuse. -/
theorem tokenize_printed_iff (source : String) {pieces : List (List Char × Lexeme)}
    {tail : List Char} (hl : ∀ p ∈ pieces, p.2.Valid) (hg : ∀ p ∈ pieces, ∀ c ∈ p.1, isBlank c)
    (ht : ∀ c ∈ tail, isBlank c) :
    (∃ seq, tokenize source (String.ofList (printed pieces tail)) = .ok seq ∧
      seq.toList.map Token.lexeme = pieces.map Prod.snd ++ [⟨.finish, []⟩]) ↔
        pieces.IsChain fun p q => q.1 = [] → p.2.kind.fuses q.2.kind = false :=
  tokenize_lexemes_iff_laid.trans (laid_printed_iff source [] hl hg ht)

/-- The text `12abc ===`, a line end, and `=7;` with a tab behind it. -/
theorem tokenize_printed_touching :
    let pieces : List (List Char × Lexeme) :=
      [([], ⟨.number, ['1', '2']⟩), ([], ⟨.identifier, ['a', 'b', 'c']⟩),
        ([' '], ⟨.equals, ['=', '=']⟩), ([], ⟨.assign, ['=']⟩), (['\r', '\n'], ⟨.assign, ['=']⟩),
        ([], ⟨.number, ['7']⟩), ([], ⟨.semicolon, [';']⟩)]
    (∀ p ∈ pieces, p.2.Valid) ∧ (∀ p ∈ pieces, ∀ c ∈ p.1, isBlank c) ∧
      (∀ c ∈ ['\t'], isBlank c) ∧
      ∃ seq, tokenize "in" (String.ofList (printed pieces ['\t'])) = .ok seq ∧
        seq.toList.map Token.lexeme = pieces.map Prod.snd ++ [⟨.finish, []⟩] := by
  intro pieces
  have hl : ∀ p ∈ pieces, p.2.Valid := by decide
  have hg : ∀ p ∈ pieces, ∀ c ∈ p.1, isBlank c := by simp [pieces, isBlank]
  have ht : ∀ c ∈ ['\t'], isBlank c := by simp [isBlank]
  exact ⟨hl, hg, ht, (tokenize_printed_iff "in" hl hg ht).2 (by decide)⟩

end Scriptlet
