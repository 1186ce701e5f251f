import Scriptlet.Proofs.ProgramReading
import Scriptlet.Proofs.TokenLayout

/-!
Which texts are programs. The tokens of a text hold no end mark but the last one, so a program that
is read from a text takes all of it.
-/

namespace Scriptlet

open Scriptlet.Expr

theorem Laid.kind_ne_finish {source : String} {before text : List Char} {ts : List Token}
    (h : Laid source before text ts) : ∀ t ∈ ts, t.kind ≠ .finish := by
  induction h with
  | tail => simp
  | token _ hl _ _ ih => exact List.forall_mem_cons.2 ⟨hl.kind_ne_finish, ih⟩

theorem TokenSeq.segment_body (s : TokenSeq) : s.segment 0 s.body.length = s.body := by
  have h := segment_append_drop (s := s) (Nat.zero_le _) (Nat.le_refl s.body.length)
  simpa using h

theorem lex_eq_ok_iff {source text : String} {c : Cursor} :
    lex source text = .ok c ↔ ∃ seq, tokenize source text = .ok seq ∧ c = .start seq := by
  rw [lex]
  cases tokenize source text with
  | error fault => simp
  | ok seq => simp [eq_comm]

theorem parseProgram_eq_block {source text : String} {seq : TokenSeq}
    (h : tokenize source text = .ok seq) : parseProgram source text =
      ((Cursor.start seq).block (Cursor.start seq).ampleRoom).1 := by
  rw [parseProgram, lex_eq_ok_iff.2 ⟨seq, h, rfl⟩]

namespace Cursor

/-- The end mark that a program is read to is the last one, if there is no other. -/
theorem spansProgram_start_iff {seq : TokenSeq} {d : Cursor} {es : List Expr}
    (hf : ∀ t ∈ seq.body, t.kind ≠ .finish) : (Cursor.start seq).SpansProgram d es ↔
      d = ⟨seq, seq.body.length, Nat.le_refl _⟩ ∧
        ∃ last, WrittenProgram es last seq.body ∧ ∀ e ∈ es ++ last.toList, e.Canonical := by
  constructor
  · intro h
    obtain ⟨tokens, k, hk⟩ := d
    obtain ⟨ht, hw, hfin⟩ := h
    obtain rfl : tokens = seq := ht
    have hend : k = tokens.body.length := by
      refine Nat.le_antisymm hk (Nat.le_of_not_lt fun hlt => ?_)
      refine hf tokens.body[k] (List.getElem_mem hlt) ?_
      simpa [current, TokenSeq.get, hlt] using hfin
    subst hend
    refine ⟨rfl, ?_⟩
    simpa only [start, TokenSeq.segment_body] using hw
  · intro h
    obtain ⟨rfl, hw⟩ := h
    refine ⟨rfl, ?_, ?_⟩
    · simpa only [start, TokenSeq.segment_body] using hw
    · simp [current, TokenSeq.get_body_length, seq.last_kind]

end Cursor

/-- A text is a program just if its tokens are written statements, which the last one closes or one
more expression follows. -/
theorem parseProgram_eq_ok_iff {source text : String} {b : Expr} :
    parseProgram source text = .ok b ↔ ∃ seq es last, tokenize source text = .ok seq ∧
      WrittenProgram es last seq.body ∧ (∀ e ∈ es ++ last.toList, e.Canonical) ∧
        b = .block es (seq.get 0).position := by
  have hparse {c : Cursor} (hc : lex source text = .ok c) :
      parseProgram source text = (c.block c.ampleRoom).1 := by rw [parseProgram, hc]
  constructor
  · intro h
    cases hl : lex source text with
    | error report => simp [parseProgram, hl] at h
    | ok c =>
      obtain ⟨seq, ht, rfl⟩ := lex_eq_ok_iff.1 hl
      obtain ⟨d, hb⟩ : ∃ d, (Cursor.start seq).block (Cursor.start seq).ampleRoom = (.ok b, d) :=
        ⟨_, Prod.ext ((hparse hl).symm.trans h) rfl⟩
      obtain ⟨es, rfl, hp⟩ := Cursor.block_eq_ok_iff.1 hb
      obtain ⟨-, last, hw, hc⟩ := (Cursor.spansProgram_start_iff
        (tokenize_eq_ok_iff_laid.1 ht).1.kind_ne_finish).1 (Cursor.program_eq_ok_iff.1 hp)
      exact ⟨seq, es, last, ht, hw, hc, rfl⟩
  · intro h
    obtain ⟨seq, es, last, ht, hw, hc, rfl⟩ := h
    have hl := lex_eq_ok_iff.2 ⟨seq, ht, rfl⟩
    have hs := (Cursor.spansProgram_start_iff
      (tokenize_eq_ok_iff_laid.1 ht).1.kind_ne_finish).2 ⟨rfl, last, hw, hc⟩
    rw [hparse hl, Cursor.block_eq_ok_iff.2 ⟨es, rfl, Cursor.program_eq_ok_iff.2 hs⟩]
    rfl

end Scriptlet
