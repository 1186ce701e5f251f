import Scriptlet.Session
import Scriptlet.Proofs.Isolation
import Scriptlet.Proofs.DeepNesting

/-!
Programs that nest too deeply. Whatever bounds the host has on the number of calls and assignments
that are open at once, while a program is read and while it runs, a program that keeps to both goes
as if there were none, and one that exceeds the bound on reading is refused before anything runs.
Operators take no room, however many are chained.
-/

namespace Scriptlet

open Token Scriptlet.Expr

/-- The text is a program: its tokens are the statements `es`, behind which the expression `last` is
checked and left out, if there is one. -/
structure IsProgram (source text : String) (seq : TokenSeq) (es : List Expr) (last : Option Expr) :
    Prop where
  tokens : tokenize source text = .ok seq
  written : WrittenProgram es last seq.body
  canonical : ∀ e ∈ es ++ last.toList, e.Canonical

theorem exists_isProgram_iff {source text : String} :
    (∃ seq es last, IsProgram source text seq es last) ↔ ∃ b, parseProgram source text = .ok b := by
  constructor
  · intro h
    obtain ⟨seq, es, last, ht, hw, hc⟩ := h
    exact ⟨_, parseProgram_eq_ok_iff.2 ⟨seq, es, last, ht, hw, hc, rfl⟩⟩
  · intro h
    obtain ⟨b, hb⟩ := h
    obtain ⟨seq, es, last, ht, hw, hc, -⟩ := parseProgram_eq_ok_iff.1 hb
    exact ⟨seq, es, last, ht, hw, hc⟩

theorem Laid.source_position {source : String} {before text : List Char} {ts : List Token}
    (h : Laid source before text ts) : ∀ t ∈ ts, t.position.source = source := by
  induction h with
  | tail => simp
  | token _ _ _ _ ih => exact List.forall_mem_cons.2 ⟨rfl, ih⟩

/-- All tokens of a text know its name. -/
theorem source_of_mem {source text : String} {seq : TokenSeq} (h : tokenize source text = .ok seq) :
    ∀ t ∈ seq.toList, t.position.source = source := by
  obtain ⟨hl, hlast⟩ := tokenize_eq_ok_iff_laid.1 h
  rw [TokenSeq.toList, List.forall_mem_append, List.forall_mem_singleton, hlast]
  exact ⟨hl.source_position, rfl⟩

theorem source_get {source text : String} {seq : TokenSeq} (h : tokenize source text = .ok seq)
    (i : Nat) : (seq.get i).position.source = source := source_of_mem h _ (seq.get_mem i)

namespace Cursor

variable {source text : String} {seq : TokenSeq} {es : List Expr} {last : Option Expr} {room : Nat}

theorem program_of_fits (h : IsProgram source text seq es last)
    (hf : ∀ e ∈ es ++ last.toList, e.Fits room) : ((start seq).program room).1 = .ok es := by
  have hs : (start seq).SpansProgram ⟨seq, seq.body.length, Nat.le_refl _⟩ es :=
    (spansProgram_start_iff (tokenize_eq_ok_iff_laid.1 h.tokens).1.kind_ne_finish).2
      ⟨rfl, last, h.written, h.canonical⟩
  have hseg : WrittenProgram es last ((start seq).tokens.segment 0 seq.body.length) := by
    rw [start, TokenSeq.segment_body]
    exact h.written
  have hread : (start seq).program room = (.ok es, ⟨seq, seq.body.length, Nat.le_refl _⟩) :=
    program_eq_ok_iff_fits.2 ⟨rfl, hs.finish, last, hseg, hf⟩
  exact congrArg Prod.fst hread

/-- A program is read if its expressions keep to the bound, or if there is none. -/
theorem program_of_nesting_le (h : IsProgram source text seq es last) {limit : Option Nat}
    (hn : ∀ room ∈ limit, nestingAll (es ++ last.toList) ≤ room) :
    ((start seq).program (limit.getD (start seq).ampleRoom)).1 = .ok es := by
  refine program_of_fits h fun e he => ⟨h.canonical e he, ?_⟩
  cases limit with
  | some room => exact nestingAll_le.1 (hn room rfl) e he
  | none =>
    have hlen : seq.body.length ≤ (start seq).ampleRoom := Nat.le_succ _
    exact Nat.le_trans (Nat.le_of_lt (h.written.nesting_lt_length e he)) hlen

end Cursor

namespace Session

variable {s : Session} {source text : String} {seq : TokenSeq} {es : List Expr}
  {last : Option Expr}

theorem run_of_lex_error {fault : LexFault} (h : tokenize source text = .error fault) :
    s.run source text = (s.refused (.lexical fault) [], s) := by
  rw [run, lex, h]

theorem run_of_program_error {report : Diagnostic} (h : tokenize source text = .ok seq)
    (hp : ((Cursor.start seq).program (s.host.reading.getD (Cursor.start seq).ampleRoom)).1 =
      .error report) :
    s.run source text = (s.refused report [lexedLine source seq.length], s) := by
  have hl : lex source text = .ok (.start seq) := lex_eq_ok_iff.2 ⟨seq, h, rfl⟩
  simp only [run, hl, hp]
  rfl

/-- The transcript of a program that has been read, by what came of its statements. -/
def concluded (s : Session) (source : String) (seq : TokenSeq) (es : List Expr)
    (b : Bounded Value) : Transcript :=
  ⟨(conclude source b).1, s.sink, (conclude source b).2.output,
    s.logged [lexedLine source seq.length, parsedLine es.length, runningLine]⟩

theorem run_of_program_ok (h : tokenize source text = .ok seq)
    (hp : ((Cursor.start seq).program (s.host.reading.getD (Cursor.start seq).ampleRoom)).1 =
      .ok es) :
    s.run source text = (s.concluded source seq es ((Expr.block es (seq.get 0).position).evalWithin
      s.host.running (.start (.inside s.module))), s) := by
  have hl : lex source text = .ok (.start seq) := lex_eq_ok_iff.2 ⟨seq, h, rfl⟩
  refine Prod.ext ?_ (run_snd s source text)
  simp only [run, hl, hp]
  rfl

/-- Run the statements of a program in a scope of its own, in as much room as they take. -/
def runStatements (s : Session) (es : List Expr) (start : Position) : Outcome Value :=
  (Expr.block es start).eval (.start (.inside s.module))

/-- What comes of a program that is read and run to its end. -/
def completed (s : Session) (source : String) (seq : TokenSeq) (es : List Expr) : Transcript :=
  let outcome := s.runStatements es (seq.get 0).position
  ⟨outcome.result.mapError .call, s.sink, outcome.machine.output,
    s.logged [lexedLine source seq.length, parsedLine es.length, runningLine]⟩

/-- A program that keeps to both bounds is read and run as if there were none. -/
theorem run_of_nesting_le (h : IsProgram source text seq es last)
    (hreading : ∀ room ∈ s.host.reading, nestingAll (es ++ last.toList) ≤ room)
    (hrunning : ∀ room ∈ s.host.running, nestingAll es ≤ room) :
    s.run source text = (s.completed source seq es, s) := by
  rw [run_of_program_ok h.tokens (Cursor.program_of_nesting_le h hreading),
    evalWithin_eq hrunning]
  rfl

end Session

end Scriptlet
