import Mathlib
import Scriptlet.Proofs.Isolation
import Scriptlet.Proofs.NestingGuard
import Scriptlet.Proofs.ReadingElsewhere

/-!
Programs that differ only in the blanks between their tokens. They are read as the same trees or
refused for the same token, and in the same scope they run alike: only lines and columns differ.
-/

namespace Scriptlet

open Scriptlet.Expr

/-- What is left of a place without its line and its column. -/
def Position.blurred (p : Position) : Position := ⟨p.source, 0, 0⟩

theorem sourceWise_blurred : SourceWise .blurred := fun _ => rfl

theorem Diagnostic.source_blurred (report : Diagnostic) :
    (report.relocate .blurred).position.source = report.position.source := by
  cases report <;> rfl

namespace TokenSeq

theorem eq_of_toList {s t : TokenSeq} (h : s.toList = t.toList) : s = t := by
  obtain ⟨body, last, hs⟩ := s
  obtain ⟨body', last', ht⟩ := t
  obtain ⟨rfl, hlast⟩ := List.append_inj' h rfl
  cases hlast
  rfl

end TokenSeq

/-- Apart from lines and columns, a sequence of tokens is made up of their kinds and texts. -/
theorem blurred_eq_of_lexemes {source text text' : String} {seq seq' : TokenSeq}
    (ht : tokenize source text = .ok seq) (ht' : tokenize source text' = .ok seq')
    (hs : seq.toList.map Token.lexeme = seq'.toList.map Token.lexeme) :
    seq.relocate .blurred = seq'.relocate .blurred := by
  have hplace {text : String} {seq : TokenSeq} (ht : tokenize source text = .ok seq) :
      (seq.relocate .blurred).toList =
        (seq.toList.map Token.lexeme).map (Scan.token ⟨source, 0, 0⟩) := by
    rw [TokenSeq.toList_relocate, List.map_map]
    refine List.map_congr_left fun t hmem => ?_
    simp [Scan.token, Token.lexeme, Token.relocate, Position.blurred, source_of_mem ht t hmem]
  refine TokenSeq.eq_of_toList ?_
  rw [hplace ht, hplace ht', hs]

/-- The same trees, up to their places, or complaints about the tokens at one index in the same
words. -/
inductive ReadAlike (seq seq' : TokenSeq) : Except Diagnostic Expr → Except Diagnostic Expr → Prop
  | tree {b b' : Expr} (hb : b.relocate .blurred = b'.relocate .blurred) :
      ReadAlike seq seq' (.ok b) (.ok b')
  | refused {wanted : Wanted} {k : Nat} (hk : k < seq.length) (hk' : k < seq'.length)
      (hm : (ParseFault.mk wanted (seq.get k)).message =
        (ParseFault.mk wanted (seq'.get k)).message) :
      ReadAlike seq seq' (.error (.syntactic ⟨wanted, seq.get k⟩))
        (.error (.syntactic ⟨wanted, seq'.get k⟩))

variable {seq seq' : TokenSeq}

theorem block_start_relocate {f : Position → Position} (hf : SourceWise f) (seq : TokenSeq) :
    let r := (Cursor.start seq).block (Cursor.start seq).ampleRoom
    (Cursor.start (seq.relocate f)).block (Cursor.start (seq.relocate f)).ampleRoom =
      ((r.1.map (Expr.relocate f)).mapError (Diagnostic.relocate f), r.2.relocate f) := by
  have hstart : Cursor.start (seq.relocate f) = (Cursor.start seq).relocate f := rfl
  rw [hstart, Cursor.ampleRoom_relocate, Cursor.block_relocate _ hf]

theorem block_blurred (h : seq.relocate .blurred = seq'.relocate .blurred) :
    let r := (Cursor.start seq).block (Cursor.start seq).ampleRoom
    let r' := (Cursor.start seq').block (Cursor.start seq').ampleRoom
    (r.1.map (Expr.relocate .blurred)).mapError (Diagnostic.relocate .blurred) =
        (r'.1.map (Expr.relocate .blurred)).mapError (Diagnostic.relocate .blurred) ∧
      r.2.index = r'.2.index := by
  have hb := block_start_relocate sourceWise_blurred seq
  have hb' := block_start_relocate sourceWise_blurred seq'
  rw [h] at hb
  obtain ⟨hresult, hd⟩ := Prod.mk.inj (hb.symm.trans hb')
  have hindex := congrArg Cursor.index hd
  exact ⟨hresult, hindex⟩

theorem exists_blamed_of_block {report : Diagnostic} {d : Cursor}
    (h : (Cursor.start seq).block (Cursor.start seq).ampleRoom = (.error report, d)) :
    ∃ wanted, d.index < seq.length ∧ report = .syntactic ⟨wanted, seq.get d.index⟩ := by
  obtain ⟨wanted, rest, -, rfl, rfl⟩ := Cursor.block_eq_error_iff_run.1 h
  exact ⟨wanted, Nat.lt_succ_of_le ((Cursor.start seq).moveToRest rest).index_le, rfl⟩

theorem readAlike_block (h : seq.relocate .blurred = seq'.relocate .blurred) :
    ReadAlike seq seq' ((Cursor.start seq).block (Cursor.start seq).ampleRoom).1
      ((Cursor.start seq').block (Cursor.start seq').ampleRoom).1 := by
  obtain ⟨hresult, hindex⟩ := block_blurred h
  rcases hr : (Cursor.start seq).block (Cursor.start seq).ampleRoom with ⟨result, d⟩
  rcases hr' : (Cursor.start seq').block (Cursor.start seq').ampleRoom with ⟨result', d'⟩
  rw [hr, hr'] at hresult hindex
  cases result with
  | ok b =>
    cases result' with
    | ok b' => exact .tree (Except.ok.inj hresult)
    | error => cases hresult
  | error report =>
    cases result' with
    | ok => cases hresult
    | error report' =>
      have hreport : report.relocate .blurred = report'.relocate .blurred := Except.error.inj hresult
      obtain ⟨wanted, hk, rfl⟩ := exists_blamed_of_block hr
      obtain ⟨wanted', hk', rfl⟩ := exists_blamed_of_block hr'
      have hm := congrArg Diagnostic.message hreport
      rw [Diagnostic.message_relocate, Diagnostic.message_relocate] at hm
      obtain rfl : wanted = wanted' :=
        congrArg ParseFault.wanted (Diagnostic.syntactic.inj hreport)
      have hk'' : d.index = d'.index := hindex
      rw [hk''] at hk hm ⊢
      exact .refused hk hk' hm

namespace Workspace

/-- The same answer, but for the line and the column of a failure. -/
inductive Reply.Alike : Reply → Reply → Prop
  | value (v : Value) : Alike (.value v) (.value v)
  | failed {report report' : Diagnostic} (hr : report.relocate .blurred = report'.relocate .blurred)
      (hm : report.message = report'.message)
      (hs : report.position.source = report'.position.source) :
      Alike (.failed report) (.failed report')

theorem Reply.alike_failed {report report' : Diagnostic}
    (h : report.relocate .blurred = report'.relocate .blurred) :
    Alike (.failed report) (.failed report') := by
  have hm := congrArg Diagnostic.message h
  have hs := congrArg (fun r => r.position.source) h
  rw [Diagnostic.message_relocate, Diagnostic.message_relocate] at hm
  simp only [Diagnostic.source_blurred] at hs
  exact .failed h hm hs

/-- Trees that differ in their places only run alike in the same scope, and so do reports that they
cannot be read. -/
theorem evalAlone_alike (s : Scope) {tree tree' : Except Diagnostic Expr}
    (h : (tree.map (Expr.relocate .blurred)).mapError (Diagnostic.relocate .blurred) =
      (tree'.map (Expr.relocate .blurred)).mapError (Diagnostic.relocate .blurred)) :
    (evalAlone s tree).1.Alike (evalAlone s tree').1 ∧
      (evalAlone s tree).2 = (evalAlone s tree').2 := by
  cases tree with
  | error report =>
    cases tree' with
    | ok => cases h
    | error report' => exact ⟨Reply.alike_failed (Except.error.inj h), rfl⟩
  | ok b =>
    cases tree' with
    | error => cases h
    | ok b' =>
      have hb : b.relocate .blurred = b'.relocate .blurred := Except.ok.inj h
      have hrun := b.eval_relocate .blurred (.start s)
      rw [hb, eval_relocate] at hrun
      have hm : (b.eval (.start s)).machine = (b'.eval (.start s)).machine :=
        (congrArg Outcome.machine hrun).symm
      have hresult := congrArg Outcome.result hrun
      simp only [evalAlone, hm, and_true]
      rcases hv : (b.eval (.start s)).result with fault | v <;>
        rcases hv' : (b'.eval (.start s)).result with fault' | v' <;>
        simp only [Outcome.relocate, hv, hv'] at hresult
      · have hf := Except.error.inj hresult
        exact Reply.alike_failed (congrArg Diagnostic.call hf.symm)
      · cases hresult
      · cases hresult
      · cases hresult
        exact .value v

theorem scope_store_self {w : Workspace} {i : Nat} (hi : i < w.scopes.length) {s : Scope}
    (hs : s.outer = (w.scope i).outer) : (w.store i s).scope i = s := by
  obtain ⟨own, outer⟩ := s
  cases hs
  rw [scope, own_store_self hi]
  rfl

/-- A step of two workspaces goes alike in scopes that are equal, if it does by itself. -/
theorem step_alike {w w' : Workspace} {i i' : Nat} {step step' : Step} (hi : i < w.scopes.length)
    (hi' : i' < w'.scopes.length) (hs : w.scope i = w'.scope i')
    (h : (stepAlone (w.scope i) step).1.Alike (stepAlone (w.scope i) step').1 ∧
      (stepAlone (w.scope i) step).2 = (stepAlone (w.scope i) step').2) :
    (w.step i step).1.Alike (w'.step i' step').1 ∧
      (w.step i step).2.1 = (w'.step i' step').2.1 ∧
      (w.step i step).2.2.scope i = (w'.step i' step').2.2.scope i' := by
  obtain ⟨hreply, hrest⟩ := h
  simp only [step_eq, ← hs]
  refine ⟨hreply, congrArg Prod.fst hrest, ?_⟩
  rw [scope_store_self hi (outer_stepAlone _ _), scope_store_self hi' (by rw [outer_stepAlone, hs]),
    hrest]

end Workspace

/-- Two texts whose tokens are of the same kinds and have the same texts are read alike: as trees
that differ in their places only, or with the same complaint about the token at the same index. Run
in equal scopes, they print the same, leave the same scope and give the same answer, but for the
line and the column of a failure. -/
theorem respaced_alike {source text text' : String} (ht : tokenize source text = .ok seq)
    (ht' : tokenize source text' = .ok seq')
    (hs : seq.toList.map Token.lexeme = seq'.toList.map Token.lexeme) :
    ReadAlike seq seq' (parseProgram source text) (parseProgram source text') ∧
      ∀ (w w' : Workspace) (i i' : Nat), i < w.scopes.length → i' < w'.scopes.length →
        w.scope i = w'.scope i' →
          let r := w.step i (.run source text)
          let r' := w'.step i' (.run source text')
          r.1.Alike r'.1 ∧ r.2.1 = r'.2.1 ∧ r.2.2.scope i = r'.2.2.scope i' := by
  have hseq := blurred_eq_of_lexemes ht ht' hs
  rw [parseProgram_eq_block ht, parseProgram_eq_block ht']
  refine ⟨readAlike_block hseq, fun w w' i i' hi hi' hscope =>
    Workspace.step_alike hi hi' hscope (Workspace.evalAlone_alike _ ?_)⟩
  rw [parseProgram_eq_block ht, parseProgram_eq_block ht']
  exact (block_blurred hseq).1

/-- A call with its parentheses apart, in the second line, and the same call without any blanks. -/
theorem respaced_alike_call :
    let text := "\n f ( ) ;"
    let text' := "f();"
    let run (text : String) := (Workspace.start 1).step 0 (.run "in" text)
    ∃ seq seq', tokenize "in" text = .ok seq ∧ tokenize "in" text' = .ok seq' ∧ seq ≠ seq' ∧
      ReadAlike seq seq' (parseProgram "in" text) (parseProgram "in" text') ∧
      (run text).1.Alike (run text').1 ∧ (run text).2.1 = (run text').2.1 := by
  intro text text' run
  let tokens (paren : Token.Kind → String → Int → Token) (last : Token) (h : last.kind = .finish) :
      TokenSeq := ⟨[paren .identifier "f" 0, paren .leftParen "(" 1, paren .rightParen ")" 2,
        paren .semicolon ";" 3], last, h⟩
  let seq := tokens (fun k t n => ⟨k, t, ⟨"in", 2, 2 + 2 * n⟩⟩) ⟨.finish, "", ⟨"in", 2, 9⟩⟩ rfl
  let seq' := tokens (fun k t n => ⟨k, t, ⟨"in", 1, 1 + n⟩⟩) ⟨.finish, "", ⟨"in", 1, 5⟩⟩ rfl
  have ht : tokenize "in" text = .ok seq := by cbv
  have ht' : tokenize "in" text' = .ok seq' := by cbv
  obtain ⟨hread, hrun⟩ := respaced_alike ht ht' rfl
  obtain ⟨hreply, hprinted, -⟩ :=
    hrun (Workspace.start 1) (Workspace.start 1) 0 0 (by decide) (by decide) rfl
  refine ⟨seq, seq', ht, ht', fun h => ?_, hread, hreply, hprinted⟩
  exact absurd (congrArg (fun s => s.last.position.line) h) (by decide)

end Scriptlet
