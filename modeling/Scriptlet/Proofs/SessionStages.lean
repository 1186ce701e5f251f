import Scriptlet.Proofs.Isolation
import Scriptlet.Proofs.NestingGuard
import Scriptlet.Proofs.ReadingElsewhere

/-!
How far a run of a session comes: to the end of the text, to the end of the tokens, or to the
statements. Nothing is printed before the last of these. The stage alone decides what is logged, and
neither the log nor the name of the source has a part in anything else.
-/

namespace Scriptlet

open Scriptlet.Expr

/-- The same place in a source of another name. -/
def Position.named (name : String) (p : Position) : Position := { p with source := name }

theorem sourceWise_named (name : String) : SourceWise (.named name) := fun _ => rfl

theorem Position.after_named (name : String) (p : Position) (c : Char) :
    (p.named name).after c = (p.after c).named name := by
  unfold after
  split <;> rfl

theorem Position.afterText_named (name : String) (p : Position) (text : List Char) :
    (p.named name).afterText text = (p.afterText text).named name := by
  induction text generalizing p with
  | nil => rfl
  | cons c text ih => rw [afterText_cons, afterText_cons, after_named, ih]

theorem tokenize_named (name source text : String) : tokenize name text =
    ((tokenize source text).map (TokenSeq.relocate (.named name))).mapError
      (LexFault.relocate (.named name)) := by
  have hstart : Position.start name = (Position.start source).named name := rfl
  have hscan := Scan.of_relocate (.named name) (.start source) text.toList fun front =>
    (Position.afterText_named name (.start source) front).symm
  rw [tokenize, tokenize, hstart, hscan, Scan.fault?, Scan.fault?]
  cases (Scan.of (.start source) text.toList).rest <;> rfl

/-- A program that a session does not read nests too deeply for it, or it is no program at all. -/
theorem Cursor.program_start_eq_error {source text : String} {seq : TokenSeq} {room : Nat}
    {report : Diagnostic} (ht : tokenize source text = .ok seq)
    (h : ((start seq).program room).1 = .error report) :
    report = .tooDeep source ∧ 2 * room + 2 ≤ seq.body.length ∨
      ∃ fault, report = .syntactic fault ∧ parseProgram source text = .error report := by
  have hrest : (start seq).rest = seq.body := rfl
  rw [program, hrest] at h
  split at h
  next => cases h
  next halt hrun =>
    cases halt with
    | tooDeep rest =>
      cases h
      exact .inl ⟨congrArg Diagnostic.tooDeep (source_get ht _),
        Parser.length_of_statementsRun_tooDeep (Parser.ample_expression room) hrun⟩
    | unexpected wanted rest =>
      cases h
      obtain ⟨front, hbody, -, hblame⟩ := Parser.statementsRun_blames
        (Parser.reads_expression room) (Parser.blamesEarliest_expression room) hrun
      -- The same token is blamed by a parser that has room for all tokens.
      have hample : Parser.statementsRun (Parser.expression (start seq).ampleRoom)
          (start seq).rest = .error (.unexpected wanted rest) := by
        rw [hrest, hbody]
        refine hblame (.inl rfl) ?_
        rw [← hbody]
        exact Nat.le_succ _
      have hb := block_eq_error_iff_run.2 ⟨wanted, rest, hample, rfl, rfl⟩
      exact .inr ⟨_, rfl, (parseProgram_eq_block ht).trans (congrArg Prod.fst hb)⟩

theorem isProgram_of_program_start {source text : String} {seq : TokenSeq} {room : Nat}
    {es : List Expr} (ht : tokenize source text = .ok seq)
    (h : ((Cursor.start seq).program room).1 = .ok es) :
    ∃ last, IsProgram source text seq es last := by
  have hp : (Cursor.start seq).program room = (.ok es, ((Cursor.start seq).program room).2) :=
    Prod.ext h rfl
  obtain ⟨hd, hfin, last, hw, hf⟩ := Cursor.program_eq_ok_iff_fits.1 hp
  have hs := (Cursor.spansProgram_start_iff
    (tokenize_eq_ok_iff_laid.1 ht).1.kind_ne_finish).1
      ⟨hd, ⟨last, hw, fun e he => (hf e he).1⟩, hfin⟩
  obtain ⟨-, last, hw, hc⟩ := hs
  exact ⟨last, ht, hw, hc⟩

/-- What is refused nests too deeply, if it is a program. -/
theorem IsProgram.lt_nesting {source text : String} {seq : TokenSeq} {room : Nat}
    {es : List Expr} {last : Option Expr} {report : Diagnostic}
    (hw : IsProgram source text seq es last)
    (h : ((Cursor.start seq).program room).1 = .error report) :
    room < nestingAll (es ++ last.toList) := by
  refine Nat.lt_of_not_le fun hle => ?_
  have hread := Cursor.program_of_fits hw fun e he => ⟨hw.canonical e he, nestingAll_le.1 hle e he⟩
  rw [h] at hread
  cases hread

namespace Session

/-- Where a run ends: at a character that starts no token, while it reads the tokens, or at or
behind the statements. The end mark is one of the tokens. -/
inductive Stage where
  | unread
  | lexed (tokens : Nat)
  | running (tokens statements : Nat)

/-- The log of a run that comes to a stage. -/
def Stage.log (name : String) : Stage → List String
  | unread => []
  | lexed n => ["[omg] Lexed " ++ toString n ++ " tokens from " ++ name ++ "\n"]
  | running n m => ["[omg] Lexed " ++ toString n ++ " tokens from " ++ name ++ "\n",
      "[omg] Parsed " ++ toString m ++ " statements\n", "[omg] Running...\n"]

/-- What a stage says about the text and about what came of it. A run that wants for room behind the
statements has begun what it does where nothing is bounded. -/
inductive Stage.Reached (s : Session) (source text : String) (t : Transcript) : Stage → Prop
  | unread {fault : LexFault} (ht : tokenize source text = .error fault)
      (hr : t.result = .error (.lexical fault)) (hp : t.printed = "") :
      Reached s source text t unread
  | unparsed {seq : TokenSeq} {fault : ParseFault} (ht : tokenize source text = .ok seq)
      (hb : parseProgram source text = .error (.syntactic fault))
      (hr : t.result = .error (.syntactic fault)) (hp : t.printed = "") :
      Reached s source text t (lexed seq.toList.length)
  | tooDeep {seq : TokenSeq} {room : Nat} (ht : tokenize source text = .ok seq)
      (hs : s.host.reading = some room) (hl : 2 * room + 2 ≤ seq.body.length)
      (hd : ∀ es last, IsProgram source text seq es last → room < nestingAll (es ++ last.toList))
      (hr : t.result = .error (.tooDeep source)) (hp : t.printed = "") :
      Reached s source text t (lexed seq.toList.length)
  | running {seq : TokenSeq} {es : List Expr} {last : Option Expr}
      (hw : IsProgram source text seq es last)
      (hr : t.result = (s.runStatements es (seq.get 0).position).result.mapError .call)
      (hp : t.printed = (s.runStatements es (seq.get 0).position).machine.output) :
      Reached s source text t (running seq.toList.length es.length)
  | gaveUp {seq : TokenSeq} {es : List Expr} {last : Option Expr} {room : Nat} {m : Machine}
      (hw : IsProgram source text seq es last) (hs : s.host.running = some room)
      (hd : room < nestingAll es)
      (hm : m.LeadsTo (s.runStatements es (seq.get 0).position).machine)
      (hr : t.result = .error (.tooDeep source)) (hp : t.printed = m.output) :
      Reached s source text t (running seq.toList.length es.length)

variable {s : Session} {source text : String} {seq : TokenSeq}

theorem Stage.Reached.exists_program {t : Transcript} {stage : Stage}
    (h : stage.Reached s source text t) (hp : t.printed ≠ "") :
    ∃ b, parseProgram source text = .ok b := by
  cases h with
  | unread _ _ hn | unparsed _ _ _ hn | tooDeep _ _ _ _ _ hn => exact absurd hn hp
  | running hw | gaveUp hw => exact exists_isProgram_iff.1 ⟨_, _, _, hw⟩

/-- A place in the report of a run is moved to the other name. -/
theorem Stage.Reached.position_relocate {t : Transcript} {stage : Stage} {report : Diagnostic}
    (h : stage.Reached s source text t) (hr : t.result = .error report) (name : String) :
    (report.relocate (.named name)).position = report.position.named name := by
  cases h with
  | unread _ hr' | unparsed _ _ hr' | tooDeep _ _ _ _ hr' | gaveUp _ _ _ _ hr' =>
    cases hr.symm.trans hr'
    rfl
  | @running seq es last hw hr' =>
    have hr' := hr.symm.trans hr'
    cases hv : (s.runStatements es (seq.get 0).position).result with
    | ok v => simp [hv, Except.mapError] at hr'
    | error fault =>
      rw [hv] at hr'
      cases hr'
      rfl

theorem line_lexed (name : String) (n : Nat) :
    "[omg] " ++ lexedLine name n ++ "\n" =
      "[omg] Lexed " ++ toString n ++ " tokens from " ++ name ++ "\n" := by
  simp only [lexedLine, ← String.append_assoc]
  rfl

theorem logged_lexed (name : String) (n : Nat) :
    s.logged [lexedLine name n] = if s.verbose then (Stage.lexed n).log name else [] := by
  rw [Stage.log, ← line_lexed]
  rfl

theorem logged_running (name : String) (n m : Nat) :
    s.logged [lexedLine name n, parsedLine m, runningLine] =
      if s.verbose then (Stage.running n m).log name else [] := by
  have hparsed : "[omg] " ++ parsedLine m ++ "\n" =
      "[omg] Parsed " ++ toString m ++ " statements\n" := by
    simp only [parsedLine, String.append_assoc]
    rw [← String.append_assoc]
    rfl
  rw [Stage.log, ← line_lexed, ← hparsed]
  rfl

/-- What comes of a text under another name, with or without a log, when a run comes to the stage
and has this transcript. -/
def Renames (s : Session) (text : String) (t : Transcript) (stage : Stage) : Prop :=
  ∀ verbose name, { s with verbose }.run name text =
    (⟨t.result.mapError (Diagnostic.relocate (.named name)), t.sink, t.printed,
      if verbose then stage.log name else []⟩, { s with verbose })

theorem renames_of_lex_error {fault : LexFault} (h : tokenize source text = .error fault) :
    s.Renames text (s.run source text).1 .unread := by
  intro verbose name
  have hname : tokenize name text = .error (fault.relocate (.named name)) := by
    rw [tokenize_named name source, h]
    rfl
  rw [run_of_lex_error hname, run_of_lex_error h]
  rfl

theorem tokenize_named_of_ok (h : tokenize source text = .ok seq) (name : String) :
    tokenize name text = .ok (seq.relocate (.named name)) := by
  rw [tokenize_named name source, h]
  rfl

theorem program_named (seq : TokenSeq) (name : String) (room : Nat) :
    ((Cursor.start (seq.relocate (.named name))).program room).1 =
      (((Cursor.start seq).program room).1.map (List.map (Expr.relocate (.named name)))).mapError
        (Diagnostic.relocate (.named name)) :=
  congrArg Prod.fst ((Cursor.start seq).program_relocate (sourceWise_named name) room)

theorem renames_of_program_error {report : Diagnostic} (h : tokenize source text = .ok seq)
    (hp : ((Cursor.start seq).program (s.host.reading.getD (Cursor.start seq).ampleRoom)).1 =
      .error report) :
    s.Renames text (s.run source text).1 (.lexed seq.toList.length) := by
  intro verbose name
  let seq' := seq.relocate (.named name)
  have hample : (Cursor.start seq').ampleRoom = (Cursor.start seq).ampleRoom :=
    (Cursor.start seq).ampleRoom_relocate (.named name)
  have hp' : ((Cursor.start seq').program (s.host.reading.getD (Cursor.start seq').ampleRoom)).1 =
      .error (report.relocate (.named name)) := by
    rw [hample, program_named, hp]
    rfl
  have hrun := @run_of_program_error { s with verbose } _ _ _ _ (tokenize_named_of_ok h name) hp'
  rw [hrun, run_of_program_error h hp, TokenSeq.length_relocate, TokenSeq.length_toList, refused,
    logged_lexed]
  rfl

/-- What comes of the statements is placed in the source that they stand in. -/
theorem conclude_relocate (name source : String) (b : Bounded Value) :
    conclude name (b.relocate (.named name)) =
      ((conclude source b).1.mapError (Diagnostic.relocate (.named name)),
        (conclude source b).2) := by
  rcases b with m | ⟨_ | v, m⟩ <;> rfl

theorem concluded_relocate (verbose : Bool) (name source : String) (es : List Expr)
    (b : Bounded Value) :
    { s with verbose }.concluded name (seq.relocate (.named name))
        (es.map (Expr.relocate (.named name))) (b.relocate (.named name)) =
      let t := s.concluded source seq es b
      ⟨t.result.mapError (Diagnostic.relocate (.named name)), t.sink, t.printed,
        if verbose then (Stage.running seq.toList.length es.length).log name else []⟩ := by
  simp only [concluded, conclude_relocate name source, TokenSeq.length_relocate, List.length_map,
    TokenSeq.length_toList, logged_running]

theorem renames_of_program_ok {es : List Expr} (h : tokenize source text = .ok seq)
    (hp : ((Cursor.start seq).program (s.host.reading.getD (Cursor.start seq).ampleRoom)).1 =
      .ok es) :
    s.Renames text (s.run source text).1 (.running seq.toList.length es.length) := by
  intro verbose name
  let seq' := seq.relocate (.named name)
  have hample : (Cursor.start seq').ampleRoom = (Cursor.start seq).ampleRoom :=
    (Cursor.start seq).ampleRoom_relocate (.named name)
  have hp' : ((Cursor.start seq').program (s.host.reading.getD (Cursor.start seq').ampleRoom)).1 =
      .ok (es.map (Expr.relocate (.named name))) := by
    rw [hample, program_named, hp]
    rfl
  have hblock : Expr.block (es.map (Expr.relocate (.named name))) (seq'.get 0).position =
      (Expr.block es (seq.get 0).position).relocate (.named name) := by
    rw [Expr.relocate, Expr.relocateAll_eq_map, TokenSeq.get_relocate, Token.position_relocate]
  have hrun := @run_of_program_ok { s with verbose } _ _ _ _ (tokenize_named_of_ok h name) hp'
  rw [hrun, run_of_program_ok h hp, hblock, Expr.evalWithin_relocate,
    concluded_relocate verbose name source]

/-- A program that is read is run to its end, or as far as there is room. -/
theorem reached_of_program_ok {es : List Expr} (h : tokenize source text = .ok seq)
    (hp : ((Cursor.start seq).program (s.host.reading.getD (Cursor.start seq).ampleRoom)).1 =
      .ok es) :
    (Stage.running seq.toList.length es.length).Reached s source text (s.run source text).1 := by
  obtain ⟨last, hw⟩ := isProgram_of_program_start h hp
  rw [run_of_program_ok h hp]
  cases he : (Expr.block es (seq.get 0).position).evalWithin s.host.running
      (.start (.inside s.module)) with
  | ok o =>
    have ho : s.runStatements es (seq.get 0).position = o := Expr.eval_of_evalWithin he
    exact .running hw (by rw [ho]; rfl) (by rw [ho]; rfl)
  | error m =>
    obtain ⟨⟨room, hs, hd⟩, hm⟩ := Expr.exists_room_of_evalWithin he
    exact .gaveUp hw hs hd hm rfl rfl

theorem reached_of_program_error {report : Diagnostic} (h : tokenize source text = .ok seq)
    (hp : ((Cursor.start seq).program (s.host.reading.getD (Cursor.start seq).ampleRoom)).1 =
      .error report) :
    (Stage.lexed seq.toList.length).Reached s source text (s.run source text).1 := by
  rw [run_of_program_error h hp]
  obtain ⟨rfl, hl⟩ | ⟨fault, rfl, hb⟩ := Cursor.program_start_eq_error h hp
  · have hd (es : List Expr) (last : Option Expr) (hw : IsProgram source text seq es last) :=
      hw.lt_nesting hp
    cases hs : s.host.reading with
    | some room =>
      rw [hs] at hl hd
      exact .tooDeep h hs hl hd rfl rfl
    | none =>
      -- room for all tokens is never wanted for
      rw [hs, Option.getD_none, Cursor.ampleRoom, TokenSeq.length] at hl
      have hlt : seq.body.length < seq.body.length := by
        change 2 * (seq.body.length + 1) + 2 ≤ seq.body.length at hl
        omega
      exact absurd hlt (Nat.lt_irrefl _)
  · exact .unparsed h hb rfl rfl

theorem exists_stage (s : Session) (source text : String) :
    ∃ stage : Stage, stage.Reached s source text (s.run source text).1 ∧
      s.Renames text (s.run source text).1 stage := by
  cases ht : tokenize source text with
  | error fault =>
    refine ⟨.unread, ?_, renames_of_lex_error ht⟩
    rw [run_of_lex_error ht]
    exact .unread ht rfl rfl
  | ok seq =>
    cases hp : ((Cursor.start seq).program (s.host.reading.getD (Cursor.start seq).ampleRoom)).1 with
    | error report => exact ⟨_, reached_of_program_error ht hp, renames_of_program_error ht hp⟩
    | ok es => exact ⟨_, reached_of_program_ok ht hp, renames_of_program_ok ht hp⟩

/-- Where a session prints to makes no other difference. -/
theorem run_sink (s : Session) (sink : Sink) (source text : String) :
    { s with sink }.run source text =
      ({ (s.run source text).1 with sink }, { (s.run source text).2 with sink }) := by
  simp only [run]
  split
  · rfl
  · split <;> rfl

/-- Whatever a run reports is placed in the source that was run. -/
theorem mapError_named_run (s : Session) (source text : String) :
    (s.run source text).1.result.mapError (Diagnostic.relocate (.named source)) =
      (s.run source text).1.result := by
  obtain ⟨stage, -, hrenames⟩ := exists_stage s source text
  exact (congrArg (fun r => r.1.result) (hrenames s.verbose source)).symm

theorem source_of_run {report : Diagnostic} (h : (s.run source text).1.result = .error report) :
    report.position.source = source := by
  obtain ⟨stage, hreached, -⟩ := exists_stage s source text
  have hself := mapError_named_run s source text
  rw [h] at hself
  have hposition := hreached.position_relocate h source
  rw [Except.error.inj hself] at hposition
  exact congrArg Position.source hposition

/-- The stage of a run settles the runs of the same text in all other new sessions. -/
theorem exists_stage_start (verbose : Bool) (sink : Sink) (host : Host) (source text : String) :
    let t := ((start verbose sink host).run source text).1
    ∃ stage : Stage, stage.Reached (start verbose sink host) source text t ∧
      ∀ verbose' sink', ((start verbose' sink' host).run source text).1 =
        ⟨t.result, sink', t.printed, if verbose' then stage.log source else []⟩ := by
  obtain ⟨stage, hreached, hrenames⟩ := exists_stage (start verbose sink host) source text
  refine ⟨stage, hreached, fun verbose' sink' => ?_⟩
  have hrun := hrenames verbose' source
  rw [mapError_named_run] at hrun
  have hsink := run_sink { start verbose sink host with verbose := verbose' } sink' source text
  rw [hrun] at hsink
  exact congrArg Prod.fst hsink

/-- A run comes to one of the stages. It prints nothing unless the whole text is a program, its log
is that of the stage, and without a log and under another name of the source it is the same run: only
the log goes, or speaks of the other name, and so do the places in the report of a failure. -/
theorem run_stages (s : Session) (source text : String) :
    let t := (s.run source text).1
    ∃ stage : Stage, stage.Reached s source text t ∧
      (t.printed ≠ "" → ∃ b, parseProgram source text = .ok b) ∧
      (∀ verbose name, { s with verbose }.run name text =
        (⟨t.result.mapError (Diagnostic.relocate (.named name)), t.sink, t.printed,
          if verbose then stage.log name else []⟩, { s with verbose })) ∧
      ∀ report, t.result = .error report → ∀ name,
        (report.relocate (.named name)).message = report.message ∧
          (report.relocate (.named name)).position = { report.position with source := name } := by
  obtain ⟨stage, hreached, hrenames⟩ := exists_stage s source text
  exact ⟨stage, hreached, hreached.exists_program, hrenames, fun report hr name =>
    ⟨report.message_relocate _, hreached.position_relocate hr name⟩⟩

end Session

end Scriptlet
