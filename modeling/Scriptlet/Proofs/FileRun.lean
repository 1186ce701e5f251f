import Scriptlet.CommandLine
import Scriptlet.Proofs.SessionStages
import Scriptlet.Proofs.TextEncoding

/-!
Running a file from the command line and running its text in a session. Flags may stand on both sides
of the file; the two streams and the exit status say just what a session says of the text.
-/

namespace Scriptlet

namespace CommandLine

variable {args rest : List String} {arg path : String} {word : Word} {later : List Word} {n : Nat}

theorem classify_verbose : classify "--verbose" = .ok (.flag .verbose) := by cbv

theorem classify_of_head (h : arg.toList.head? ≠ some '-') : classify arg = .ok (.plain arg) := by
  unfold classify
  split <;> simp_all

theorem words_cons (h : arg ≠ "--") (hc : classify arg = .ok word) (hw : words rest = .ok later) :
    words (arg :: rest) = .ok (word :: later) := by
  rw [words, hc, hw]
  · rfl
  · exact h

theorem words_flags (n : Nat) (hw : words rest = .ok later) :
    words (List.replicate n "--verbose" ++ rest) =
      .ok (List.replicate n (.flag .verbose) ++ later) := by
  induction n with
  | zero => exact hw
  | succ n ih => exact words_cons (by decide) classify_verbose ih

theorem obey_flags (n : Nat) (verbose : Bool) (path : Option String) (extra : List String)
    (rest : List Word) : obey verbose path extra (List.replicate n (.flag .verbose) ++ rest) =
      obey (verbose || decide (0 < n)) path extra rest := by
  induction n generalizing verbose with
  | zero => simp
  | succ n ih =>
    rw [List.replicate_succ, List.cons_append, obey, ih]
    simp

/-- One plain argument among flags. -/
theorem exists_flags_of_perm (h : args.Perm (path :: List.replicate n "--verbose")) :
    ∃ i j, i + j = n ∧
      args = List.replicate i "--verbose" ++ path :: List.replicate j "--verbose" := by
  obtain ⟨front, back, rfl⟩ := List.append_of_mem (h.mem_iff.2 List.mem_cons_self)
  have hflags : (front ++ back).Perm (List.replicate n "--verbose") :=
    (List.perm_middle.symm.trans h).cons_inv
  obtain ⟨hlen, hfront, hback⟩ := List.append_eq_replicate_iff.1 (List.perm_replicate.1 hflags)
  exact ⟨front.length, back.length, hlen, by rw [← hfront, ← hback]⟩

theorem parse_of_perm (hdash : path.toList.head? ≠ some '-')
    (h : args.Perm (path :: List.replicate n "--verbose")) :
    parse args = .ok (.run (decide (0 < n)) path) := by
  obtain ⟨i, j, rfl, rfl⟩ := exists_flags_of_perm h
  have hne : path ≠ "--" := by
    rintro rfl
    exact hdash (by decide)
  have hback : words (List.replicate j "--verbose" ++ []) =
      .ok (List.replicate j (.flag .verbose) ++ []) := words_flags j rfl
  rw [List.append_nil, List.append_nil] at hback
  have hwords := words_flags i (words_cons hne (classify_of_head hdash) hback)
  -- no separator follows the file, so the flags behind it are obeyed as those in front are
  have hfile (verbose : Bool) :
      obey verbose none [] (.plain path :: List.replicate j (.flag .verbose)) =
        obey verbose (some path) [] (List.replicate j (.flag .verbose) ++ []) := by
    rw [List.append_nil]
    cases j <;> rfl
  have hparse : parse (List.replicate i "--verbose" ++ path :: List.replicate j "--verbose") =
      obey false none [] (List.replicate i (.flag .verbose) ++
        .plain path :: List.replicate j (.flag .verbose)) := by
    rw [parse, hwords]
    rfl
  rw [hparse, obey_flags, hfile, obey_flags, obey]
  simp

variable {read : Path → Except OpenFault (List UInt8)} {p : Path} {text : String}

theorem loadText_of_encoding {bytes : List UInt8} (hread : read p = .ok bytes)
    (hbytes : bytes.toByteArray = text.toUTF8) : loadText read p = .ok text := by
  have hdecode := Utf8.decode_eq_ok_iff.2 hbytes
  simp only [loadText, hread, hdecode]
  rfl

/-- The text of a report that is placed in the source. -/
theorem render_of_source {report : Diagnostic} {source : String}
    (h : report.position.source = source) : report.render =
      source ++ ":" ++ toString report.position.line ++ ":" ++ toString report.position.column ++
        ": " ++ report.message := by
  rw [← h]
  rfl

theorem join_logged (host : Host) (verbose : Bool) (log : List String) :
    String.join ((Session.start verbose .standard host).logged [readingLine p.text]) ++
        String.join (if verbose then log else []) =
      String.join (if verbose then ("[omg] Reading " ++ p.text ++ "...\n") :: log else []) := by
  cases verbose with
  | false => rfl
  | true =>
    have hline : "[omg] " ++ readingLine p.text ++ "\n" = "[omg] Reading " ++ p.text ++ "...\n" := by
      simp only [readingLine, String.append_assoc]
      rw [← String.append_assoc]
      rfl
    simp [Session.logged, Session.start, hline]

theorem runFile_ok {host : Host} {verbose : Bool} {v : Value} {printed : String} {log : List String}
    (hload : loadText read p = .ok text)
    (hrun : ((Session.start verbose .standard host).run p.text text).1 =
      ⟨.ok v, .standard, printed, if verbose then log else []⟩) :
    runFile read host verbose p = ⟨0, printed, String.join
      (if verbose then ("[omg] Reading " ++ p.text ++ "...\n") :: log else [])⟩ := by
  rw [← join_logged host]
  simp only [runFile, hload, hrun]
  rfl

theorem runFile_error {host : Host} {verbose : Bool} {report : Diagnostic} {printed : String}
    {log : List String} (hload : loadText read p = .ok text)
    (hrun : ((Session.start verbose .standard host).run p.text text).1 =
      ⟨.error report, .standard, printed, if verbose then log else []⟩) :
    runFile read host verbose p = ⟨1, printed, String.join
      (if verbose then ("[omg] Reading " ++ p.text ++ "...\n") :: log else []) ++
        (report.render ++ "\n")⟩ := by
  rw [← join_logged host]
  simp only [runFile, hload, hrun]
  rfl

/-- A file that holds the encoding of a text is run with any number of flags around it. Standard
output has what a session prints for the text, and the status says whether the session reports a
failure. The report ends the other stream, on which only the log stands before it, and that only if
there is a flag. -/
theorem execute_agrees_with_session {bytes : List UInt8} {args : List String} {n : Nat}
    (hread : read p = .ok bytes) (hbytes : bytes.toByteArray = text.toUTF8)
    (hdash : p.text.toList.head? ≠ some '-')
    (hargs : args.Perm (p.text :: List.replicate n "--verbose")) (verbose : Bool) (sink : Sink)
    (host : Host) :
    let t := ((Session.start verbose sink host).run p.text text).1
    ∃ stage : Session.Stage, stage.Reached (.start verbose sink host) p.text text t ∧
      execute read args host = .ok (
        let log := if 0 < n then ("[omg] Reading " ++ p.text ++ "...\n") :: stage.log p.text else []
        match t.result with
        | .ok _ => ⟨0, t.printed, String.join log⟩
        | .error report => ⟨1, t.printed, String.join log ++ (p.text ++ ":" ++
            toString report.position.line ++ ":" ++ toString report.position.column ++ ": " ++
            report.message ++ "\n")⟩) := by
  intro t
  obtain ⟨stage, hreached, hruns⟩ := Session.exists_stage_start verbose sink host p.text text
  refine ⟨stage, hreached, ?_⟩
  have hexec : execute read args host = .ok (runFile read host (decide (0 < n)) p) := by
    rw [execute, parse_of_perm hdash hargs]
    simp only [Path.ofString_text]
    rfl
  have hload := loadText_of_encoding hread hbytes
  have hrun := hruns (decide (0 < n)) .standard
  rw [hexec]
  cases hresult : t.result with
  | ok v =>
    rw [hresult] at hrun
    rw [runFile_ok hload hrun]
    simp only [decide_eq_true_eq]
    rfl
  | error report =>
    rw [hresult] at hrun
    rw [runFile_error hload hrun, render_of_source (Session.source_of_run hresult)]
    simp only [decide_eq_true_eq]
    rfl

/-- A program that prints a line and then calls what is no function, between two flags. -/
theorem execute_agrees_with_session_failing_call :
    let text := "print(true);\n f();"
    let bytes := Utf8.encode text.toList
    let table := FileTable.ofList [("a.omg", some bytes)]
    let p : Path := ⟨"a.omg", by decide⟩
    let args := ["--verbose", "a.omg", "--verbose"]
    let report : Diagnostic := .call ⟨"f", ⟨"a.omg", 2, 2⟩⟩
    table.read p = .ok bytes ∧ bytes.toByteArray = text.toUTF8 ∧
      p.text.toList.head? ≠ some '-' ∧ args.Perm (p.text :: List.replicate 2 "--verbose") ∧
      ∃ stage : Session.Stage, execute table.read args = .ok ⟨1, "True\n",
        String.join ("[omg] Reading a.omg...\n" :: stage.log "a.omg") ++ (report.render ++ "\n")⟩ := by
  intro text bytes table p args report
  have hread : table.read p = .ok bytes := by cbv
  have hbytes : bytes.toByteArray = text.toUTF8 := Utf8.toByteArray_eq_toUTF8_iff.2 rfl
  have hdash : p.text.toList.head? ≠ some '-' := by decide
  have hargs : args.Perm (p.text :: List.replicate 2 "--verbose") := by decide
  obtain ⟨stage, -, hexec⟩ :=
    execute_agrees_with_session hread hbytes hdash hargs false .standard (.ofFrames 1000)
  let token (k : Token.Kind) (text : String) (line column : Int) : Token :=
    ⟨k, text, ⟨"a.omg", line, column⟩⟩
  let seq : TokenSeq := ⟨[token .identifier "print" 1 1, token .leftParen "(" 1 6,
    token .trueWord "true" 1 7, token .rightParen ")" 1 11, token .semicolon ";" 1 12,
    token .identifier "f" 2 2, token .leftParen "(" 2 3, token .rightParen ")" 2 4,
    token .semicolon ";" 2 5], ⟨.finish, "", ⟨"a.omg", 2, 6⟩⟩, rfl⟩
  let first := Expr.call "print" [.literal (.boolean true) ⟨"a.omg", 1, 7⟩] ⟨"a.omg", 1, 1⟩
  let second := Expr.call "f" [] ⟨"a.omg", 2, 2⟩
  have hprogram : IsProgram p.text text seq [first, second] none := by
    refine ⟨by cbv, ?_, ?_⟩
    · have hfirst : first.Written [token .identifier "print" 1 1, token .leftParen "(" 1 6,
          token .trueWord "true" 1 7, token .rightParen ")" 1 11] :=
        @Expr.Written.call (token .identifier "print" 1 1) _ _ _ _ rfl rfl
          (.last (@Expr.Written.trueWord (token .trueWord "true" 1 7) rfl)) rfl
      have hsecond : second.Written [token .identifier "f" 2 2, token .leftParen "(" 2 3,
          token .rightParen ")" 2 4] :=
        @Expr.Written.call (token .identifier "f" 2 2) _ _ _ _ rfl rfl .none rfl
      exact .more hfirst rfl (.last hsecond rfl)
    · have hfirst : first.Canonical := .call (by simpa using Expr.Canonical.literal)
      have hsecond : second.Canonical := .call (by simp)
      simpa using ⟨hfirst, hsecond⟩
  have hnesting : ∀ room ∈ some 250, Expr.nestingAll [first, second] ≤ room := by decide
  have hrun : ((Session.start false .standard).run p.text text).1 =
      ⟨.error report, .standard, "True\n", []⟩ := by
    rw [Session.run_of_nesting_le hprogram hnesting hnesting]
    cbv
  rw [hrun] at hexec
  exact ⟨hread, hbytes, hdash, hargs, stage, hexec⟩

end CommandLine

end Scriptlet
