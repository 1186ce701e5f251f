import Mathlib.Logic.Function.Iterate
import Scriptlet.Proofs.AdmittedCharacters

/-!
The loops of a lexer, step by step. It moves on by single characters: a run is read as long as the
next character passes a test, and all tokens are read by rounds that skip blanks and read one token.
-/

namespace Scriptlet

namespace Lexer

variable (l : Lexer)

theorem length_text : l.text.length = l.index + l.rest.length := by
  rw [text, index, List.length_append, List.length_reverse]

section look

/-- Ahead there is what is still to come. -/
theorem look_natCast (n : ℕ) : l.look n = .ok l.rest[n]? := by
  have hchar : charAt? l.text (l.index + n) = l.rest[n]? := by
    have hi : (0 : ℤ) ≤ l.index + n := by omega
    have hn : ((l.index : ℤ) + n).toNat = l.passed.reverse.length + n := by
      rw [List.length_reverse, index]
      omega
    rw [charAt?, if_pos hi, hn, text, List.getElem?_append_right (Nat.le_add_right _ _),
      Nat.add_sub_cancel_left]
  rw [look]
  simp only [hchar, length_text]
  split
  next hlt =>
    have hn : n < l.rest.length := by omega
    rw [List.getElem?_eq_getElem hn]
  next hlt =>
    rw [List.getElem?_eq_none (by omega)]

theorem charAt?_of_passed {n : ℕ} (h : n < l.index) :
    charAt? l.text (l.index - (n + 1)) = l.passed[n]? := by
  have hi : (0 : ℤ) ≤ l.index - (n + 1) := by omega
  have hn : ((l.index : ℤ) - (n + 1)).toNat = l.passed.length - 1 - n := by
    rw [index]
    omega
  rw [index] at h
  have hlt : l.passed.length - 1 - n < l.passed.reverse.length := by
    rw [List.length_reverse]
    omega
  rw [charAt?, if_pos hi, hn, text, List.getElem?_append_left hlt, List.getElem?_reverse (by omega)]
  congr 1
  omega

theorem charAt?_of_wrapped {n : ℕ} (h : l.index ≤ n) :
    charAt? l.text (l.index - (n + 1)) = l.text.reverse[n - l.index]? := by
  have hi : ¬ (0 : ℤ) ≤ l.index - (n + 1) := by omega
  rw [charAt?, if_neg hi]
  split
  next hle =>
    have hn : ((l.text.length : ℤ) + (l.index - (n + 1))).toNat =
        l.text.length - 1 - (n - l.index) := by omega
    rw [hn, List.getElem?_reverse (by omega)]
  next hlt => rw [List.getElem?_eq_none (by rw [List.length_reverse]; omega)]

/-- Looking back there is what has been passed, the nearest character first, and beyond the start the
text from its end. -/
theorem look_negSucc (n : ℕ) : l.look (.negSucc n) =
    match (l.passed ++ l.text.reverse)[n]? with
    | some c => .ok (some c)
    | none => .error ⟨l.index - (n + 1)⟩ := by
  have hi : (l.index : ℤ) + .negSucc n = l.index - (n + 1) := by omega
  have hlt : (l.index : ℤ) - (n + 1) < l.text.length := by
    rw [length_text]
    omega
  have hchar : charAt? l.text (l.index - (n + 1)) = (l.passed ++ l.text.reverse)[n]? := by
    by_cases h : n < l.index
    · rw [l.charAt?_of_passed h, List.getElem?_append_left h]
    · rw [l.charAt?_of_wrapped (Nat.le_of_not_lt h), List.getElem?_append_right (Nat.le_of_not_lt h)]
      rfl
  rw [look]
  cases h : (l.passed ++ l.text.reverse)[n]? <;> simp only [hi, if_pos hlt, hchar, h]

theorem peek_zero : l.peek 0 = l.rest.head? := by
  have h : l.look 0 = .ok l.rest[0]? := l.look_natCast 0
  rw [peek, h, List.head?_eq_getElem?]

theorem peek_one : l.peek 1 = l.rest[1]? := by
  have h : l.look 1 = .ok l.rest[1]? := l.look_natCast 1
  rw [peek, h]

end look

/-- One character is passed, if there is one: a line feed ends the line, all else fills a column. -/
theorem advance_eq : l.advance =
    match l.rest with
    | [] => (none, l)
    | c :: rest => (some c, ⟨c :: l.passed, rest, l.here.after c, l.tokens⟩) := by
  obtain ⟨passed, rest, here, tokens⟩ := l
  cases rest <;> rfl

theorem pass_add (m n : ℕ) : (l.pass m).pass n = l.pass (m + n) := by
  simp only [pass, List.take_add, List.reverse_append, List.append_assoc, List.drop_drop,
    Position.afterText_append]

theorem pass_succ (n : ℕ) : l.pass (n + 1) = l.advance.2.pass n := by
  rw [Nat.add_comm, ← pass_add]
  rfl

/-- To pass characters is to advance as often. -/
theorem pass_eq_iterate (n : ℕ) : l.pass n = (fun l : Lexer => l.advance.2)^[n] l := by
  induction n generalizing l with
  | zero => rfl
  | succ n ih => rw [pass_succ, ih, Function.iterate_succ_apply]

/-- A run goes on as long as there is a character and it passes the test. -/
theorem readWhile_step (p : Char → Bool) : l.readWhile p =
    match l.peek 0 with
    | some c =>
      if p c then (c :: (l.advance.2.readWhile p).1, (l.advance.2.readWhile p).2) else ([], l)
    | none => ([], l) := by
  rw [peek_zero]
  cases h : l.rest with
  | nil =>
    simp only [readWhile, h, List.takeWhile_nil, List.head?_nil]
    rfl
  | cons c tail =>
    by_cases hc : p c = true
    · have hrest : l.advance.2.rest = tail := by rw [advance_eq, h]
      simp only [List.head?_cons, if_pos hc, readWhile, h, List.takeWhile_cons_of_pos hc, hrest,
        List.length_cons, pass_succ]
    · simp only [List.head?_cons, if_neg hc, readWhile, h, List.takeWhile_cons_of_neg hc]
      rfl

theorem skipBlanks_step : l.skipBlanks =
    match l.peek 0 with
    | some c => if isBlank c then l.advance.2.skipBlanks else l
    | none => l := by
  rw [skipBlanks, readWhile_step]
  cases l.peek 0 with
  | none => rfl
  | some c =>
    dsimp only
    split <;> rfl

/-- What comes of one round: a lexer behind one more token, one at the end of its text, or one in
front of a character that starts no token. -/
inductive Round where
  | token (l : Lexer)
  | ended (l : Lexer)
  | stopped (c : Char) (l : Lexer)

/-- Skip blanks, read the token that the next character starts and put it down at its start. -/
def round : Round :=
  let l := l.skipBlanks
  match l.peek 0 with
  | none => .ended l
  | some c =>
    if isWordStart c then
      let (word, behind) := l.readWhile isWordChar
      .token (behind.emitAt (Lexeme.wordKind word) (.ofList word) l.here)
    else if c.isDigit then
      let (digits, behind) := l.readWhile Char.isDigit
      .token (behind.emitAt .number (.ofList digits) l.here)
    else if c = '=' ∧ l.peek 1 = some '=' then
      .token (l.advance.2.advance.2.emitAt .equals "==" l.here)
    else
      match Lexeme.punctuation? c with
      | some kind => .token (l.advance.2.emitAt kind (.ofList [c]) l.here)
      | none => .stopped c l

/-- A round by the longest lexeme at the head of the text to come. -/
theorem round_eq : l.round =
    match l.skipBlanks.rest with
    | [] => .ended l.skipBlanks
    | c :: tail =>
      match Lexeme.next? (c :: tail) with
      | some (lexeme, _) => .token ((l.skipBlanks.pass lexeme.text.length).emitAt lexeme.kind
          (.ofList lexeme.text) l.skipBlanks.here)
      | none => .stopped c l.skipBlanks := by
  rw [round]
  generalize l.skipBlanks = l
  rw [peek_zero, peek_one]
  cases h : l.rest with
  | nil => rfl
  | cons c tail =>
    simp only [List.head?_cons, Lexeme.next?]
    by_cases hw : isWordStart c = true
    · have hc : isWordChar c = true := by rw [isWordChar, hw, Bool.true_or]
      simp only [if_pos hw, readWhile, h, List.takeWhile_cons_of_pos hc]
    · by_cases hd : c.isDigit = true
      · simp only [if_neg hw, if_pos hd, readWhile, h, List.takeWhile_cons_of_pos hd]
      · have hsecond : (c :: tail)[1]? = tail.head? := by
          rw [List.getElem?_cons_succ, List.head?_eq_getElem?]
        rw [if_neg hw, if_neg hd, if_neg hw, if_neg hd, hsecond]
        split
        next =>
          have htwice : l.advance.2.advance.2 = l.pass 2 := l.pass_add 1 1
          rw [htwice]
          rfl
        next => cases Lexeme.punctuation? c <;> rfl

section tokenize

variable {l} {front back : List Char} {ts : List Token}

theorem pass_to (h : l.rest = front ++ back) : l.pass (l.rest.length - back.length) =
    ⟨front.reverse ++ l.passed, back, l.here.afterText front, l.tokens⟩ := by
  have hlength : l.rest.length - back.length = front.length := by
    rw [h, List.length_append, Nat.add_sub_cancel]
  rw [hlength, pass_front h]

/-- To go on behind some characters and their tokens comes to the same as to read all of them. -/
theorem tokenize_behind (hrest : l.rest = front ++ back)
    (h : let later := Scan.of (l.here.afterText front) back
      Scan.of l.here l.rest = ⟨ts ++ later.tokens, later.stop, later.rest⟩) :
    l.tokenize = Lexer.tokenize
      ⟨front.reverse ++ l.passed, back, l.here.afterText front, l.tokens ++ ts⟩ := by
  obtain ⟨mid, hback, -⟩ := Scan.exists_front (l.here.afterText front) back
  generalize hbehind : (⟨front.reverse ++ l.passed, back, l.here.afterText front, l.tokens ++ ts⟩ :
    Lexer) = behind
  have hmid : behind.rest = mid ++ (Scan.of behind.here behind.rest).rest := by rwa [← hbehind]
  have hwhole : l.rest = (front ++ mid) ++ (Scan.of behind.here behind.rest).rest := by
    rw [hrest, List.append_assoc, ← hmid, ← hbehind]
  have h : Scan.of l.here l.rest = ⟨ts ++ (Scan.of behind.here behind.rest).tokens,
      (Scan.of behind.here behind.rest).stop, (Scan.of behind.here behind.rest).rest⟩ := by
    rwa [← hbehind]
  rw [tokenize, tokenize, h]
  simp only [Scan.fault?, pass_to hmid, pass_to hwhole]
  subst hbehind
  simp only [List.reverse_append, List.append_assoc, Position.afterText_append]

variable (l)

/-- Blanks are skipped up to a character that is none. -/
theorem exists_skipBlanks : ∃ gap back, l.rest = gap ++ back ∧ (∀ c ∈ gap, isBlank c = true) ∧
    (∀ c ∈ back.head?, isBlank c = false) ∧
    l.skipBlanks = ⟨gap.reverse ++ l.passed, back, l.here.afterText gap, l.tokens⟩ := by
  have hrest : l.rest = l.rest.takeWhile isBlank ++ l.rest.dropWhile isBlank :=
    List.takeWhile_append_dropWhile.symm
  exact ⟨_, _, hrest, fun c hc => List.mem_takeWhile_imp hc, fun c hc => head?_dropWhile hc,
    pass_front hrest⟩

theorem tokenize_skipBlanks : l.skipBlanks.tokenize = l.tokenize := by
  obtain ⟨gap, back, hrest, hgap, -, hskip⟩ := l.exists_skipBlanks
  have hscan : let later := Scan.of (l.here.afterText gap) back
      Scan.of l.here l.rest = ⟨[] ++ later.tokens, later.stop, later.rest⟩ := by
    rw [hrest, Scan.of_gap hgap]
    rfl
  rw [tokenize_behind hrest hscan, hskip, List.append_nil]

/-- All tokens are read by rounds. -/
theorem tokenize_round : l.tokenize =
    match l.round with
    | .token l => l.tokenize
    | .ended l => (.ok (), l.emit .finish "")
    | .stopped c l => (.error ⟨.unknownCharacter c, l.here⟩, l) := by
  obtain ⟨gap, back, -, -, hback, hskip⟩ := l.exists_skipBlanks
  have hblank : ∀ c ∈ l.skipBlanks.rest.head?, isBlank c = false := hskip ▸ hback
  rw [round_eq, ← tokenize_skipBlanks]
  generalize l.skipBlanks = l at hblank
  cases h : l.rest with
  | nil => simp [tokenize, h, Scan.fault?, pass, emit, emitAt, Scan.endMark]
  | cons c tail =>
    have hc : ¬ isBlank c = true := Bool.eq_false_iff.1 (hblank c (by rw [h]; rfl))
    cases hn : Lexeme.next? (c :: tail) with
    | none =>
      obtain ⟨passed, rest, here, tokens⟩ := l
      cases h
      simp [tokenize, Scan.of_unknown hc hn, Scan.fault?, pass, hn]
    | some found =>
      obtain ⟨lexeme, rest⟩ := found
      have hrest : l.rest = lexeme.text ++ rest := h.trans (Lexeme.next?_eq_some hn).1
      have hscan : let later := Scan.of (l.here.afterText lexeme.text) rest
          Scan.of l.here l.rest = ⟨[Scan.token l.here lexeme] ++ later.tokens, later.stop,
            later.rest⟩ := by
        rw [h, Scan.of_next hc hn]
        rfl
      rw [tokenize_behind hrest hscan]
      simp only [hn, pass_front hrest]
      rfl

/-- Every round that puts a token down moves on, so that the rounds come to an end. -/
theorem length_rest_of_round {l' : Lexer} (h : l.round = .token l') :
    l'.rest.length < l.rest.length := by
  obtain ⟨gap, back, hrest, -, -, hskip⟩ := l.exists_skipBlanks
  rw [round_eq, hskip] at h
  cases back with
  | nil => cases h
  | cons c tail =>
    dsimp only at h
    split at h
    next lexeme rest hn =>
      cases h
      have hlt := List.length_pos_iff.2 (Lexeme.next?_eq_some hn).2
      rw [hrest, List.length_append]
      change ((c :: tail).drop lexeme.text.length).length < _
      rw [List.length_drop, List.length_cons]
      omega
    next => cases h

/-- Read all tokens round by round. -/
def rounds (l : Lexer) : Except LexFault Unit × Lexer :=
  match _h : l.round with
  | .token l => rounds l
  | .ended l => (.ok (), l.emit .finish "")
  | .stopped c l => (.error ⟨.unknownCharacter c, l.here⟩, l)
termination_by l.rest.length
decreasing_by exact length_rest_of_round _ _h

theorem tokenize_eq_rounds : l.tokenize = l.rounds := by
  fun_induction rounds l with
  | case1 l l' h ih => rw [tokenize_round, h, ← ih]
  | case2 l l' h => rw [tokenize_round, h]
  | case3 l c l' h => rw [tokenize_round, h]

end tokenize

end Lexer

end Scriptlet
