import Scriptlet.Session
import Scriptlet.Token.Lexer
import Scriptlet.Workspace
import Scriptlet.Proofs.PrintedLexemes
import Scriptlet.Proofs.ProgramLiterals

/-!
Both kinds of line endings. A carriage return in front of a line feed takes a column of the line that
the line feed ends, so no token and no complaint is moved by it.
-/

namespace Scriptlet

open Scriptlet.Expr

/-- A text with a carriage return and a line feed in place of every line feed. -/
def withReturns (text : List Char) : List Char :=
  text.flatMap fun c => if c = '\n' then ['\r', '\n'] else [c]

section withReturns
variable {c : Char} {text : List Char}

@[simp] theorem withReturns_nil : withReturns [] = [] := rfl

theorem withReturns_newline (text : List Char) :
    withReturns ('\n' :: text) = '\r' :: '\n' :: withReturns text := rfl

theorem withReturns_cons (h : c ≠ '\n') (text : List Char) :
    withReturns (c :: text) = c :: withReturns text := by
  simp [withReturns, h]

theorem withReturns_append (front rest : List Char) :
    withReturns (front ++ rest) = withReturns front ++ withReturns rest := List.flatMap_append

theorem withReturns_of_not_mem (h : '\n' ∉ text) : withReturns text = text := by
  induction text with
  | nil => rfl
  | cons c text ih =>
    rw [List.mem_cons, not_or] at h
    rw [withReturns_cons (Ne.symm h.1), ih h.2]

/-- No lexeme goes on over a line ending of either kind. -/
theorem stops_withReturns {k : Token.Kind} (h : ∀ c ∈ text.head?, k.goesOn c = false) :
    ∀ c ∈ (withReturns text).head?, k.goesOn c = false := by
  cases text with
  | nil => simp
  | cons d text =>
    by_cases hd : d = '\n'
    · subst hd
      intro c hc
      cases Option.some.inj hc
      exact Token.Kind.goesOn_of_isBlank (by decide) k
    · rwa [withReturns_cons hd]

end withReturns

namespace Lexeme

variable {c : Char} {tail rest : List Char} {l : Lexeme}

theorem Valid.newline_not_mem (h : l.Valid) : '\n' ∉ l.text := by
  cases h with
  | trueWord | falseWord | equals => decide
  | identifier hc hs =>
    intro hm
    rcases List.mem_cons.1 hm with rfl | hm
    · exact absurd hc (by decide)
    · exact absurd (hs _ hm) (by decide)
  | @number c cs hc hs =>
    have hd : Digits (c :: cs) := List.forall_mem_cons.2 ⟨hc, hs⟩
    exact fun hm => absurd (hd _ hm) (by decide)
  | mark h =>
    intro hm
    obtain rfl := List.mem_singleton.1 hm
    exact absurd h (by simp [punctuation?])

theorem next?_withReturns (h : next? (c :: tail) = some (l, rest)) :
    next? (withReturns (c :: tail)) = some (l, withReturns rest) := by
  obtain ⟨ht, hl, hs⟩ := next?_eq_some_iff.1 h
  rw [ht, withReturns_append, withReturns_of_not_mem hl.newline_not_mem]
  exact next?_of_valid hl (stops_withReturns hs)

end Lexeme

theorem Position.after_return_newline (p : Position) :
    (p.after '\r').after '\n' = p.after '\n' := rfl

namespace Scan

theorem of_withReturns (here : Position) (text : List Char) :
    of here (withReturns text) =
      ⟨(of here text).tokens, (of here text).stop, withReturns (of here text).rest⟩ := by
  have ne_newline {c : Char} (hc : ¬ isBlank c) : c ≠ '\n' := by
    rintro rfl
    exact hc (by decide)
  fun_induction of here text with
  | case1 here => exact of_nil _
  | case2 here c tail hc ih =>
    by_cases hn : c = '\n'
    · subst hn
      rw [withReturns_newline, of_blank (by decide), of_blank (by decide),
        Position.after_return_newline, ih]
    · rw [withReturns_cons hn, of_blank hc, ih]
  | case3 here c tail hc hn =>
    have hn' : Lexeme.next? (c :: withReturns tail) = none :=
      Lexeme.next?_eq_none_iff.2 (Lexeme.next?_eq_none_iff.1 hn)
    rw [withReturns_cons (ne_newline hc), of_unknown hc hn']
  | case4 here c tail hc l rest hn later ih =>
    have hn' := Lexeme.next?_withReturns hn
    rw [withReturns_cons (ne_newline hc)] at hn' ⊢
    rw [of_next hc hn', ih]

theorem tokens_withReturns (here : Position) (text : List Char) :
    (of here (withReturns text)).tokens = (of here text).tokens := by
  rw [of_withReturns]

theorem stop_withReturns (here : Position) (text : List Char) :
    (of here (withReturns text)).stop = (of here text).stop := by
  rw [of_withReturns]

theorem fault?_withReturns (here : Position) (text : List Char) :
    (of here (withReturns text)).fault? = (of here text).fault? := by
  have hb := not_blank_of_stop here text
  rw [of_withReturns, fault?, fault?]
  dsimp only
  cases h : (of here text).rest with
  | nil => rfl
  | cons c rest =>
    have hc : c ≠ '\n' := by
      rintro rfl
      exact absurd (hb '\n' (by simp [h])) (by decide)
    rw [withReturns_cons hc]
    rfl

end Scan

/-- The text with the other line endings. -/
def crlf (text : String) : String := .ofList (withReturns text.toList)

@[simp] theorem toList_crlf (text : String) : (crlf text).toList = withReturns text.toList :=
  String.toList_ofList

theorem tokenize_crlf (source text : String) :
    tokenize source (crlf text) = tokenize source text := by
  simp only [tokenize, toList_crlf, Scan.fault?_withReturns, Scan.tokens_withReturns,
    Scan.stop_withReturns]

theorem lex_crlf (source text : String) : lex source (crlf text) = lex source text := by
  rw [lex, lex, tokenize_crlf]

theorem parseProgram_crlf (source text : String) :
    parseProgram source (crlf text) = parseProgram source text := by
  rw [parseProgram, parseProgram, lex_crlf]

theorem parseExpression_crlf (source text : String) :
    parseExpression source (crlf text) = parseExpression source text := by
  rw [parseExpression, parseExpression, lex_crlf]

theorem Session.run_crlf (s : Session) (source text : String) :
    s.run source (crlf text) = s.run source text := by
  rw [run, run, lex_crlf]

/-- A lexer that is driven to the end finds the same and leaves the same tokens behind. -/
theorem Lexer.tokenize_crlf (source text : String) :
    let l := (start source text).tokenize
    let l' := (start source (crlf text)).tokenize
    l'.1 = l.1 ∧ l'.2.tokens = l.2.tokens := by
  simp only [start, Lexer.tokenize, toList_crlf, Scan.fault?_withReturns, Scan.tokens_withReturns,
    Scan.stop_withReturns]
  cases (Scan.of (.start source) text.toList).fault? <;> exact ⟨rfl, rfl⟩

/-- Carriage returns in front of all line feeds change no token and no complaint about a character,
and so neither the tree of a program, which is the same as itself, nor anything that comes of a
run. -/
theorem line_endings_alike (source text : String) :
    tokenize source (crlf text) = tokenize source text ∧
    (let l := (Lexer.start source text).tokenize
      let l' := (Lexer.start source (crlf text)).tokenize
      l'.1 = l.1 ∧ l'.2.tokens = l.2.tokens) ∧
    parseProgram source (crlf text) = parseProgram source text ∧
    parseExpression source (crlf text) = parseExpression source text ∧
    (∀ b b', parseProgram source text = .ok b → parseProgram source (crlf text) = .ok b' →
      (b' == b) = true) ∧
    (∀ s : Session, s.run source (crlf text) = s.run source text) ∧
    ∀ (w : Workspace) (i : Nat), w.step i (.run source (crlf text)) = w.step i (.run source text) ∧
      w.step i (.eval source (crlf text)) = w.step i (.eval source text) := by
  refine ⟨tokenize_crlf source text, Lexer.tokenize_crlf source text,
    parseProgram_crlf source text, parseExpression_crlf source text, fun b b' hb hb' => ?_,
    fun s => s.run_crlf source text, fun w i => ⟨?_, ?_⟩⟩
  · rw [parseProgram_crlf, hb] at hb'
    cases hb'
    exact beq_self_of_parseProgram hb
  · rw [Workspace.step, Workspace.step, parseProgram_crlf]
  · rw [Workspace.step, Workspace.step, parseExpression_crlf]

/-- A return that is there already takes one more column of the line that ends behind it. -/
example : (Scan.of (.start "in") (withReturns ['x', '\r', '\n', ' ', 'y'])).tokens =
    [⟨.identifier, "x", ⟨"in", 1, 1⟩⟩, ⟨.identifier, "y", ⟨"in", 2, 2⟩⟩] := by cbv

end Scriptlet
