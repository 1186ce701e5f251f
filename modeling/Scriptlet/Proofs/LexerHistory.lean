import Mathlib.Data.Prod.Lex
import Scriptlet.Proofs.AdmittedCharacters

/-!
What a lexer has behind it. Each call moves it on over some characters and puts tokens down on the
way; calls one after the other make one such way, and the way from the start of the text says where
the lexer stands and in which order its tokens lie.
-/

namespace Scriptlet

namespace Position

/-- The lines in their order, and the columns of a line in theirs. -/
def lineColumn (p : Position) : ℤ ×ₗ ℤ := toLex (p.line, p.column)

theorem lineColumn_le_after (p : Position) (c : Char) :
    p.lineColumn ≤ (p.after c).lineColumn := by
  rw [lineColumn, lineColumn, Prod.Lex.toLex_le_toLex]
  by_cases hc : c = '\n'
  · have hline : p.line < p.line + 1 := by omega
    simp [after, newline, hc, hline]
  · have hcolumn : p.column ≤ p.column + 1 := by omega
    simp [after, advance, hc, hcolumn]

end Position

/-- `Along here text ts`: on the way from `here` over `text` the tokens `ts` are put down, each at
the place reached by then. -/
inductive Along : Position → List Char → List Token → Prop
  | nil {here : Position} : Along here [] []
  | char {here : Position} {c : Char} {text : List Char} {ts : List Token}
      (h : Along (here.after c) text ts) : Along here (c :: text) ts
  | token {here : Position} {t : Token} {text : List Char} {ts : List Token}
      (ht : t.position = here) (h : Along here text ts) : Along here text (t :: ts)

namespace Along

variable {here : Position} {text more : List Char} {t : Token} {ts us : List Token}

/-- Characters may be passed over with no token put down. -/
theorem bare (here : Position) (text : List Char) : Along here text [] := by
  induction text generalizing here with
  | nil => exact nil
  | cons c text ih => exact char (ih (here.after c))

theorem append (h : Along here text ts) (hm : Along (here.afterText text) more us) :
    Along here (text ++ more) (ts ++ us) := by
  induction h with
  | nil => exact hm
  | char h ih => exact char (ih hm)
  | token ht h ih => exact token ht (ih hm)

theorem lineColumn_le (h : Along here text ts) (ht : t ∈ ts) :
    here.lineColumn ≤ t.position.lineColumn := by
  induction h with
  | nil => cases ht
  | char h ih => exact (Position.lineColumn_le_after _ _).trans (ih ht)
  | token hu h ih =>
    rcases List.mem_cons.1 ht with rfl | ht
    · exact (congrArg Position.lineColumn hu).ge
    · exact ih ht

theorem pairwise (h : Along here text ts) :
    ts.Pairwise fun t u => t.position.lineColumn ≤ u.position.lineColumn := by
  induction h with
  | nil => exact .nil
  | char h ih => exact ih
  | token ht h ih => exact .cons (fun u hu => ht ▸ h.lineColumn_le hu) ih

end Along

/-- A scan that reads all of a text puts each token down in front of the characters it is made
of. -/
theorem Scan.along {here : Position} {text : List Char} (h : (of here text).rest = []) :
    Along here text (of here text).tokens := by
  fun_induction of here text with
  | case1 => exact .nil
  | case2 here c tail hc ih => exact .char (ih h)
  | case3 => simp at h
  | case4 here c tail hc l rest hn later ih =>
    rw [(Lexeme.next?_eq_some hn).1]
    exact .token rfl ((Along.bare here l.text).append (ih h))

namespace Lexer

/-- What a lexer can be told to do. -/
inductive Call where
  | peek (offset : Int)
  | advance
  | skipBlanks
  | readWhile (p : Char → Bool)
  | emit (kind : Token.Kind) (text : String)
  | complain (remark : String)
  | tokenize

/-- The lexer behind a call. Looking and complaining leave it as it is. -/
def after (l : Lexer) : Call → Lexer
  | .peek _ | .complain _ => l
  | .advance => l.advance.2
  | .skipBlanks => l.skipBlanks
  | .readWhile p => (l.readWhile p).2
  | .emit kind text => l.emit kind text
  | .tokenize => l.tokenize.2

def drive (l : Lexer) (calls : List Call) : Lexer := calls.foldl after l

section text
variable (l : Lexer)

theorem text_take_index : l.text.take l.index = l.passed.reverse := by
  rw [text, index, ← List.length_reverse, List.take_left]

theorem text_getElem?_index : l.text[l.index]? = l.rest.head? := by
  rw [text, index, ← List.length_reverse, List.getElem?_append_right (Nat.le_refl _), Nat.sub_self,
    List.head?_eq_getElem?]

theorem index_le_length : l.index ≤ l.text.length := by
  rw [text, index, List.length_append, List.length_reverse]
  exact Nat.le_add_right _ _

end text

/-- The lexer `l` moves on over `front`, putting down `ts` on the way, and becomes `l'`. -/
structure Goes (l : Lexer) (front : List Char) (ts : List Token) (l' : Lexer) : Prop where
  rest : l.rest = front ++ l'.rest
  passed : l'.passed = front.reverse ++ l.passed
  here : l'.here = l.here.afterText front
  tokens : l'.tokens = l.tokens ++ ts
  along : Along l.here front ts

namespace Goes

variable {l l' l'' : Lexer} {front more : List Char} {ts us : List Token}

theorem refl (l : Lexer) : l.Goes [] [] l := ⟨rfl, rfl, rfl, (List.append_nil _).symm, .nil⟩

theorem trans (h : l.Goes front ts l') (hm : l'.Goes more us l'') :
    l.Goes (front ++ more) (ts ++ us) l'' where
  rest := by rw [h.rest, hm.rest, List.append_assoc]
  passed := by rw [hm.passed, h.passed, List.reverse_append, List.append_assoc]
  here := by rw [hm.here, h.here, Position.afterText_append]
  tokens := by rw [hm.tokens, h.tokens, List.append_assoc]
  along := h.along.append (h.here ▸ hm.along)

theorem text_eq (h : l.Goes front ts l') : l'.text = l.text := by
  rw [text, text, h.passed, h.rest, List.reverse_append, List.reverse_reverse, List.append_assoc]

theorem index_le (h : l.Goes front ts l') : l.index ≤ l'.index := by
  rw [index, index, h.passed, List.length_append]
  exact Nat.le_add_left _ _

theorem front_eq (h : l.Goes front ts l') : front = (l'.text.take l'.index).drop l.index := by
  rw [text_take_index, h.passed, List.reverse_append, List.reverse_reverse, index,
    ← List.length_reverse, List.drop_left]

variable {source text : String}

theorem here_of_start (h : (start source text).Goes front ts l) :
    l.here = .behind source (text.toList.take l.index) := by
  have hfront : front = text.toList.take l.index := by
    rw [h.front_eq, h.text_eq]
    rfl
  rw [h.here, hfront]
  exact Position.afterText_start source _

end Goes

variable (l : Lexer)

theorem goes_pass (n : Nat) : l.Goes (l.rest.take n) [] (l.pass n) where
  rest := (List.take_append_drop n l.rest).symm
  passed := rfl
  here := rfl
  tokens := (List.append_nil _).symm
  along := .bare _ _

theorem goes_emit (kind : Token.Kind) (text : String) :
    l.Goes [] [⟨kind, text, l.here⟩] (l.emit kind text) :=
  ⟨rfl, rfl, rfl, rfl, .token rfl .nil⟩

/-- To read all tokens is to go on to an unknown character, or to the end and to put the end mark
down there. -/
theorem exists_goes_tokenize : ∃ front ts, l.Goes front ts l.tokenize.2 := by
  obtain ⟨front, back, hrest, hf, hb⟩ := exists_admitted_front l.rest
  have hall : (Scan.of l.here front).rest = [] := by rw [Scan.of_all_admitted hf]
  have hread : l.Goes front _ ⟨_, back, _, _⟩ := ⟨hrest, rfl, rfl, rfl, Scan.along hall⟩
  rw [tokenize_eq hrest hf hb]
  cases back with
  | nil => exact ⟨_, _, hread.trans (goes_emit _ .finish "")⟩
  | cons => exact ⟨_, _, hread⟩

/-- Whatever a lexer is told to do, it goes on. -/
theorem exists_goes_after (call : Call) : ∃ front ts, l.Goes front ts (l.after call) := by
  cases call with
  | peek | complain => exact ⟨_, _, .refl l⟩
  | advance => exact ⟨_, _, l.goes_pass 1⟩
  | skipBlanks | readWhile => exact ⟨_, _, l.goes_pass _⟩
  | emit kind text => exact ⟨_, _, l.goes_emit kind text⟩
  | tokenize => exact l.exists_goes_tokenize

/-- The ways of calls one after the other make one way. -/
theorem exists_goes_drive (calls : List Call) : ∃ front ts, l.Goes front ts (l.drive calls) := by
  induction calls generalizing l with
  | nil => exact ⟨_, _, .refl l⟩
  | cons call calls ih =>
    obtain ⟨front, ts, hone⟩ := l.exists_goes_after call
    obtain ⟨more, us, hmany⟩ := ih (l.after call)
    exact ⟨_, _, hone.trans hmany⟩

/-- What is read lies between the two places, and the text ends there or has a character that fails
the test. -/
theorem readWhile_spec (p : Char → Bool) : let read := l.readWhile p
    read.1 = (l.text.take read.2.index).drop l.index ∧ (∀ c ∈ read.1, p c) ∧
      ∀ c ∈ l.text[read.2.index]?, p c = false := by
  intro read
  have hgoes : l.Goes _ [] read.2 := l.goes_pass read.1.length
  have hsplit : l.rest = read.1 ++ l.rest.dropWhile p := List.takeWhile_append_dropWhile.symm
  have hrun : l.rest.take read.1.length = read.1 := by rw [hsplit, List.take_left]
  have hback : read.2.rest = l.rest.dropWhile p := by
    rw [← List.append_cancel_left_eq read.1, ← hsplit, hgoes.rest, hrun]
  refine ⟨?_, fun c hc => List.mem_takeWhile_imp hc, fun c hc => ?_⟩
  · rw [← hgoes.text_eq, ← hgoes.front_eq, hrun]
  · rw [← hgoes.text_eq, text_getElem?_index, hback] at hc
    exact head?_dropWhile hc

end Lexer

/-- However a lexer is driven, it stands in its text, at the line and the column counted from the
text before it; it never goes back; it never takes a token back, and its tokens lie in the order of
their places. What it reads while a test holds is the text from where it stood to where it then
stands, and the test fails for the next character if there is one. -/
theorem drive_goes_forward (source text : String) (calls more : List Lexer.Call) :
    let l := (Lexer.start source text).drive calls
    let later := l.drive more
    l.text = text.toList ∧ l.index ≤ text.toList.length ∧
      l.here = .behind source (text.toList.take l.index) ∧ l.index ≤ later.index ∧
      l.tokens <+: later.tokens ∧
      (l.tokens.Pairwise fun t u => t.position.lineColumn ≤ u.position.lineColumn) ∧
      ∀ p, let read := l.readWhile p
        read.1 = (text.toList.take read.2.index).drop l.index ∧ (∀ c ∈ read.1, p c) ∧
          ∀ c ∈ text.toList[read.2.index]?, p c = false := by
  intro l later
  obtain ⟨front, ts, h⟩ := (Lexer.start source text).exists_goes_drive calls
  obtain ⟨next, us, hmore⟩ := l.exists_goes_drive more
  have htext : l.text = text.toList := h.text_eq
  have htokens : l.tokens = ts := h.tokens
  have hread := l.readWhile_spec
  rw [htext] at hread
  refine ⟨htext, ?_, h.here_of_start, hmore.index_le, ⟨us, hmore.tokens.symm⟩, ?_, hread⟩
  · rw [← htext]
    exact l.index_le_length
  · rw [htokens]
    exact h.along.pairwise

/-- Over a character that starts no token, and with a token put down by hand. -/
example : ((Lexer.start "in" "a?b").drive
    [.tokenize, .advance, .emit .comma ",", .tokenize]).tokens =
      [⟨.identifier, "a", ⟨"in", 1, 1⟩⟩, ⟨.comma, ",", ⟨"in", 1, 3⟩⟩,
        ⟨.identifier, "b", ⟨"in", 1, 3⟩⟩, ⟨.finish, "", ⟨"in", 1, 4⟩⟩] := by cbv

end Scriptlet
