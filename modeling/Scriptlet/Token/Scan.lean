import Scriptlet.Token.Lexeme
import Scriptlet.Diagnostic
import Scriptlet.Token.Sequence

/-!
Scanning a text into tokens. A scan ends at the end of the text or before the first character that
starts no token; what it leaves unread tells which.
-/

namespace Scriptlet

/-- The tokens read, the place reached and the text left unread. -/
structure Scan where
  tokens : List Token
  stop : Position
  rest : List Char
deriving DecidableEq, Inhabited

namespace Scan

def token (here : Position) (l : Lexeme) : Token := ⟨l.kind, String.ofList l.text, here⟩

def of (here : Position) (text : List Char) : Scan :=
  match text with
  | [] => ⟨[], here, []⟩
  | c :: tail =>
    if isBlank c then of (here.after c) tail
    else
      match _h : Lexeme.next? (c :: tail) with
      | none => ⟨[], here, c :: tail⟩
      | some (l, rest) =>
        let later := of (here.afterText l.text) rest
        ⟨token here l :: later.tokens, later.stop, later.rest⟩
termination_by text.length
decreasing_by
  · simp
  · exact Lexeme.length_lt_of_next? _h

@[simp] theorem of_nil (here : Position) : of here [] = ⟨[], here, []⟩ := by rw [of]

theorem of_blank {c : Char} (h : isBlank c = true) (here : Position) (tail : List Char) :
    of here (c :: tail) = of (here.after c) tail := by
  rw [of, if_pos h]

/-- The character that stopped the scan, if one did. -/
def fault? (s : Scan) : Option LexFault :=
  s.rest.head?.map fun c => ⟨.unknownCharacter c, s.stop⟩

def endMark (stop : Position) : Token := ⟨.finish, "", stop⟩

end Scan

/-- All tokens of a text, closed by an end mark, unless some character starts no token. -/
def tokenize (source text : String) : Except LexFault TokenSeq :=
  let scan := Scan.of (Position.start source) text.toList
  match scan.fault? with
  | some fault => .error fault
  | none => .ok ⟨scan.tokens, Scan.endMark scan.stop, rfl⟩

end Scriptlet
