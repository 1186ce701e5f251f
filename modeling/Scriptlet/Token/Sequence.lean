import Scriptlet.Token

/-! Token sequences: any tokens, closed by one end mark. -/

namespace Scriptlet

structure TokenSeq where
  body : List Token
  last : Token
  last_kind : last.kind = .finish

namespace TokenSeq

def toList (s : TokenSeq) : List Token := s.body ++ [s.last]

def length (s : TokenSeq) : Nat := s.body.length + 1

@[simp] theorem length_toList (s : TokenSeq) : s.toList.length = s.length := by
  simp [toList, length]

/-- The sequence of a list of tokens, which has to close with an end mark. -/
def ofList? (tokens : List Token) : Option TokenSeq :=
  match tokens.getLast? with
  | none => none
  | some last => if h : last.kind = .finish then some ⟨tokens.dropLast, last, h⟩ else none

theorem ofList?_toList (s : TokenSeq) : ofList? s.toList = some s := by
  simp [ofList?, toList, s.last_kind]

/-- The token at an index; the end mark repeats for ever. -/
def get (s : TokenSeq) (i : Nat) : Token := s.body[i]?.getD s.last

theorem get_of_length_le {s : TokenSeq} {i : Nat} (h : s.body.length ≤ i) : s.get i = s.last := by
  simp [get, h]

end TokenSeq

end Scriptlet
