import Scriptlet.Token.Sequence

/-! A cursor on a token sequence. Moving or looking past the end mark stays on it. -/

namespace Scriptlet

structure Cursor where
  tokens : TokenSeq
  index : Nat
  index_le : index ≤ tokens.body.length

namespace Cursor

def start (tokens : TokenSeq) : Cursor := ⟨tokens, 0, Nat.zero_le _⟩

def current (c : Cursor) : Token := c.tokens.get c.index

def peek (c : Cursor) : Token := c.tokens.get (c.index + 1)

/-- The tokens from the current one on, without the end mark. -/
def rest (c : Cursor) : List Token := c.tokens.body.drop c.index

/-- Move to an index, at most to the end mark. -/
def moveTo (c : Cursor) (i : Nat) : Cursor :=
  ⟨c.tokens, min i c.tokens.body.length, Nat.min_le_right ..⟩

def next (c : Cursor) : Cursor := c.moveTo (c.index + 1)

def accept (c : Cursor) (kind : Token.Kind) : Bool × Cursor :=
  if c.peek.kind = kind then (true, c.next) else (false, c)

@[simp] theorem tokens_moveTo (c : Cursor) (i : Nat) : (c.moveTo i).tokens = c.tokens := rfl

@[simp] theorem tokens_next (c : Cursor) : c.next.tokens = c.tokens := rfl

theorem index_le_next (c : Cursor) : c.index ≤ c.next.index := by
  have := c.index_le
  simp only [next, moveTo]
  omega

/-- The cursor stands on the first token of what it has not read yet. -/
theorem current_eq (c : Cursor) : c.current = c.rest.headD c.tokens.last := by
  simp [current, rest, TokenSeq.get, List.headD_eq_head?_getD, List.head?_drop]

end Cursor

end Scriptlet
