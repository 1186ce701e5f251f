import Scriptlet.Token

/-!
The lexical grammar: which characters separate tokens, and the longest token text at the head of
a text. `Lexeme.next?_eq_some` says that the text falls into the lexeme and what follows it.
-/

namespace Scriptlet

def isBlank (c : Char) : Bool := c == ' ' || c == '\t' || c == '\r' || c == '\n'

def isWordStart (c : Char) : Bool := c.isAlpha || c == '_'

def isWordChar (c : Char) : Bool := isWordStart c || c.isDigit

structure Lexeme where
  kind : Token.Kind
  text : List Char
deriving DecidableEq, Inhabited

namespace Lexeme

/-- `true` and `false` are reserved, every other word is an identifier. -/
def wordKind (word : List Char) : Token.Kind :=
  if word = ['t', 'r', 'u', 'e'] then .trueWord
  else if word = ['f', 'a', 'l', 's', 'e'] then .falseWord
  else .identifier

def punctuation? : Char → Option Token.Kind
  | '(' => some .leftParen
  | ')' => some .rightParen
  | ',' => some .comma
  | ';' => some .semicolon
  | '=' => some .assign
  | '+' => some .plus
  | '-' => some .minus
  | '*' => some .star
  | '/' => some .slash
  | '>' => some .greater
  | '<' => some .less
  | _ => none

/-- The longest lexeme at the head of a text, and the text behind it. There is none exactly when
the text is empty or its first character starts no token. -/
def next? : List Char → Option (Lexeme × List Char)
  | [] => none
  | c :: rest =>
    if isWordStart c then
      let word := c :: rest.takeWhile isWordChar
      some (⟨wordKind word, word⟩, rest.dropWhile isWordChar)
    else if c.isDigit then
      some (⟨.number, c :: rest.takeWhile Char.isDigit⟩, rest.dropWhile Char.isDigit)
    else if c = '=' ∧ rest.head? = some '=' then
      some (⟨.equals, ['=', '=']⟩, rest.tail)
    else
      (punctuation? c).map fun kind => (⟨kind, [c]⟩, rest)

@[simp] theorem next?_nil : next? [] = none := rfl

/-- A lexeme and what follows it make up the text they were taken from. -/
theorem next?_eq_some {text rest : List Char} {l : Lexeme} (h : next? text = some (l, rest)) :
    text = l.text ++ rest ∧ l.text ≠ [] := by
  cases text with
  | nil => simp at h
  | cons c tail =>
    simp only [next?] at h
    split at h
    · cases h
      simp [List.takeWhile_append_dropWhile]
    · split at h
      · cases h
        simp [List.takeWhile_append_dropWhile]
      · split at h
        next hc =>
          cases h
          obtain ⟨rfl, hh⟩ := hc
          cases tail with
          | nil => simp at hh
          | cons d tail => simp_all
        next =>
          obtain ⟨kind, -, he⟩ := Option.map_eq_some_iff.1 h
          cases he
          simp

theorem length_lt_of_next? {text rest : List Char} {l : Lexeme}
    (h : next? text = some (l, rest)) : rest.length < text.length := by
  obtain ⟨rfl, hne⟩ := next?_eq_some h
  have := List.length_pos_iff.2 hne
  simp only [List.length_append]
  omega

end Lexeme

end Scriptlet
