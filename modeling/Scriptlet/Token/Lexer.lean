import Scriptlet.Token.Scan

/-!
A lexer that is driven step by step. It stands between the characters it has passed and the ones
still to come; each step says what it found and returns the lexer behind it.
-/

namespace Scriptlet

/-- `passed` holds the characters read so far, the nearest one first. -/
structure Lexer where
  passed : List Char
  rest : List Char
  here : Position
  tokens : List Token
deriving DecidableEq, Inhabited

namespace Lexer

def start (source text : String) : Lexer := ⟨[], text.toList, .start source, []⟩

def index (l : Lexer) : Nat := l.passed.length

def text (l : Lexer) : List Char := l.passed.reverse ++ l.rest

/-- The character at an index, which counts from the end if it is negative. -/
def charAt? (text : List Char) (i : Int) : Option Char :=
  if 0 ≤ i then text[i.toNat]?
  else if 0 ≤ text.length + i then text[(text.length + i).toNat]?
  else none

/-- An index that leads in front of the text even when it is counted from the end. -/
structure IndexFault where
  index : Int
deriving DecidableEq

/-- The character `offset` places ahead, or none behind the end. Looking back beyond the start goes
on from the end. -/
def look (l : Lexer) (offset : Int) : Except IndexFault (Option Char) :=
  let i := l.index + offset
  if i < l.text.length then
    match charAt? l.text i with
    | some c => .ok (some c)
    | none => .error ⟨i⟩
  else .ok none

/-- The character that is found `offset` places ahead, if one is. -/
def peek (l : Lexer) (offset : Int) : Option Char :=
  match l.look offset with
  | .ok found => found
  | .error _ => none

/-- Move over the first `n` characters to come. -/
def pass (l : Lexer) (n : Nat) : Lexer :=
  { l with
    passed := (l.rest.take n).reverse ++ l.passed
    rest := l.rest.drop n
    here := l.here.afterText (l.rest.take n) }

def advance (l : Lexer) : Option Char × Lexer := (l.rest.head?, l.pass 1)

def readWhile (l : Lexer) (p : Char → Bool) : List Char × Lexer :=
  let run := l.rest.takeWhile p
  (run, l.pass run.length)

def skipBlanks (l : Lexer) : Lexer := (l.readWhile isBlank).2

def emitAt (l : Lexer) (kind : Token.Kind) (text : String) (start : Position) : Lexer :=
  { l with tokens := l.tokens ++ [⟨kind, text, start⟩] }

def emit (l : Lexer) (kind : Token.Kind) (text : String) : Lexer := l.emitAt kind text l.here

def complain (l : Lexer) (remark : String) : LexFault := ⟨.remark remark, l.here⟩

/-- Read all tokens to come. The end mark is put down unless a character starts no token; then the
lexer stops in front of that character. -/
def tokenize (l : Lexer) : Except LexFault Unit × Lexer :=
  let scan := Scan.of l.here l.rest
  let behind := l.pass (l.rest.length - scan.rest.length)
  match scan.fault? with
  | some fault => (.error fault, { behind with tokens := l.tokens ++ scan.tokens })
  | none => (.ok (), { behind with tokens := l.tokens ++ scan.tokens ++ [Scan.endMark scan.stop] })

end Lexer

end Scriptlet
