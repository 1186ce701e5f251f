/-! Coordinates in a named source text, counted from line 1, column 1. -/

namespace Scriptlet

/-- A place in a source. Lines and columns are integers, so that a place can be moved back past
the start of its line. -/
structure Position where
  source : String
  line : Int
  column : Int
deriving DecidableEq, Inhabited

namespace Position

def start (source : String) : Position := ⟨source, 1, 1⟩

def advance (p : Position) (columns : Int) : Position := ⟨p.source, p.line, p.column + columns⟩

def newline (p : Position) : Position := ⟨p.source, p.line + 1, 1⟩

/-- The place behind one character: a line feed ends the line, all else fills one column. -/
def after (p : Position) (c : Char) : Position :=
  if c = '\n' then p.newline else p.advance 1

def afterText (p : Position) (text : List Char) : Position := text.foldl after p

@[simp] theorem afterText_nil (p : Position) : p.afterText [] = p := rfl

@[simp] theorem afterText_cons (p : Position) (c : Char) (text : List Char) :
    p.afterText (c :: text) = (p.after c).afterText text := rfl

@[simp] theorem afterText_append (p : Position) (s t : List Char) :
    p.afterText (s ++ t) = (p.afterText s).afterText t := List.foldl_append

@[simp] theorem source_after (p : Position) (c : Char) : (p.after c).source = p.source := by
  unfold after
  split <;> rfl

@[simp] theorem source_afterText (p : Position) (text : List Char) :
    (p.afterText text).source = p.source := by
  induction text generalizing p with
  | nil => rfl
  | cons c text ih => simp [ih]

def render (p : Position) : String :=
  p.source ++ ":" ++ toString p.line ++ ":" ++ toString p.column

end Position

end Scriptlet
