/-! Paths: the texts that can stand for files, and their parts between slashes. -/

namespace Scriptlet

/-- A text that the system takes for a path. It would end at a null character, so there is none. -/
structure Path where
  text : String
  no_null : '\x00' ∉ text.toList
deriving DecidableEq

inductive PathFault where
  | nullCharacter
deriving DecidableEq

def PathFault.message : PathFault → String
  | .nullCharacter => "embedded null byte"

namespace Path

def ofString (text : String) : Except PathFault Path :=
  if h : '\x00' ∈ text.toList then .error .nullCharacter else .ok ⟨text, h⟩

theorem ofString_text (p : Path) : ofString p.text = .ok p := by
  simp [ofString, p.no_null]

/-- The stretches of a text between its slashes, one more than there are slashes. -/
def splitChars : List Char → List (List Char)
  | [] => [[]]
  | '/' :: rest => [] :: splitChars rest
  | c :: rest =>
    match splitChars rest with
    | [] => [[c]]
    | part :: parts => (c :: part) :: parts

def partsOf (text : String) : List String := (splitChars text.toList).map String.ofList

def parts (p : Path) : List String := partsOf p.text

end Path

/-- A place among the directories, by the names that lead to it. A `..` in front of them leads out of
the directory where all paths begin, and `/` is the root. -/
abbrev Place := List String

namespace Place

def origin (text : String) : Place := if text.startsWith "/" then ["/"] else []

/-- Where one part of a path leads. Behind the root there is only the root. -/
def step (here : Place) (part : String) : Place :=
  if part = "" ∨ part = "." then here
  else if part = ".." then
    if here.getLast? = some "/" then here
    else if here = [] ∨ here.getLast? = some ".." then here ++ [".."]
    else here.dropLast
  else here ++ [part]

end Place

end Scriptlet
