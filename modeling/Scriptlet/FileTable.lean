import Scriptlet.Path
import Scriptlet.Text.Utf8

/-!
Files and directories at their places, and what opening a path leads to. A path is walked from left
to right; the first part of it that cannot be passed decides.
-/

namespace Scriptlet

/-- What stands at a place: the bytes of a file, or nothing for a directory. Of several entries for
one place the first one counts. -/
structure FileTable where
  entries : List (Place × Option (List UInt8))

namespace FileTable

/-- The longest name of a file and the longest path, in bytes. -/
def longestName : Nat := 255

def longestPath : Nat := 4095

/-- What stands at the end of a path, and the directories on the way there. -/
def entriesAlong (content : Option (List UInt8)) (here : Place) :
    List String → List (Place × Option (List UInt8))
  | [] => []
  | [part] => [(here.step part, content)]
  | part :: parts => (here.step part, none) :: entriesAlong content (here.step part) parts

def put (t : FileTable) (text : String) (content : Option (List UInt8)) : FileTable :=
  ⟨entriesAlong content (Place.origin text) (Path.partsOf text) ++ t.entries⟩

def ofList (files : List (String × Option (List UInt8))) : FileTable :=
  files.foldl (fun t (text, content) => t.put text content) ⟨[]⟩

def walk (t : FileTable) (here : Place) : List String → Except OpenFault (List UInt8)
  | [] => .error .isDirectory
  | part :: parts =>
    if part = "" ∨ part = "." ∨ part = ".." then t.walk (here.step part) parts
    else if longestName < part.utf8ByteSize then .error .nameTooLong
    else
      match t.entries.lookup (here.step part) with
      | none => .error .missing
      | some none => t.walk (here.step part) parts
      | some (some bytes) => if parts = [] then .ok bytes else .error .notDirectory

def read (t : FileTable) (p : Path) : Except OpenFault (List UInt8) :=
  if p.text = "" then .error .missing
  else if longestPath < p.text.utf8ByteSize then .error .nameTooLong
  else t.walk (Place.origin p.text) p.parts

end FileTable

def loadText (read : Path → Except OpenFault (List UInt8)) (p : Path) :
    Except LoadFault String :=
  match read p with
  | .error fault => .error ⟨p.text, .unreadable fault⟩
  | .ok bytes => (Utf8.decode bytes).mapError fun fault => ⟨p.text, .notUtf8 fault⟩

end Scriptlet
