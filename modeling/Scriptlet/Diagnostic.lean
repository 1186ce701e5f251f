import Scriptlet.Token

/-!
Everything that can go wrong, as causes, one type for each stage. `Diagnostic.render` is the one
place where a cause is put into words.
-/

namespace Scriptlet

/-- Why a text has no tokens. A remark is a complaint in the caller's own words. -/
inductive LexCause where
  | unknownCharacter (c : Char)
  | remark (text : String)
deriving DecidableEq

structure LexFault where
  cause : LexCause
  position : Position
deriving DecidableEq

/-- What the grammar asks for where a token does not fit. A numeral is asked for where a number
token holds a text that is none. -/
inductive Wanted where
  | operand
  | numeral
  | semicolon
  | closeOrComma
deriving DecidableEq

structure ParseFault where
  wanted : Wanted
  found : Token
deriving DecidableEq

structure CallFault where
  name : String
  position : Position
deriving DecidableEq

inductive OpenFault where
  | missing
  | denied
  | notDirectory
  | isDirectory
  | nameTooLong
  | other (code : Nat) (reason : String)
deriving DecidableEq

inductive Utf8Reason where
  | start
  | continuation
  | truncated
deriving DecidableEq

/-- The first place where bytes stop being UTF-8: where the broken sequence starts, and its bytes
up to the point where it broke. -/
structure Utf8Fault where
  start : Nat
  bytes : List UInt8
  reason : Utf8Reason
deriving DecidableEq

inductive LoadCause where
  | unreadable (fault : OpenFault)
  | notUtf8 (fault : Utf8Fault)
deriving DecidableEq

structure LoadFault where
  path : String
  cause : LoadCause
deriving DecidableEq

inductive Diagnostic where
  | lexical (fault : LexFault)
  | syntactic (fault : ParseFault)
  | call (fault : CallFault)
  | load (fault : LoadFault)
  | tooDeep (source : String)
deriving DecidableEq

def LexCause.message : LexCause → String
  | .unknownCharacter c => "Found unknown character in \"" ++ c.toString ++ "\" in file."
  | .remark text => text

def ParseFault.message (f : ParseFault) : String :=
  match f.wanted with
  | .operand => "Expected identifier or number found " ++ f.found.text
  | .numeral => "Unable to convert " ++ f.found.text ++
      " into a number: could not convert string to float: " ++ Text.quote f.found.text
  | .semicolon => "Expected ; found " ++ f.found.text
  | .closeOrComma => "Expected ) or , found " ++ f.found.text

def CallFault.message (f : CallFault) : String :=
  "Can't find function named " ++ f.name ++ " to call"

def OpenFault.code : OpenFault → Nat
  | .missing => 2
  | .denied => 13
  | .notDirectory => 20
  | .isDirectory => 21
  | .nameTooLong => 36
  | .other code _ => code

def OpenFault.reason : OpenFault → String
  | .missing => "No such file or directory"
  | .denied => "Permission denied"
  | .notDirectory => "Not a directory"
  | .isDirectory => "Is a directory"
  | .nameTooLong => "File name too long"
  | .other _ reason => reason

def OpenFault.named : List OpenFault := [missing, denied, notDirectory, isDirectory, nameTooLong]

def OpenFault.ofCode (code : Nat) (reason : String) : OpenFault :=
  (OpenFault.named.find? fun f => f.code == code).getD (.other code reason)

def Utf8Reason.message : Utf8Reason → String
  | .start => "invalid start byte"
  | .continuation => "invalid continuation byte"
  | .truncated => "unexpected end of data"

/-- One bad byte is shown, of several only the places. -/
def Utf8Fault.message (f : Utf8Fault) : String :=
  "'utf-8' codec can't decode " ++
    (match f.bytes with
      | [b] => "byte 0x" ++ String.ofList (Text.hexDigits 2 b.toNat) ++ " in position " ++
          toString f.start
      | bytes => "bytes in position " ++ toString f.start ++ "-" ++
          toString (f.start + bytes.length - 1)) ++
    ": " ++ f.reason.message

def LoadFault.message (f : LoadFault) : String :=
  "Can't open " ++ f.path ++
    match f.cause with
    | .unreadable fault => ", io error: [Errno " ++ toString fault.code ++ "] " ++ fault.reason ++
        ": " ++ Text.quote f.path
    | .notUtf8 fault => ", file is not valid utf8. " ++ fault.message

namespace Diagnostic

def message : Diagnostic → String
  | lexical f => f.cause.message
  | syntactic f => f.message
  | call f => f.message
  | load f => f.message
  | tooDeep _ => "Program is nested too deeply"

/-- The place a diagnostic refers to; a fault of a whole source is placed at its start. -/
def position : Diagnostic → Position
  | lexical f => f.position
  | syntactic f => f.found.position
  | call f => f.position
  | load f => .start f.path
  | tooDeep source => .start source

def render (d : Diagnostic) : String := d.position.render ++ ": " ++ d.message

end Diagnostic

end Scriptlet
