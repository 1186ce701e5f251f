import Scriptlet.CommandLine

/-! The program: arguments and files in, two streams and an exit status out. -/

namespace Scriptlet

/-- The number of a system error. Some come with their sign turned. -/
def systemCode (code : UInt32) : Nat :=
  if code < 0x80000000 then code.toNat else (0 - code).toNat

def openFault : IO.Error → OpenFault
  | .noFileOrDirectory _ code reason | .inappropriateType _ code reason
  | .permissionDenied _ code reason | .invalidArgument _ code reason
  | .resourceExhausted _ code reason | .hardwareFault code reason
  | .resourceBusy code reason | .otherError code reason =>
    .ofCode (systemCode code) reason
  | fault => .other 5 (toString fault)

def readBytes (path : Path) : IO (Except OpenFault (List UInt8)) := do
  try
    pure (.ok (← IO.FS.readBinFile path.text).toList)
  catch fault =>
    pure (.error (openFault fault))

def readRequested (args : List String) : IO (Except OpenFault (List UInt8)) :=
  match CommandLine.parse args with
  | .ok (.run _ text) =>
    match Path.ofString text with
    | .ok path => readBytes path
    | .error _ => pure (.error .missing)
  | _ => pure (.error .missing)

end Scriptlet

open Scriptlet in
def main (args : List String) : IO UInt32 := do
  let bytes ← readRequested args
  match CommandLine.execute (fun _ => bytes) args with
  | .ok report =>
    IO.print report.output
    IO.eprint report.errors
    pure (UInt32.ofNat report.exit)
  | .error fault =>
    IO.eprint (fault.message ++ "\n")
    pure 1
