import Scriptlet.Evaluation
import Scriptlet.Program

/-!
Sessions run one program after another. Each program starts with the native functions and no names
of its own, and nothing is printed before all of it has been read. Programs that nest too deeply for
the stack of the host are refused.
-/

namespace Scriptlet

/-- How many calls and assignments the host lets a program have open at once, while it is read and
while it runs. There may be no bound. -/
structure Host where
  reading : Option Nat
  running : Option Nat
deriving DecidableEq

namespace Host

def bounded (limit : Nat) : Host := ⟨some limit, some limit⟩

/-- A stack of so many frames, of which an open call or assignment takes four at most. -/
def ofFrames (frames : Nat) : Host := bounded (frames / 4)

end Host

/-- Where a session prints: to standard output, or to a place that its owner has given it. -/
inductive Sink where
  | standard
  | given
deriving DecidableEq

structure Session where
  verbose : Bool
  sink : Sink
  module : Bindings
  host : Host

structure Transcript where
  result : Except Diagnostic Value
  sink : Sink
  printed : String
  log : List String

namespace Transcript

def writtenTo (t : Transcript) (sink : Sink) : String := if t.sink = sink then t.printed else ""

def logText (t : Transcript) : String := String.join t.log

end Transcript

namespace Session

/-- A session on a stack of a thousand frames, unless the host is another one. -/
def start (verbose : Bool) (sink : Sink) (host : Host := .ofFrames 1000) : Session :=
  ⟨verbose, sink, .natives, host⟩

/-- The lines that reach the log: all of them or none. -/
def logged (s : Session) (lines : List String) : List String :=
  if s.verbose then lines.map fun line => "[omg] " ++ line ++ "\n" else []

def lexedLine (source : String) (count : Nat) : String :=
  "Lexed " ++ toString count ++ " tokens from " ++ source

def parsedLine (count : Nat) : String := "Parsed " ++ toString count ++ " statements"

def runningLine : String := "Running..."

def refused (s : Session) (report : Diagnostic) (lines : List String) : Transcript :=
  ⟨.error report, s.sink, "", s.logged lines⟩

/-- What comes of running the statements of a source, and the machine behind the run. Want of room
is reported at the start of the source. -/
def conclude (source : String) : Bounded Value → Except Diagnostic Value × Machine
  | .ok outcome => (outcome.result.mapError .call, outcome.machine)
  | .error machine => (.error (.tooDeep source), machine)

def run (s : Session) (source text : String) : Transcript × Session :=
  match lex source text with
  | .error report => (s.refused report [], s)
  | .ok c =>
    let lexed := lexedLine source c.tokens.length
    match (c.program (s.host.reading.getD c.ampleRoom)).1 with
    | .error report => (s.refused report [lexed], s)
    | .ok statements =>
      let block := Expr.block statements c.current.position
      let (result, machine) :=
        conclude source (block.evalWithin s.host.running (.start (.inside s.module)))
      (⟨result, s.sink, machine.output,
          s.logged [lexed, parsedLine statements.length, runningLine]⟩,
        { s with module := machine.scope.outer.headD s.module })

end Session

end Scriptlet
