import Scriptlet.FileTable
import Scriptlet.Session
import Scriptlet.Text.Digit

/-!
The command line: options in any order, one file to run. Options may be shortened to any beginning
that fits only one of them; a lone `--` makes everything behind it a plain argument.
-/

namespace Scriptlet.CommandLine

inductive Flag where
  | help
  | verbose
  | version
deriving DecidableEq

def Flag.title : Flag → String
  | .help => "-h/--help"
  | .verbose => "--verbose"
  | .version => "--version"

def longNames : List (String × Flag) :=
  [("--help", .help), ("--verbose", .verbose), ("--version", .version)]

inductive UsageFault where
  | missingFile
  | unrecognized (args : List String)
  | ambiguous (arg : String) (names : List String)
  | needlessValue (flag : Flag) (value : String)
deriving DecidableEq

/-- How one argument is understood. `cluster` is the short option with more characters behind it in
the same argument, whether an equals sign comes between or not. -/
inductive Word where
  | plain (text : String)
  | flag (f : Flag)
  | valued (f : Flag) (value : String)
  | cluster (more : List Char)
  | unknown (text : String)
  | separator
deriving DecidableEq

inductive Request where
  | help
  | version
  | run (verbose : Bool) (path : String)
deriving DecidableEq

/-- A text that begins like an option but is a decimal number, in the digits of any script, is a
plain argument. A line feed at its end is overlooked. -/
def isNegativeNumber (arg : List Char) : Bool :=
  match arg with
  | '-' :: rest =>
    let rest := if rest.getLast? = some '\n' then rest.dropLast else rest
    let behind := rest.dropWhile Text.isDecimalDigit
    (behind = [] && !rest.isEmpty) ||
      match behind with
      | '.' :: places => !places.isEmpty && places.all Text.isDecimalDigit
      | _ => false
  | _ => false

def splitValue (arg : String) : String × Option String :=
  let chars := arg.toList
  let name := String.ofList (chars.takeWhile (· != '='))
  match chars.dropWhile (· != '=') with
  | [] => (name, none)
  | _ :: value => (name, some (String.ofList value))

def unmatched (arg : String) : Word :=
  if isNegativeNumber arg.toList || arg.toList.contains ' ' then .plain arg else .unknown arg

def withValue (f : Flag) : Option String → Word
  | none => .flag f
  | some value => .valued f value

/-- A long option, whole or shortened. No long name is a beginning of another one. -/
def classifyLong (arg : String) : Except UsageFault Word :=
  let (name, value) := splitValue arg
  match longNames.filter fun (long, _) => long.startsWith name with
  | [] => .ok (unmatched arg)
  | [(_, f)] => .ok (withValue f value)
  | several => .error (.ambiguous arg (several.map Prod.fst))

def classify (arg : String) : Except UsageFault Word :=
  match arg.toList with
  | '-' :: '-' :: _ => classifyLong arg
  | ['-', 'h'] => .ok (.flag .help)
  | ['-', 'h', '='] => .ok (.valued .help "")
  | '-' :: 'h' :: '=' :: more => .ok (.cluster more)
  | '-' :: 'h' :: more => .ok (.cluster more)
  | ['-'] => .ok (.plain arg)
  | '-' :: _ => .ok (unmatched arg)
  | _ => .ok (.plain arg)

/-- All arguments as words. Behind a lone `--` there are plain ones only. -/
def words : List String → Except UsageFault (List Word)
  | [] => .ok []
  | "--" :: rest => .ok (.separator :: rest.map .plain)
  | arg :: rest => do
    let word ← classify arg
    let later ← words rest
    pure (word :: later)

/-- What follows a short option in its argument: more short options, of which help is the only one.
All from the first character that names none is taken for a value. -/
def clusterFault? (more : List Char) : Option UsageFault :=
  match more.dropWhile (· == 'h') with
  | [] => none
  | rest => some (.needlessValue .help (String.ofList rest))

/-- Do what the words say from left to right. The first plain argument is the file; a separator
next to it is part of it, every other one is left over. -/
def obey (verbose : Bool) (path : Option String) (extra : List String) :
    List Word → Except UsageFault Request
  | [] =>
    match path, extra with
    | none, _ => .error .missingFile
    | some path, [] => .ok (.run verbose path)
    | some _, extra => .error (.unrecognized extra.reverse)
  | .flag .help :: _ => .ok .help
  | .flag .version :: _ => .ok .version
  | .flag .verbose :: rest => obey true path extra rest
  | .valued f value :: _ => .error (.needlessValue f value)
  | .cluster more :: _ =>
    match clusterFault? more with
    | some fault => .error fault
    | none => .ok .help
  | .unknown text :: rest => obey verbose path (text :: extra) rest
  | .plain text :: rest =>
    match path with
    | some _ => obey verbose path (text :: extra) rest
    | none =>
      match rest with
      | .separator :: rest => obey verbose (some text) extra rest
      | rest => obey verbose (some text) extra rest
  | .separator :: rest =>
    match path, rest with
    | none, .plain text :: rest => obey verbose (some text) extra rest
    | path, rest => obey verbose path ("--" :: extra) rest

def parse (args : List String) : Except UsageFault Request := do
  obey false none [] (← words args)

def UsageFault.message : UsageFault → String
  | .missingFile => "the following arguments are required: SRC_FILE"
  | .unrecognized args => "unrecognized arguments: " ++ " ".intercalate args
  | .ambiguous arg names =>
    "ambiguous option: " ++ arg ++ " could match " ++ ", ".intercalate names
  | .needlessValue flag value =>
    "argument " ++ flag.title ++ ": ignored explicit argument " ++ Text.quote value

def usageLine : String := "usage: omg [-h] [--verbose] [--version] SRC_FILE\n"

def helpText : String :=
  usageLine ++
    "\nO.M.G. Language - run an .omg program\n" ++
    "\npositional arguments:\n" ++
    "  SRC_FILE    the .omg file to run\n" ++
    "\noptions:\n" ++
    "  -h, --help  show this help message and exit\n" ++
    "  --verbose   Verbose output\n" ++
    "  --version   show program's version number and exit\n"

def versionText : String := "omg 0.1.0\n"

structure Report where
  exit : Nat
  output : String
  errors : String
deriving DecidableEq

def readingLine (path : String) : String := "Reading " ++ path ++ "..."

def runFile (read : Path → Except OpenFault (List UInt8)) (host : Host) (verbose : Bool)
    (path : Path) : Report :=
  let session := Session.start verbose .standard host
  let reading := String.join (session.logged [readingLine path.text])
  let failure (d : Diagnostic) : String := d.render ++ "\n"
  match loadText read path with
  | .error fault => ⟨1, "", reading ++ failure (.load fault)⟩
  | .ok text =>
    let transcript := (session.run path.text text).1
    let errors := reading ++ transcript.logText
    match transcript.result with
    | .ok _ => ⟨0, transcript.writtenTo .standard, errors⟩
    | .error d => ⟨1, transcript.writtenTo .standard, errors ++ failure d⟩

/-- Do what the arguments ask for; `read` gives the bytes of files. There is no report if the file to
run is named by a text that is no path. -/
def execute (read : Path → Except OpenFault (List UInt8)) (args : List String)
    (host : Host := .ofFrames 1000) : Except PathFault Report :=
  match parse args with
  | .error fault => .ok ⟨2, "", usageLine ++ "omg: error: " ++ fault.message ++ "\n"⟩
  | .ok .help => .ok ⟨0, helpText, ""⟩
  | .ok .version => .ok ⟨0, versionText, ""⟩
  | .ok (.run verbose path) => (Path.ofString path).map (runFile read host verbose)

end Scriptlet.CommandLine
