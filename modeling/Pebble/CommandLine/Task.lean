import Pebble.Code.Json
import Pebble.Code.Listing
import Pebble.CommandLine.Arguments
import Pebble.Source
import Pebble.Syntax.Printer
import Pebble.Token.Listing

/-!
# What a command does

A command is answered at once or ends in running a machine. A listing that comes before a run is
the beginning of the machine's output.
-/

namespace Pebble

/-- The answer to a command: exit status and what is written on the two channels. -/
structure Response where
  status : Nat
  stdout : String
  stderr : String
deriving DecidableEq, Repr

namespace Response

def success (stdout : String) : Response := ⟨0, stdout, ""⟩

def ofFailure (stdout : String) (f : Failure) : Response := ⟨1, stdout, f.line⟩

/-- The answer once a run has ended. -/
def ofRun (status : Status) (m : Machine) : Response :=
  match status with
  | .failed r => ofFailure m.output (.run r)
  | _ => success m.output

/-- The answer if the program cannot be read. -/
def unreadable (file reason : String) : Response :=
  ⟨1, "", "Failed to read '" ++ file ++ "': " ++ reason ++ "\n"⟩

def version : Response := success "cinder 0.1.0\n"

/-- The answer to arguments that make no sense. -/
def refused : Response :=
  ⟨2, "", "error: invalid arguments\n\nUsage: cinder [OPTIONS] <FILE>\n\n" ++
    "For more information, try '--help'.\n"⟩

def help : Response :=
  success ("Compile and run Cinder programs on the bytecode VM\n\n" ++
    "Usage: cinder [OPTIONS] <FILE>\n\n" ++
    "Arguments:\n" ++
    "  <FILE>  Source file to run (.cdr)\n\n" ++
    "Options:\n" ++
    "      --tokens                           Dump the token stream and exit\n" ++
    "      --no-color                         Disable colors in the token dump\n" ++
    "      --pretty                           Show token text instead of token kinds " ++
    "in the dump\n" ++
    "      --ast                              Print the checked (and optimized) program as " ++
    "source and exit\n" ++
    "      --bc                               Print the bytecode before running\n" ++
    "      --json                             Print the bytecode as JSON and exit\n" ++
    "      --no-opt                           Skip constant folding and strength reduction\n" ++
    "      --debug                            Trace every executed instruction\n" ++
    "      --max-steps <MAX_STEPS>            Abort after this many executed instructions\n" ++
    "      --max-call-depth <MAX_CALL_DEPTH>  Maximum nesting of function calls\n" ++
    "  -h, --help                             Print help\n" ++
    "  -V, --version                          Print version\n")

end Response

/-- What is left to do for a command. -/
inductive Task where
  | answer (r : Response)
  | execute (m : Machine)

/-- The last component of a path, unless the path ends in `..` or has none. -/
def fileName? (path : List Char) : Option (List Char) :=
  match ((path.splitOn '/').filter fun part ↦ part ≠ [] && part ≠ ['.']).getLast? with
  | some ['.', '.'] => none
  | last => last

/-- What follows the last dot of a file name, unless that is its first character. -/
def fileExtension? (path : String) : Option String :=
  match fileName? path.toList with
  | none => none
  | some name =>
    match name.reverse.span (· != '.') with
    | (ext, _ :: _ :: _) => some (String.ofList ext.reverse)
    | _ => none

namespace Invocation

/-- The answer if the file is not one that holds programs. -/
def misnamed? (i : Invocation) : Option Response :=
  if fileExtension? i.file = some "cdr" then none
  else some ⟨1, "", "Error: expected a .cdr file, got " ++ i.file ++ "\n"⟩

def limits (i : Invocation) : Limits :=
  let standard := Limits.standard
  { standard with
    callDepth := (i.setting? .maxCallDepth).getD standard.callDepth
    steps := (i.setting? .maxSteps).or standard.steps }

/-- A machine that is about to run the templates. -/
def execution (i : Invocation) (ts : List Template) (input : List UInt8) : Task :=
  let listing := if i.has .bytecode then Template.pages ts else ""
  let m := { Machine.fresh i.limits input with tracing := i.has .debug, output := listing }
  match m.startTemplates ts with
  | (.error f, m) => .answer (.ofFailure m.output f)
  | (.ok _, m) => .execute m

/-- What to do with the program. Listing tokens comes before printing the tree, and that before
the code. -/
def task (i : Invocation) (source : String) (input : List UInt8) : Task :=
  let folding := !i.has .noOpt
  if i.has .tokens then
    match tokenize source with
    | .error e => .answer (.ofFailure "" (.scan e))
    | .ok ls => .answer (.success (listTokens ⟨!i.has .noColor, i.has .pretty⟩ ls))
  else if i.has .ast then
    match analyzeSource folding source with
    | .error f => .answer (.ofFailure "" f)
    | .ok p => .answer (.success p.text)
  else
    match compileSource folding source with
    | .error f => .answer (.ofFailure "" f)
    | .ok ts =>
      if i.has .json then .answer (.success (Template.jsonText ts ++ "\n"))
      else i.execution ts input

end Invocation

end Pebble
