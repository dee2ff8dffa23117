import Pebble.Code.Verify
import Pebble.Machine.Fault
import Pebble.Syntax.Parser
import Pebble.Token.Scanner
import Pebble.Typing

/-!
# Failures

Whatever can go wrong between the text of a program and the end of its run, and how it is
reported.
-/

namespace Pebble

/-- Where a failure belongs for the one who wrote the program. -/
inductive Phase where
  | lexical | syntactic | static | runtime
deriving DecidableEq, Repr

def Phase.text : Phase → String
  | lexical => "Lexer error"
  | syntactic => "Parse error"
  | static => "Static error"
  | runtime => "Runtime error"

inductive Failure where
  | scan (e : ScanError)
  | parse (e : ParseError)
  | static (e : StaticError)
  | code (e : CodeError)
  | verify (e : VerifyError)
  | run (r : FaultReport)

namespace Failure

/-- Code that cannot be generated or verified is a static failure, since nothing has run yet. -/
def phase : Failure → Phase
  | scan _ => .lexical
  | parse _ => .syntactic
  | static _ | code _ | verify _ => .static
  | run _ => .runtime

def message : Failure → String
  | scan e => e.message
  | parse e => e.message
  | static e => e.message
  | code e => e.message
  | verify e => e.message
  | run r => r.message

/-- The place in the program, where one is known. -/
def pos? : Failure → Option Pos
  | scan e => some e.pos
  | parse e => some e.pos
  | static e => e.pos
  | code e => e.pos?
  | verify _ | run _ => none

/-- The line that reports a failure. -/
def line (f : Failure) : String :=
  f.phase.text ++ ": " ++ f.message ++ "\n"

end Failure

end Pebble
