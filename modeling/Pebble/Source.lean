import Pebble.Code.Generate
import Pebble.Failure
import Pebble.Machine.Run
import Pebble.Syntax.Folding
import Pebble.Typing.Check

/-!
# From source text to a run

The text of a program becomes tokens, a tree, a checked and possibly folded tree, and templates.
The first stage that fails decides.
-/

namespace Pebble

/-- The tree of a program text. -/
def parseSource (source : String) : Except Failure Program := do
  let ls ← (tokenize source).mapError .scan
  (parse ls).mapError .parse

/-- The checked tree of a program text, with constants folded if that is wanted. -/
def analyzeSource (folding : Bool) (source : String) : Except Failure Program := do
  let p ← parseSource source
  p.check.mapError .static
  return if folding then p.folded else p

/-- The templates of a program text. -/
def compileSource (folding : Bool) (source : String) : Except Failure (List Template) := do
  let p ← analyzeSource folding source
  p.code.mapError .code

namespace Machine

/-- Registers templates up to the first that does not pass verification. -/
def registerAll (m : Machine) : List Template → Except Failure Unit × Machine
  | [] => (.ok (), m)
  | t :: ts =>
    match m.register t with
    | (.error e, m) => (.error (.verify e), m)
    | (.ok _, m) => m.registerAll ts

/-- Registers templates and begins a run. -/
def startTemplates (m : Machine) (ts : List Template) : Except Failure Unit × Machine :=
  match m.registerAll ts with
  | (.error e, m) => (.error e, m)
  | (.ok _, m) =>
    match m.start with
    | (.failed r, m) => (.error (.run r), m)
    | (_, m) => (.ok (), m)

/-- Compiles a program, registers its templates and begins a run. -/
def startSource (m : Machine) (folding : Bool) (source : String) : Except Failure Unit × Machine :=
  match compileSource folding source with
  | .error e => (.error e, m)
  | .ok ts => m.startTemplates ts

end Machine

end Pebble
