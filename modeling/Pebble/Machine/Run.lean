import Pebble.Machine.Exec
import Pebble.Text.Padding

/-!
# Running the machine

## The construction

A step executes one instruction: the frame moves on to the next one, the instruction is traced and
counted, it is executed, and the operands are counted. A run is steps until the last frame has
returned, a frame has come to its end, or a fault. Runs need not end, so a run is given for a
number of steps, and one that has not ended can be taken up again.
-/

namespace Pebble

/-- How a run stands. -/
inductive Status where
  | running
  | finished
  | failed (r : FaultReport)
deriving DecidableEq, Inhabited

namespace Machine

/-- The line of a trace for an instruction that is about to be executed. -/
def traceLine (m : Machine) (site : Site) : String :=
  let top := match m.operands with
    | [] => "<empty>"
    | v :: _ => v.structureText
  "[" ++ site.template ++ " " ++ Text.padZeros 4 site.pc ++ "] " ++
    Text.padBlanks 28 site.instr.text ++ " top: " ++ top ++ "\n"

/-- Writes the trace, if it is wanted. -/
def trace (site : Site) : Exec Unit := do
  if (← get).tracing then
    Exec.write ((← get).traceLine site)

/-- Counts a step. -/
def countStep : Exec Unit := do
  modify fun m ↦ { m with steps := m.steps + 1 }
  match (← get).limits.steps with
  | none => pure ()
  | some limit => if limit < (← get).steps then throw (.stepLimit limit)

/-- Counts the operands. -/
def countOperands : Exec Unit := do
  let m ← get
  if m.limits.operands < m.operands.length then throw (.stackOverflow m.limits.operands)

/-- All that is done for one instruction. -/
def execute (site : Site) : Exec Unit := do
  trace site
  countStep
  site.instr.op.exec
  countOperands

/-- The instruction that is to be executed next. -/
def site? (m : Machine) : Option Site :=
  match m.frames with
  | [] => none
  | f :: _ => f.template.instrs[f.pc]?.map (⟨f.template.name, f.pc, ·⟩)

/-- Moves the innermost frame on to its next instruction. -/
def advance (m : Machine) : Machine :=
  match m.frames with
  | [] => m
  | f :: fs => { m with frames := { f with pc := f.pc + 1 } :: fs }

/-- Executes one instruction, if there is one left. -/
def step (m : Machine) : Status × Machine :=
  match m.site? with
  | none => (.finished, m)
  | some site =>
    match (execute site).run m.advance with
    | .ok _ m => (.running, m)
    | .error fault m => (.failed ⟨fault, some site⟩, m)

/-- Executes instructions until the run ends, but at most `n`. -/
def runFor : Nat → Machine → Status × Machine
  | 0, m => (.running, m)
  | n + 1, m =>
    match m.step with
    | (.running, m) => runFor n m
    | ended => ended

/-- Begins a run of `main`. -/
def start (m : Machine) : Status × Machine :=
  let m := m.reset
  match m.template? "main" with
  | none => (.failed ⟨.noMain, none⟩, m)
  | some t => (.running, { m with frames := [.enter t] })

end Machine

end Pebble
