import Pebble.Code.Verify
import Pebble.Store
import Pebble.Machine.Fault

/-!
# The machine

The state of the stack machine: registered templates, operands, frames, the store, and what is
left of the input and has been written so far.
-/

namespace Pebble

/-- Bounds on what a run may use. -/
structure Limits where
  /-- How many frames there may be. -/
  callDepth : Nat
  /-- How many instructions may be executed, if that is bounded. -/
  steps : Option Nat
  /-- How many operands there may be after an instruction. -/
  operands : Nat
  /-- How many cells an array may have. -/
  cells : Nat
  /-- How many cells the memory has room for in one array. -/
  memory : Nat := Store.maxCells
deriving DecidableEq, Repr

def Limits.standard : Limits := ⟨1000, none, 10000, 1 <<< 24, Store.maxCells⟩

/-- One activation of a template. -/
structure Frame where
  template : Template
  /-- The values of the slots that have been used. -/
  slots : Array Value
  /-- The index of the next instruction. -/
  pc : Nat

namespace Frame

/-- A frame that has not begun. -/
def enter (t : Template) : Frame := ⟨t, #[], 0⟩

/-- The value of a slot. -/
def load (f : Frame) (slot : Nat) : Except Fault Value :=
  match f.slots[slot]? with
  | none => .error (.uninitializedSlot slot)
  | some v => .ok v

/-- Sets a slot; the slots before it are null if they have not been used. -/
def store (f : Frame) (slot : Nat) (v : Value) : Frame :=
  let missing := slot + 1 - f.slots.size
  { f with slots := (f.slots ++ Array.replicate missing Value.null).setIfInBounds slot v }

end Frame

structure Machine where
  /-- The registered templates, no two of one name. -/
  templates : List Template
  /-- The operand stack, the top first. -/
  operands : List Value
  /-- The active frames, the innermost first. -/
  frames : List Frame
  store : Store
  limits : Limits
  /-- How many instructions the run has begun. -/
  steps : Nat
  /-- Whether every instruction is traced. -/
  tracing : Bool
  /-- What is left of the input. -/
  input : List UInt8
  /-- What has been written. -/
  output : String

namespace Machine

/-- A machine that has done nothing yet. -/
def fresh (limits : Limits) (input : List UInt8) : Machine where
  templates := []
  operands := []
  frames := []
  store := .empty
  limits := limits
  steps := 0
  tracing := false
  input := input
  output := ""

/-- The registered template of a name. -/
def template? (m : Machine) (x : String) : Option Template :=
  m.templates.find? (·.name == x)

/-- Registers a template that passes verification, in place of any other of its name. -/
def register (m : Machine) (t : Template) : Except VerifyError Unit × Machine :=
  match t.verify with
  | .error e => (.error e, m)
  | .ok _ => (.ok (), { m with templates := t :: m.templates.filter (·.name != t.name) })

/-- Forgets the last run. Templates, objects, input and output stay. -/
def reset (m : Machine) : Machine :=
  { m with steps := 0, operands := [], frames := [] }

end Machine

end Pebble
