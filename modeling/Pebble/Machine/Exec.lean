import Pebble.Machine
import Pebble.Machine.Operate

/-!
# Executing an instruction

Every operation as an action on the machine. An action that faults keeps what it has done up to
there, so operands it has taken are gone.
-/

namespace Pebble

/-- An action on the machine that may fault. -/
abbrev Exec (α : Type) := EStateM Fault Machine α

namespace Exec

/-- Passes on what a part of the machine says. -/
def lift {α : Type} : Except Fault α → Exec α
  | .ok a => pure a
  | .error e => throw e

/-- Passes on what the store says. -/
def fromStore {α : Type} : Except StoreFault α → Exec α
  | .ok a => pure a
  | .error e => throw (.store e)

/-! ## Operands -/

def push (v : Value) : Exec Unit :=
  modify fun m ↦ { m with operands := v :: m.operands }

def pop : Exec Value := do
  match (← get).operands with
  | [] => throw .stackUnderflow
  | v :: vs =>
    modify fun m ↦ { m with operands := vs }
    return v

/-- The fault of an operand that `op` cannot take. -/
def rejected {α : Type} (op : Op) (wanted : Operands) : Value → Exec α
  | .null => throw (.null op)
  | v => throw (.mismatch op wanted [v.kind])

def popInt (op : Op) : Exec Int32 := do
  match ← pop with
  | .int n => return n
  | v => rejected op .int v

def popBool (op : Op) : Exec Bool := do
  match ← pop with
  | .bool b => return b
  | v => rejected op .bool v

def popRef (op : Op) : Exec Nat := do
  match ← pop with
  | .ref r => return r
  | v => rejected op .object v

/-! ## Frames -/

/-- The innermost frame. -/
def frame : Exec Frame := do
  match (← get).frames with
  | [] => throw .noFrame
  | f :: _ => return f

/-- Changes the innermost frame. -/
def updateFrame (change : Frame → Frame) : Exec Unit := do
  match (← get).frames with
  | [] => throw .noFrame
  | f :: fs => modify fun m ↦ { m with frames := change f :: fs }

def jumpTo (target : Int) : Exec Unit :=
  match target with
  | .ofNat n => updateFrame fun f ↦ { f with pc := n }
  | .negSucc _ => throw (.badJump target)

/-- Enters a function. Its arguments stay on the stack, and it stores them itself. -/
def call (name : String) : Exec Unit := do
  let m ← get
  match m.template? name with
  | none => throw (.unresolvedCall name)
  | some t =>
    if m.limits.callDepth ≤ m.frames.length then throw (.callDepth m.limits.callDepth)
    modify fun m ↦ { m with frames := .enter t :: m.frames }

/-- Leaves a function. The value goes to the caller, if there is one. -/
def ret : Exec Unit :=
  modify fun m ↦
    let frames := m.frames.tail
    let rest := m.operands.tail
    { m with
      frames := frames
      operands := if frames.isEmpty then rest else m.operands.headD .null :: rest }

/-! ## Objects -/

/-- Allocates an object and pushes its reference. -/
def allocate (o : Obj) : Exec Unit := do
  let r := (← get).store.next
  modify fun m ↦ { m with store := m.store.add o }
  push (.ref r)

/-- The index of an item among `size` items. -/
def itemIndex (op : Op) (index : Int32) (size : Nat) : Exec Nat :=
  match index.toInt with
  | .ofNat i => if i < size then pure i else throw (.indexOutOfBounds op index size)
  | .negSucc _ => throw (.indexOutOfBounds op index size)

/-- An item of an array. -/
def item (op : Op) (cells : Array Value) (index : Int32) : Exec Value := do
  let i ← itemIndex op index cells.size
  return cells.getD i .null

/-! ## Input and output -/

def write (s : String) : Exec Unit :=
  modify fun m ↦ { m with output := m.output ++ s }

/-- Takes a line off the input, its line feed included. -/
def splitLine (input : List UInt8) : List UInt8 × List UInt8 :=
  match input.span (· != 10) with
  | (line, feed :: rest) => (line ++ [feed], rest)
  | (line, []) => (line, [])

/-- A line without its line feed and one carriage return before that. -/
def chomp (line : String) : String :=
  match line.toList.reverse with
  | '\n' :: '\r' :: cs | '\n' :: cs => String.ofList cs.reverse
  | _ => line

/-- Reads a line, or null at the end of the input. A line that is not UTF-8 is taken all the
same. -/
def readLine : Exec Value := do
  match splitLine (← get).input with
  | ([], _) => return .null
  | (line, rest) =>
    modify fun m ↦ { m with input := rest }
    match String.fromUTF8? line.toByteArray with
    | none => throw .notText
    | some s => return .str (chomp s)

end Exec

/-! ## Operations -/

open Exec in
/-- What an operation does. -/
def Op.exec (op : Op) : Exec Unit := do
  match op with
  | .push v => Exec.push v
  | .pop => discard Exec.pop
  | .dup =>
    match (← get).operands with
    | [] => throw .stackUnderflow
    | v :: _ => Exec.push v
  | .nop => pure ()
  | .load slot => Exec.push (← lift ((← frame).load slot))
  | .store slot =>
    let v ← Exec.pop
    updateFrame (·.store slot v)
  | .arith o =>
    let rhs ← Exec.pop
    let lhs ← Exec.pop
    Exec.push (← lift (o.apply lhs rhs))
  | .logic o =>
    let rhs ← popBool op
    let lhs ← popBool op
    Exec.push (.bool (o.apply lhs rhs))
  | .not => Exec.push (.bool !(← popBool op))
  | .order o =>
    let rhs ← Exec.pop
    let lhs ← Exec.pop
    Exec.push (.bool (← lift (o.apply lhs rhs)))
  | .equal =>
    let rhs ← Exec.pop
    let lhs ← Exec.pop
    Exec.push (.bool (lhs.equal rhs))
  | .unequal =>
    let rhs ← Exec.pop
    let lhs ← Exec.pop
    Exec.push (.bool !(lhs.equal rhs))
  | .jump target => jumpTo target
  | .jumpUnless target =>
    if ← popBool op then pure () else jumpTo target
  | .call name => Exec.call name
  | .ret => Exec.ret
  | .newRecord => allocate (.record [])
  | .setField name =>
    let v ← Exec.pop
    let r ← popRef op
    discard (fromStore ((← get).store.fields r))
    modify fun m ↦ { m with store := m.store.setField r name v }
  | .getField name =>
    let r ← popRef op
    match (← fromStore ((← get).store.fields r)).get? name with
    | none => throw (.missingField name)
    | some v => Exec.push v
  | .newArray =>
    let wanted ← popInt op
    if wanted < 0 then throw (.negativeSize wanted)
    let n := wanted.toInt.toNat
    let limits := (← get).limits
    if limits.cells < n then throw (.arrayTooLarge n limits.cells)
    allocate (← fromStore (Store.newArray n limits.memory))
  | .setItem =>
    let v ← Exec.pop
    let index ← popInt op
    let r ← popRef op
    let size := (← fromStore ((← get).store.cells r)).size
    let i ← itemIndex op index size
    modify fun m ↦ { m with store := m.store.setCell r i v }
  | .getItem =>
    let index ← popInt op
    let r ← popRef op
    Exec.push (← item op (← fromStore ((← get).store.cells r)) index)
  | .write => Exec.write (← Exec.pop).text
  | .read => Exec.push (← readLine)
  | .size =>
    match ← Exec.pop with
    | .str s => Exec.push (.int (Int32.ofNat s.length))
    | .ref r => Exec.push (.int (Int32.ofNat (← fromStore ((← get).store.cells r)).size))
    | v => rejected op .stringOrArray v
  | .element =>
    let index ← popInt op
    match ← Exec.pop with
    | .str s =>
      let i ← itemIndex op index s.length
      Exec.push (.str ((s.drop i).take 1).copy)
    | .ref r => Exec.push (← item op (← fromStore ((← get).store.cells r)) index)
    | v => rejected op .stringOrArray v
  | .convert c => Exec.push (← lift (c.apply (← Exec.pop)))

end Pebble
