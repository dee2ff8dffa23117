import Pebble.Code
import Pebble.Store

/-!
# Faults of the machine

Why an instruction cannot be executed, and the report that says where it happened.
-/

namespace Pebble

/-- The operands an operation accepts. -/
inductive Operands where
  | int | bool | object | stringOrArray | scalar | convertible | numbers | comparable
deriving DecidableEq, Repr

def Operands.text : Operands → String
  | int => "an int"
  | bool => "a bool"
  | object => "an object"
  | stringOrArray => "a string or an array"
  | scalar => "a scalar"
  | convertible => "an int, a double or a string"
  | numbers => "two ints or two doubles"
  | comparable => "two ints, two doubles or two strings"

inductive Fault where
  /-- An operand is null. -/
  | null (op : Op)
  /-- The operands are of the wrong kinds. -/
  | mismatch (op : Op) (wanted : Operands) (found : List Value.Kind)
  | divisionByZero
  | indexOutOfBounds (op : Op) (index : Int32) (size : Nat)
  | store (f : StoreFault)
  | missingField (name : String)
  | negativeSize (size : Int32)
  | arrayTooLarge (size limit : Nat)
  | badConversion (s : String) (target : Value.Kind)
  | uninitializedSlot (slot : Nat)
  | badJump (target : Int)
  | noMain
  | unresolvedCall (name : String)
  | noFrame
  | stackUnderflow
  | callDepth (limit : Nat)
  | stackOverflow (limit : Nat)
  | stepLimit (limit : Nat)
  /-- A line of the input is not UTF-8. -/
  | notText
deriving DecidableEq

def Fault.message : Fault → String
  | null op => "null value error: " ++ op.mnemonic ++ " cannot take null"
  | mismatch op wanted found =>
    "type error: " ++ op.mnemonic ++ " expects " ++ wanted.text ++ ", found " ++
      " and ".intercalate (found.map (·.name))
  | divisionByZero => "division by zero error"
  | indexOutOfBounds op index size =>
    op.mnemonic ++ ": index " ++ toString index.toInt ++ " out of bounds for length " ++
      toString size
  | store f => f.message
  | missingField name => "field '" ++ name ++ "' does not exist"
  | negativeSize size => "not a valid array size: " ++ toString size.toInt
  | arrayTooLarge size limit =>
    "array of length " ++ toString size ++ " exceeds the limit of " ++ toString limit
  | badConversion s target => "cannot convert " ++ Text.escaped s ++ " to " ++ target.name
  | uninitializedSlot slot => "load of uninitialized slot " ++ toString slot
  | badJump target => "invalid jump target " ++ toString target
  | noMain => "no 'main' function"
  | unresolvedCall name => "call to undefined function '" ++ name ++ "'"
  | noFrame => "no active call frame"
  | stackUnderflow => "operand stack underflow"
  | callDepth limit =>
    "call depth limit exceeded (" ++ toString limit ++ ") - possible infinite recursion"
  | stackOverflow limit => "stack size limit exceeded (" ++ toString limit ++ ")"
  | stepLimit limit => "execution step limit exceeded (" ++ toString limit ++ ")"
  | notText => "i/o error: stream did not contain valid UTF-8"

/-- The instruction that was being executed. -/
structure Site where
  /-- The name of its template. -/
  template : String
  /-- Its index there. -/
  pc : Nat
  instr : Instr
deriving DecidableEq

/-- A fault and where it happened, unless it was before the first instruction. -/
structure FaultReport where
  fault : Fault
  site : Option Site
deriving DecidableEq

def FaultReport.message (r : FaultReport) : String :=
  match r.site with
  | none => r.fault.message
  | some site =>
    r.fault.message ++ " in " ++ site.template ++ " at " ++ toString site.pc ++ ": " ++
      site.instr.text

end Pebble
