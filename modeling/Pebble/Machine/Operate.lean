import Pebble.Decimal.Read
import Pebble.Machine.Fault

/-!
# Operations on values

What arithmetic, order and conversion do to values. Integers wrap around at 32 bits, doubles are
binary64, and nothing can be computed from null.
-/

namespace Pebble

namespace ArithOp

/-- The result for two ints; only a division by zero has none. -/
def onInts (a b : Int32) : ArithOp → Except Fault Value
  | add => .ok (.int (a + b))
  | sub => .ok (.int (a - b))
  | mul => .ok (.int (a * b))
  | div => if b = 0 then .error .divisionByZero else .ok (.int (a / b))

/-- The result for two doubles; only a division by zero has none. -/
def onDoubles (a b : Float) : ArithOp → Except Fault Value
  | add => .ok (.double (a + b))
  | sub => .ok (.double (a - b))
  | mul => .ok (.double (a * b))
  | div => if b == 0 then .error .divisionByZero else .ok (.double (a / b))

/-- The operands an operation accepts. -/
def wanted : ArithOp → Operands
  | add => .comparable
  | _ => .numbers

def apply (o : ArithOp) (lhs rhs : Value) : Except Fault Value :=
  if lhs.isNull || rhs.isNull then .error (.null (.arith o))
  else
    match o, lhs, rhs with
    | o, .int a, .int b => o.onInts a b
    | o, .double a, .double b => o.onDoubles a b
    | add, .str a, .str b => .ok (.str (a ++ b))
    | o, lhs, rhs => .error (.mismatch (.arith o) o.wanted [lhs.kind, rhs.kind])

end ArithOp

namespace LogicOp

def apply : LogicOp → Bool → Bool → Bool
  | and, a, b => a && b
  | or, a, b => a || b

end LogicOp

namespace OrderOp

/-- Compares two values of one kind. A double that is not a number is neither less than nor equal
to any. -/
def apply (o : OrderOp) (lhs rhs : Value) : Except Fault Bool :=
  if lhs.isNull || rhs.isNull then .error (.null (.order o))
  else
    match o, lhs, rhs with
    | lt, .int a, .int b => .ok (a < b)
    | le, .int a, .int b => .ok (a ≤ b)
    | lt, .double a, .double b => .ok (a < b)
    | le, .double a, .double b => .ok (a ≤ b)
    | lt, .str a, .str b => .ok (a < b)
    | le, .str a, .str b => .ok (a ≤ b)
    | o, lhs, rhs => .error (.mismatch (.order o) .comparable [lhs.kind, rhs.kind])

end OrderOp

namespace Conversion

/-- The value a text spells, or the fault that it spells none. -/
def read (s : String) (target : Value.Kind) (v : Option Value) : Except Fault Value :=
  match v with
  | none => .error (.badConversion s target)
  | some v => .ok v

def apply (c : Conversion) (v : Value) : Except Fault Value :=
  match c, v with
  | c, .null => .error (.null (.convert c))
  | int, .int n => .ok (.int n)
  | int, .double d => .ok (.int (Binary64.floorInt32 d))
  | int, .str s => read s .int ((Decimal.readInt32? s.toList).map .int)
  | double, .int n => .ok (.double (Float.ofInt n.toInt))
  | double, .double d => .ok (.double d)
  | double, .str s => read s .double ((Decimal.readDouble? s.toList).map .double)
  | string, .ref _ => .error (.mismatch (.convert string) .scalar [.object])
  | string, v => .ok (.str v.text)
  | c, v => .error (.mismatch (.convert c) .convertible [v.kind])

end Conversion

end Pebble
