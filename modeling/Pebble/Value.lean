import Pebble.Decimal.Numeral
import Pebble.Literal
import Pebble.Text.Quoted

/-!
# Values of a running program

A value is a constant or a reference to an object of the store. References are numbers; they are
compared and never computed with.
-/

namespace Pebble

/-- What a variable, a field, a cell or the operand stack can hold. -/
inductive Value where
  | null
  | int (n : Int32)
  | double (d : Float)
  | bool (b : Bool)
  | str (s : String)
  | ref (r : Nat)
deriving DecidableEq

/-- Doubles as programs print them: positional from `1e-3` up to `1e7`. -/
def NumeralStyle.printed : NumeralStyle where
  tie := .up
  positional e := -3 ≤ e && e < 7
  wholePoint := true
  digitPoint := true
  mark := "E"
  markMinus := "E-"
  infinity := "Infinity"
  nan := "NaN"

namespace Value

/-- The kinds of values. -/
inductive Kind where
  | null | int | double | bool | string | object
deriving DecidableEq, Repr

def Kind.name : Kind → String
  | null => "null"
  | int => "int"
  | double => "double"
  | bool => "bool"
  | string => "string"
  | object => "object"

def kind : Value → Kind
  | null => .null
  | int _ => .int
  | double _ => .double
  | bool _ => .bool
  | str _ => .string
  | ref _ => .object

def isNull : Value → Bool
  | null => true
  | _ => false

def ofLiteral : Literal → Value
  | .int n => int n
  | .double d => double d
  | .bool b => bool b
  | .str s => str s
  | .null => null

/-- Equality as programs see it: doubles compare as numbers, references by identity. -/
def equal : Value → Value → Bool
  | null, null => true
  | int a, int b => a == b
  | double a, double b => a == b
  | bool a, bool b => a == b
  | str a, str b => a == b
  | ref a, ref b => a == b
  | _, _ => false

/-- The text a program writes for a value. -/
def text : Value → String
  | null => "null"
  | int n => toString n.toInt
  | double d => NumeralStyle.printed.text d
  | bool b => boolText b
  | str s => s
  | ref r => toString r

/-- The structure of a value, as traces show it. -/
def structureText : Value → String
  | null => "Null"
  | int n => "Int(" ++ toString n.toInt ++ ")"
  | double d => "Double(" ++ NumeralStyle.structural.text d ++ ")"
  | bool b => "Bool(" ++ boolText b ++ ")"
  | str s => "Str(" ++ Text.escaped s ++ ")"
  | ref r => "Ref(Oid(" ++ toString r ++ "))"

end Value

end Pebble
