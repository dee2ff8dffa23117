/-!
# Literals

The constants that can be written in a program. Integers have 32 bits, doubles are IEEE binary64.
-/

namespace Pebble

/-- A constant of the language. -/
inductive Literal where
  | int (n : Int32)
  | double (d : Float)
  | bool (b : Bool)
  | str (s : String)
  | null
deriving DecidableEq

/-- The name of a literal's type. -/
def Literal.typeName : Literal → String
  | .int _ => "int"
  | .double _ => "double"
  | .bool _ => "bool"
  | .str _ => "string"
  | .null => "null"

/-- The text of a truth value. -/
def boolText (b : Bool) : String :=
  if b then "true" else "false"

end Pebble
