import Pebble.Code

/-!
# Code as JSON

Templates as JSON text, two blanks of indentation per level. A piece of the text is a function of
the depth it stands at.
-/

namespace Pebble

/-- A JSON value as a function of its depth of indentation. -/
abbrev JsonText := Nat → String

namespace JsonText

def atom (s : String) : JsonText := fun _ ↦ s

def str (s : String) : JsonText := atom (Text.jsonQuoted s)

/-- Items on lines of their own between two brackets, which stay together if there is none. -/
def bracketed (opening closing : String) (items : List JsonText) : JsonText := fun depth ↦
  let blanks (d : Nat) := String.ofList (List.replicate (2 * d) ' ')
  if items.isEmpty then opening ++ closing
  else
    opening ++ "\n" ++
      ",\n".intercalate (items.map fun item ↦ blanks (depth + 1) ++ item (depth + 1)) ++
      "\n" ++ blanks depth ++ closing

def list (items : List JsonText) : JsonText :=
  bracketed "[" "]" items

def field (key : String) (value : JsonText) : JsonText := fun depth ↦
  Text.jsonQuoted key ++ ": " ++ value depth

def object (fields : List JsonText) : JsonText :=
  bracketed "\x7b" "\x7d" fields

/-- An object with one field. -/
def tagged (key : String) (value : JsonText) : JsonText :=
  object [field key value]

end JsonText

/-- Doubles in JSON: positional from `1e-5` up to `1e16`, exponents signed, and of two equally near
decimals the one with the even last digit. -/
def NumeralStyle.json : NumeralStyle :=
  { bare with
    tie := .even
    positional := fun e ↦ -5 ≤ e && e < 16
    wholePoint := true
    mark := "e+" }

def Value.json : Value → JsonText
  | null => .str "Null"
  | int n => .tagged "Int" (.atom (toString n.toInt))
  | double d =>
    .tagged "Double" (.atom (if d.isFinite then NumeralStyle.json.text d else "null"))
  | bool b => .tagged "Bool" (.atom (boolText b))
  | str s => .tagged "Str" (.str s)
  | ref r => .tagged "Ref" (.atom (toString r))

def Op.json : Op → JsonText
  | push v => .tagged "Push" v.json
  | pop => .str "Pop"
  | dup => .str "Dup"
  | nop => .str "Nop"
  | load slot => .tagged "Load" (.atom (toString slot))
  | store slot => .tagged "Store" (.atom (toString slot))
  | arith .add => .str "Add"
  | arith .sub => .str "Sub"
  | arith .mul => .str "Mul"
  | arith .div => .str "Div"
  | logic .and => .str "And"
  | logic .or => .str "Or"
  | not => .str "Not"
  | order .lt => .str "CmpLt"
  | order .le => .str "CmpLe"
  | equal => .str "CmpEq"
  | unequal => .str "CmpNe"
  | jump target => .tagged "Jmp" (.atom (toString target))
  | jumpUnless target => .tagged "Jmpf" (.atom (toString target))
  | call name => .tagged "Call" (.str name)
  | ret => .str "Ret"
  | newRecord => .str "Allocs"
  | setField name => .tagged "Setf" (.str name)
  | getField name => .tagged "Getf" (.str name)
  | newArray => .str "Alloca"
  | setItem => .str "Seti"
  | getItem => .str "Geti"
  | write => .str "Write"
  | read => .str "Read"
  | size => .str "Len"
  | element => .str "Getc"
  | convert .int => .str "ToInt"
  | convert .double => .str "ToDbl"
  | convert .string => .str "ToStr"

def Instr.json (i : Instr) : JsonText :=
  .object (.field "op" i.op.json ::
    match i.note with
    | none => []
    | some note => [.field "comment" (.str note)])

def Template.json (t : Template) : JsonText :=
  .object [.field "name" (.str t.name),
    .field "instrs" (.list (t.instrs.toList.map Instr.json))]

/-- Templates as JSON text. -/
def Template.jsonText (ts : List Template) : String :=
  JsonText.list (ts.map Template.json) 0

end Pebble
