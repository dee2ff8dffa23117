import Pebble.Pos
import Pebble.Value

/-!
# Code of the stack machine

An instruction is an operation with an optional note; a template is the code of one function.
Jumps name the index of the instruction to go on with. A negative index means that the target has
not been filled in yet, and the index behind the last instruction ends the function.
-/

namespace Pebble

inductive ArithOp where
  | add | sub | mul | div
deriving DecidableEq, Repr

inductive LogicOp where
  | and | or
deriving DecidableEq, Repr

inductive OrderOp where
  | lt | le
deriving DecidableEq, Repr

/-- What a value is converted to. -/
inductive Conversion where
  | int | double | string
deriving DecidableEq, Repr

/-- An operation of the machine. The comments give the operands it takes from the stack, the top
one last, and what it leaves there. -/
inductive Op where
  /-- `( -- v )` -/
  | push (v : Value)
  /-- `( v -- )` -/
  | pop
  /-- `( v -- v v )` -/
  | dup
  | nop
  /-- `( -- v )` from a slot of the frame. -/
  | load (slot : Nat)
  /-- `( v -- )` to a slot of the frame. -/
  | store (slot : Nat)
  /-- `( v v -- v )` -/
  | arith (o : ArithOp)
  /-- `( bool bool -- bool )` -/
  | logic (o : LogicOp)
  /-- `( bool -- bool )` -/
  | not
  /-- `( v v -- bool )` -/
  | order (o : OrderOp)
  /-- `( v v -- bool )` -/
  | equal
  /-- `( v v -- bool )` -/
  | unequal
  | jump (target : Int)
  /-- `( bool -- )` -/
  | jumpUnless (target : Int)
  | call (name : String)
  /-- `( v -- )`, and `v` is left for the caller. -/
  | ret
  /-- `( -- ref )` -/
  | newRecord
  /-- `( ref v -- )` -/
  | setField (name : String)
  /-- `( ref -- v )` -/
  | getField (name : String)
  /-- `( int -- ref )` -/
  | newArray
  /-- `( ref int v -- )` -/
  | setItem
  /-- `( ref int -- v )` -/
  | getItem
  /-- `( v -- )` -/
  | write
  /-- `( -- v )` -/
  | read
  /-- `( v -- int )` -/
  | size
  /-- `( v int -- v )` on strings and arrays. -/
  | element
  /-- `( v -- v )` -/
  | convert (c : Conversion)
deriving DecidableEq

def ArithOp.mnemonic : ArithOp → String
  | add => "ADD"
  | sub => "SUB"
  | mul => "MUL"
  | div => "DIV"

def LogicOp.mnemonic : LogicOp → String
  | and => "AND"
  | or => "OR"

def OrderOp.mnemonic : OrderOp → String
  | lt => "CMPLT"
  | le => "CMPLE"

def Conversion.mnemonic : Conversion → String
  | int => "TOINT"
  | double => "TODBL"
  | string => "TOSTR"

namespace Op

def mnemonic : Op → String
  | push _ => "PUSH"
  | pop => "POP"
  | dup => "DUP"
  | nop => "NOP"
  | load _ => "LOAD"
  | store _ => "STORE"
  | arith o => o.mnemonic
  | logic o => o.mnemonic
  | not => "NOT"
  | order o => o.mnemonic
  | equal => "CMPEQ"
  | unequal => "CMPNE"
  | jump _ => "JMP"
  | jumpUnless _ => "JMPF"
  | call _ => "CALL"
  | ret => "RET"
  | newRecord => "ALLOCS"
  | setField _ => "SETF"
  | getField _ => "GETF"
  | newArray => "ALLOCA"
  | setItem => "SETI"
  | getItem => "GETI"
  | write => "WRITE"
  | read => "READ"
  | size => "LEN"
  | element => "GETC"
  | convert c => c.mnemonic

/-- The text of the operand that is part of the instruction, if it has one. -/
def operand? : Op → Option String
  | push (.str s) => some (Text.escaped s)
  | push (.ref r) => some ("#" ++ toString r)
  | push v => some v.text
  | load slot | store slot => some (toString slot)
  | jump target | jumpUnless target => some (toString target)
  | call name | setField name | getField name => some name
  | _ => none

def text (op : Op) : String :=
  match op.operand? with
  | none => op.mnemonic
  | some operand => op.mnemonic ++ " " ++ operand

/-- Where a jump goes. -/
def target? : Op → Option Int
  | jump target | jumpUnless target => some target
  | _ => none

/-- A jump with another target. -/
def retarget? (op : Op) (target : Int) : Option Op :=
  match op with
  | jump _ => some (jump target)
  | jumpUnless _ => some (jumpUnless target)
  | _ => none

end Op

/-- An operation and a note on what it is for. -/
structure Instr where
  /-- What the machine does. -/
  op : Op
  /-- What it is for; listings show it and the machine ignores it. -/
  note : Option String
deriving DecidableEq

/-- The code of one function. -/
structure Template where
  /-- The name calls use. -/
  name : String
  /-- The instructions, from index 0 on. -/
  instrs : Array Instr
deriving DecidableEq

namespace Instr

def plain (op : Op) : Instr := ⟨op, none⟩

def noted (op : Op) (note : String) : Instr := ⟨op, some note⟩

def text (i : Instr) : String :=
  match i.note with
  | none => i.op.text
  | some note => i.op.text ++ " ; " ++ note

end Instr

/-- What can go wrong when code is generated. -/
inductive CodeError where
  | unknownStruct (name : String) (pos : Pos)
  | undeclaredVariable (name : String) (pos : Pos)
  | builtinArity (name : String) (wanted found : Nat) (pos : Pos)
  | fieldCount (struct : String) (fields values : Nat)
  | jumpTooFar
  | patchNonJump (mnemonic : String) (index : Nat) (template : String)
  | patchOutOfRange (index : Nat) (template : String)
deriving DecidableEq

namespace CodeError

def message : CodeError → String
  | unknownStruct name _ => "compile error: unknown struct '" ++ name ++ "'"
  | undeclaredVariable name _ => "compile error: undeclared variable '" ++ name ++ "'"
  | builtinArity name wanted found _ =>
    "compile error: built-in '" ++ name ++ "' expects " ++ toString wanted ++
      " argument(s), found " ++ toString found
  | fieldCount struct fields values =>
    "compile error: internal error: struct '" ++ struct ++ "' has " ++ toString fields ++
      " fields but " ++ toString values ++ " values were given"
  | jumpTooFar => "compile error: internal error: jump target does not fit in i32"
  | patchNonJump mnemonic index template =>
    "compile error: internal error: cannot patch non-jump instruction " ++ mnemonic ++ " at " ++
      toString index ++ " in '" ++ template ++ "'"
  | patchOutOfRange index template =>
    "compile error: internal error: patch index " ++ toString index ++ " out of range in '" ++
      template ++ "'"

def pos? : CodeError → Option Pos
  | unknownStruct _ pos | undeclaredVariable _ pos | builtinArity _ _ _ pos => some pos
  | _ => none

end CodeError

namespace Template

/-- The largest index a jump can name. -/
def maxTarget : Nat := 1 <<< 31 - 1

/-- A template without code. -/
def empty (name : String) : Template := ⟨name, #[]⟩

/-- Appends an instruction. -/
def push (t : Template) (i : Instr) : Template :=
  { t with instrs := t.instrs.push i }

/-- The operation of the last instruction. -/
def lastOp? (t : Template) : Option Op :=
  t.instrs.back?.map (·.op)

/-- Gives the jump at `index` a target. -/
def patch (t : Template) (index target : Nat) : Except CodeError Template :=
  if maxTarget < target then .error .jumpTooFar
  else
    match t.instrs[index]? with
    | none => .error (.patchOutOfRange index t.name)
    | some i =>
      match i.op.retarget? target with
      | none => .error (.patchNonJump i.op.mnemonic index t.name)
      | some op => .ok { t with instrs := t.instrs.setIfInBounds index { i with op } }

/-- The targets of all jumps, in increasing order and each once. -/
def targets (t : Template) : List Int :=
  ((t.instrs.toList.filterMap (·.op.target?)).mergeSort (fun a b ↦ a ≤ b)).eraseDups

end Template

end Pebble
