import Pebble.Literal
import Pebble.Pos

/-!
# Programs as trees

A program is a list of structs and a list of functions. Names, literals, types, operators and
returns carry the position of the token they come from.

A path such as `a[i].b.c[j]` is built from the left: a root variable, then fields, each step with
at most one index. An `if` holds its first branch and the chain of what follows: nothing, a last
block, or another condition.
-/

namespace Pebble

/-- A name and where it stands. -/
structure Name where
  text : String
  pos : Pos
deriving DecidableEq

/-- What a type is built from. `void` only says that a function returns nothing. -/
inductive TypeName where
  | int
  | double
  | bool
  | string
  | void
  | struct (name : String)
deriving DecidableEq

/-- A written type: a type name, or an array of one. -/
structure TypeRef where
  name : TypeName
  isArray : Bool
  pos : Pos
deriving DecidableEq

/-- Operators between two operands. -/
inductive BinOp where
  | add | sub | mul | div
  | and | or
  | eq | ne | lt | le | gt | ge
deriving DecidableEq, Repr

mutual

/-- An expression. -/
inductive Expr where
  | lit (value : Literal) (pos : Pos)
  | path (p : Path)
  | call (callee : Name) (args : List Expr)
  | newStruct (name : Name) (args : List Expr)
  | newArray (elem : TypeRef) (size : Expr)
  | not (pos : Pos) (operand : Expr)
  | binary (op : BinOp) (pos : Pos) (lhs rhs : Expr)

/-- A variable, or a field of a path, with at most one index. -/
inductive Path where
  | root (name : Name) (index : Option Expr)
  | field (base : Path) (name : Name) (index : Option Expr)

end

mutual

/-- A statement. -/
inductive Stmt where
  | var (name : Name) (type : Option TypeRef) (init : Option Expr)
  | assign (target : Path) (value : Expr)
  | ret (pos : Pos) (value : Expr)
  | whileLoop (cond : Expr) (body : List Stmt)
  | forLoop (var : Name) (first last : Expr) (body : List Stmt)
  | ifElse (cond : Expr) (body : List Stmt) (other : Else)
  | call (callee : Name) (args : List Expr)

/-- What follows a branch of an `if`. -/
inductive Else where
  | none
  | block (body : List Stmt)
  | elseIf (cond : Expr) (body : List Stmt) (other : Else)

end

/-- A name with its type: a field of a struct or a parameter of a function. -/
structure VarDef where
  name : Name
  type : TypeRef
deriving DecidableEq

/-- A struct. Constructor arguments follow the order of its fields. -/
structure StructDef where
  name : Name
  fields : List VarDef
deriving DecidableEq

/-- A function. -/
structure FunDef where
  name : Name
  returnType : TypeRef
  params : List VarDef
  body : List Stmt

/-- A program. -/
structure Program where
  structs : List StructDef
  functions : List FunDef

/-- The types of values that are no structs. -/
def TypeName.isBase : TypeName → Bool
  | int | double | bool | string => true
  | void | struct _ => false

def TypeName.text : TypeName → String
  | int => "int"
  | double => "double"
  | bool => "bool"
  | string => "string"
  | void => "void"
  | struct name => name

def TypeRef.text (t : TypeRef) : String :=
  if t.isArray then "[" ++ t.name.text ++ "]" else t.name.text

namespace BinOp

def symbol : BinOp → String
  | add => "+"
  | sub => "-"
  | mul => "*"
  | div => "/"
  | and => "and"
  | or => "or"
  | eq => "=="
  | ne => "!="
  | lt => "<"
  | le => "<="
  | gt => ">"
  | ge => ">="

/-- How tightly an operator binds: from `or`, the loosest, at zero up to `maxPrecedence`. -/
def precedence : BinOp → Nat
  | or => 0
  | and => 1
  | eq | ne | lt | le | gt | ge => 2
  | add | sub => 3
  | mul | div => 4

/-- The precedence of the operators that bind tightest. -/
def maxPrecedence : Nat := 4

def isLogical : BinOp → Bool
  | and | or => true
  | _ => false

def isEquality : BinOp → Bool
  | eq | ne => true
  | _ => false

def isRelational : BinOp → Bool
  | lt | le | gt | ge => true
  | _ => false

/-- The operator written with this symbol. -/
def ofSymbol? (s : String) : Option BinOp :=
  [add, sub, mul, div, and, or, eq, ne, lt, le, gt, ge].find? (·.symbol == s)

end BinOp

/-- The position of the first token of a path. -/
def Path.pos : Path → Pos
  | root name _ => name.pos
  | field base _ _ => base.pos

namespace Expr

/-- The position of the first token of an expression, which for a `new` is the name after it. -/
def pos : Expr → Pos
  | lit _ pos => pos
  | path p => p.pos
  | call callee _ => callee.pos
  | newStruct name _ => name.pos
  | newArray elem _ => elem.pos
  | not pos _ => pos
  | binary _ _ lhs _ => lhs.pos

/-- The literal an expression consists of. -/
def literal? : Expr → Option Literal
  | lit value _ => some value
  | _ => none

/-- Whether an expression has an operator at its root. -/
def isOperation : Expr → Bool
  | not _ _ | binary _ _ _ _ => true
  | _ => false

end Expr

/-- The chain of further branches, ended by a last block if there is one. -/
def Else.ofBranches : List (Expr × List Stmt) → Option (List Stmt) → Else
  | [], Option.none => .none
  | [], some body => .block body
  | (cond, body) :: branches, last => .elseIf cond body (ofBranches branches last)

end Pebble
