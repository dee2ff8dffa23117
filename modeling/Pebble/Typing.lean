import Pebble.Syntax

/-!
# Static types

The type of an expression, the scopes that give names their types, and everything that can be
wrong with a program before it runs. `null` has a type of its own, which fits every declared
type; a call that returns nothing has it too.
-/

namespace Pebble

/-- The type of an expression. -/
inductive Ty where
  | null
  | one (name : TypeName)
  | array (elem : TypeName)
deriving DecidableEq

namespace Ty

def ofRef (t : TypeRef) : Ty :=
  if t.isArray then array t.name else one t.name

def int : Ty := one .int

def double : Ty := one .double

def bool : Ty := one .bool

def string : Ty := one .string

/-- Arrays and structs live in the store; everything else is a plain value. -/
def isObject : Ty → Bool
  | array _ | one (.struct _) => true
  | _ => false

def isArray : Ty → Bool
  | array _ => true
  | _ => false

/-- Whether a value of this type may be kept where `wanted` is declared. -/
def fits (t wanted : Ty) : Bool :=
  t = null || t = wanted

def text : Ty → String
  | null => "null"
  | one name => name.text
  | array elem => "[" ++ elem.text ++ "]"

end Ty

/-! ## Scopes -/

/-- The names in scope with their types, the innermost scope first. -/
structure Scopes where
  stack : List (List (String × Ty))

namespace Scopes

def empty : Scopes := ⟨[]⟩

/-- Opens a scope. -/
def push (s : Scopes) : Scopes :=
  ⟨[] :: s.stack⟩

/-- Closes the innermost scope. -/
def pop (s : Scopes) : Scopes :=
  ⟨s.stack.tail⟩

/-- Gives a name a type in the innermost scope. -/
def declare (s : Scopes) (x : String) (t : Ty) : Scopes :=
  match s.stack with
  | [] => s
  | scope :: outer => ⟨((x, t) :: scope) :: outer⟩

/-- Whether the innermost scope has the name. -/
def declaredHere (s : Scopes) (x : String) : Bool :=
  match s.stack with
  | [] => false
  | scope :: _ => (scope.lookup x).isSome

/-- The type of a name in the innermost scope that has it. -/
def lookup (s : Scopes) (x : String) : Option Ty :=
  s.stack.findSome? (·.lookup x)

end Scopes

/-! ## Built-in functions -/

/-- The functions every program can call. -/
inductive Builtin where
  | print | println | readln | size | get | intVal | dblVal | strVal
deriving DecidableEq, Repr

namespace Builtin

def all : List Builtin :=
  [print, println, readln, size, get, intVal, dblVal, strVal]

def name : Builtin → String
  | print => "print"
  | println => "println"
  | readln => "readln"
  | size => "size"
  | get => "get"
  | intVal => "int_val"
  | dblVal => "dbl_val"
  | strVal => "str_val"

def ofName? (x : String) : Option Builtin :=
  all.find? (·.name == x)

def arity : Builtin → Nat
  | readln => 0
  | get => 2
  | _ => 1

end Builtin

/-! ## Errors -/

/-- What a type is written for. -/
inductive TypeUse where
  | field | result | parameter | binding | element
deriving DecidableEq

def TypeUse.text : TypeUse → String
  | field => "field"
  | result => "return"
  | parameter => "parameter"
  | binding => "variable"
  | element => "array element"

/-- The two ends of a counting loop. -/
inductive LoopBound where
  | first | last
deriving DecidableEq

def LoopBound.text : LoopBound → String
  | first => "start"
  | last => "end"

/-- What can be wrong with a program before it runs. -/
inductive StaticFault where
  | structRepeated (name : String)
  | builtinRedefined (name : String)
  | functionRepeated (name : String)
  | noMain
  | mainReturnsValue
  | mainTakesParameters
  | fieldRepeated (name : String)
  | parameterRepeated (name : String)
  | variableRepeated (name : String)
  | invalidType (use : TypeUse) (type : TypeRef)
  | variableMismatch (wanted found : Ty)
  | untypedNull (name : String)
  | untypedVariable (name : String)
  | assignMismatch (wanted found : Ty)
  | valueFromVoid
  | returnMismatch (wanted found : Ty)
  | conditionNotBool (found : Ty)
  | boundNotInt (bound : LoopBound) (found : Ty)
  | notNeedsBool (found : Ty)
  | logicalNeedsBool (op : BinOp)
  | equalityMismatch (op : BinOp) (lhs rhs : Ty)
  | arrayOperand (op : BinOp)
  | operandMismatch (op : BinOp) (lhs rhs : Ty)
  | nullOperand (op : BinOp)
  | notOrdered (op : BinOp) (type : TypeName)
  | notNumeric (op : BinOp) (type : TypeName)
  | unknownStruct (name : String)
  | fieldCount (struct : String) (wanted found : Nat)
  | fieldMismatch (field struct : String) (wanted found : Ty)
  | sizeNotInt (found : Ty)
  | undeclared (name : String)
  | fieldOfNonStruct (field : String) (found : Ty)
  | noSuchField (struct field : String)
  | notAnArray (name : String) (found : Ty)
  | indexNotInt (found : Ty)
  | undefinedFunction (name : String)
  | argumentCount (function : String) (wanted found : Nat)
  | argumentMismatch (number : Nat) (function : String) (wanted found : Ty)
  | unprintable (function : String) (found : Ty)
  | inconvertible (function : String) (found : Ty)
  | sizeOfScalar (found : Ty)
  | getIndexNotInt (found : Ty)
  | getFromScalar (found : Ty)
deriving DecidableEq

def StaticFault.message : StaticFault → String
  | structRepeated name => "struct name already used: " ++ name
  | builtinRedefined name => "cannot use the name of a built-in: " ++ name
  | functionRepeated name => "function name already used: " ++ name
  | noMain => "no main function defined"
  | mainReturnsValue => "main function must return void"
  | mainTakesParameters => "main function cannot have parameters"
  | fieldRepeated name => "field name already used: " ++ name
  | parameterRepeated name => "parameter name already used: " ++ name
  | variableRepeated name => "variable already declared in this scope: " ++ name
  | invalidType use type => "invalid " ++ use.text ++ " type: " ++ type.text
  | variableMismatch wanted found =>
    "variable type mismatch: expected " ++ wanted.text ++ " but found " ++ found.text
  | untypedNull name => "cannot infer the type of '" ++ name ++ "' from null"
  | untypedVariable name => "variable '" ++ name ++ "' needs a type or an initializer"
  | assignMismatch wanted found =>
    "type mismatch: expected " ++ wanted.text ++ " but found " ++ found.text
  | valueFromVoid => "void function cannot return a value"
  | returnMismatch wanted found =>
    "return type mismatch: expected " ++ wanted.text ++ " but found " ++ found.text
  | conditionNotBool found => "condition must be a bool, found " ++ found.text
  | boundNotInt bound found =>
    "for loop " ++ bound.text ++ " must be an int, found " ++ found.text
  | notNeedsBool found => "'not' requires a bool operand, found " ++ found.text
  | logicalNeedsBool op => "logical operator '" ++ op.symbol ++ "' requires bool operands"
  | equalityMismatch op lhs rhs =>
    "equality operator '" ++ op.symbol ++ "' requires matching types or null, found " ++
      lhs.text ++ " and " ++ rhs.text
  | arrayOperand op => "operator '" ++ op.symbol ++ "' cannot be applied to arrays"
  | operandMismatch op lhs rhs =>
    "type mismatch for operator '" ++ op.symbol ++ "': " ++ lhs.text ++ " vs " ++ rhs.text
  | nullOperand op => "operator '" ++ op.symbol ++ "' cannot be applied to null"
  | notOrdered op type =>
    "relational operator '" ++ op.symbol ++ "' cannot be applied to " ++ type.text
  | notNumeric op type =>
    "arithmetic operator '" ++ op.symbol ++ "' cannot be applied to " ++ type.text
  | unknownStruct name => "unknown struct: " ++ name
  | fieldCount struct wanted found =>
    "struct '" ++ struct ++ "' expects " ++ toString wanted ++ " values, found " ++ toString found
  | fieldMismatch field struct wanted found =>
    "field '" ++ field ++ "' of '" ++ struct ++ "' expects " ++ wanted.text ++ " but found " ++
      found.text
  | sizeNotInt found => "array size must be an int, found " ++ found.text
  | undeclared name => "undeclared variable: " ++ name
  | fieldOfNonStruct field found =>
    "cannot access field '" ++ field ++ "' on a value of type " ++ found.text
  | noSuchField struct field => "struct '" ++ struct ++ "' has no field '" ++ field ++ "'"
  | notAnArray name found => "'" ++ name ++ "' is not an array (type " ++ found.text ++ ")"
  | indexNotInt found => "array index must be an int, found " ++ found.text
  | undefinedFunction name => "undefined function: " ++ name
  | argumentCount function wanted found =>
    "function '" ++ function ++ "' expects " ++ toString wanted ++ " argument" ++
      (if wanted = 1 then "" else "s") ++ ", found " ++ toString found
  | argumentMismatch number function wanted found =>
    "argument " ++ toString number ++ " of '" ++ function ++ "' expects " ++ wanted.text ++
      " but found " ++ found.text
  | unprintable function found =>
    "cannot " ++ function ++ " a value of type " ++ found.text
  | inconvertible function found =>
    function ++ " cannot convert a value of type " ++ found.text
  | sizeOfScalar found => "size expects a string or an array, found " ++ found.text
  | getIndexNotInt found => "first argument to get must be an int, found " ++ found.text
  | getFromScalar found =>
    "second argument to get must be a string or an array, found " ++ found.text

/-- Something wrong with a program, and where it is unless it is nowhere in particular. -/
structure StaticError where
  pos : Option Pos
  fault : StaticFault
deriving DecidableEq

def StaticError.message (e : StaticError) : String :=
  match e.pos with
  | none => e.fault.message
  | some pos => pos.text ++ ": " ++ e.fault.message

end Pebble
