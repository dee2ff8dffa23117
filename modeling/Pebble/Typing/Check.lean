import Pebble.Typing

/-!
# Checking a program

Walks a program once, in the order it is written, and stops at the first thing that is wrong.
All names of structs and functions are known before any body is looked at.

A statement is checked in the scopes it finds and answers the scopes for the next one; a block
opens a scope and closes it again. Arguments are typed from left to right, each judged before the
next is typed.
-/

namespace Pebble

/-- The outcome of a check. -/
abbrev Checked (α : Type) := Except StaticError α

/-- Stops with a fault at a position. -/
def faultAt {α : Type} (pos : Pos) (f : StaticFault) : Checked α :=
  .error ⟨some pos, f⟩

/-- Stops with a fault unless a condition holds. -/
def require (cond : Bool) (pos : Pos) (f : StaticFault) : Checked Unit :=
  if cond then .ok () else faultAt pos f

namespace Program

/-- The struct with this name. -/
def struct? (p : Program) (x : String) : Option StructDef :=
  p.structs.find? (·.name.text == x)

/-- The function with this name. -/
def function? (p : Program) (x : String) : Option FunDef :=
  p.functions.find? (·.name.text == x)

/-- Whether values of this type exist. -/
def hasType (p : Program) : TypeName → Bool
  | .struct x => (p.struct? x).isSome
  | t => t.isBase

/-- A written type must name a type of values. -/
def checkType (p : Program) (use : TypeUse) (t : TypeRef) : Checked Unit :=
  require (p.hasType t.name) t.pos (.invalidType use t)

end Program

/-! ## Expressions -/

/-- The type of an operation on operands of the given types. -/
def BinOp.typeOf (op : BinOp) (pos : Pos) (lhs rhs : Ty) : Checked Ty :=
  if op.isLogical then do
    require (lhs = .bool && rhs = .bool) pos (.logicalNeedsBool op)
    return .bool
  else if op.isEquality then do
    require (lhs = rhs || lhs = .null || rhs = .null) pos (.equalityMismatch op lhs rhs)
    return .bool
  else do
    require (!lhs.isArray && !rhs.isArray) pos (.arrayOperand op)
    require (lhs = rhs) pos (.operandMismatch op lhs rhs)
    match lhs with
    | .null => faultAt pos (.nullOperand op)
    | .array _ => faultAt pos (.arrayOperand op)
    | .one type =>
      if op.isRelational then do
        require (type = .int || type = .double || type = .string) pos (.notOrdered op type)
        return .bool
      else do
        require (type = .int || type = .double || (type = .string && op = .add)) pos
          (.notNumeric op type)
        return .one type

/-- What is wrong with argument number `i`, counted from zero, of a built-in function. -/
def Builtin.rejects? (b : Builtin) (i : Nat) (t : Ty) : Option StaticFault :=
  match b with
  | print | println => if t.isObject then some (.unprintable b.name t) else none
  | readln => none
  | intVal => if t = .int || t.isObject then some (.inconvertible b.name t) else none
  | dblVal => if t = .double || t.isObject then some (.inconvertible b.name t) else none
  | strVal => if t = .string || t.isObject then some (.inconvertible b.name t) else none
  | size => if t.isArray || t = .string then none else some (.sizeOfScalar t)
  | get =>
    if i = 0 then if t = .int then none else some (.getIndexNotInt t)
    else if t.isArray || t = .string then none
    else some (.getFromScalar t)

/-- The type of a call of a built-in function on arguments of the given types. -/
def Builtin.resultType (b : Builtin) (args : List Ty) : Ty :=
  match b, args with
  | print, _ | println, _ => .null
  | readln, _ | strVal, _ => .string
  | size, _ | intVal, _ => .int
  | dblVal, _ => .double
  | get, [_, .array elem] => .one elem
  | get, _ => .string

/-- A judgement on argument number `i`, at a position and of a type. -/
abbrev Judge := Nat → Pos → Ty → Checked Unit

/-- The arguments of a built-in function; faults are reported at its name. -/
def Builtin.judge (b : Builtin) (callee : Name) : Judge := fun i _ t ↦
  match b.rejects? i t with
  | none => .ok ()
  | some f => faultAt callee.pos f

/-- Arguments that must fit the declared types of `wanted`. -/
def judgeAgainst (wanted : List VarDef) (fault : Nat → VarDef → Ty → StaticFault) : Judge :=
  fun i pos t ↦
    match wanted[i]? with
    | none => .ok ()
    | some v => require (t.fits (.ofRef v.type)) pos (fault i v t)

/-- The arguments of a function. -/
def FunDef.judge (f : FunDef) : Judge :=
  judgeAgainst f.params fun i v t ↦ .argumentMismatch (i + 1) f.name.text (.ofRef v.type) t

/-- The arguments of a constructor. -/
def StructDef.judge (s : StructDef) : Judge :=
  judgeAgainst s.fields fun _ v t ↦ .fieldMismatch v.name.text s.name.text (.ofRef v.type) t

/-- The type of a call of a function. -/
def FunDef.resultType (f : FunDef) : Ty :=
  if f.returnType.name = .void then .null else .ofRef f.returnType

/-- The type of a field, for a value of the given type. -/
def Program.fieldType (p : Program) (t : Ty) (field : Name) : Checked Ty :=
  match t with
  | .one (.struct s) =>
    match p.struct? s with
    | none => faultAt field.pos (.unknownStruct s)
    | some d =>
      match d.fields.find? (·.name.text == field.text) with
      | none => faultAt field.pos (.noSuchField s field.text)
      | some v => .ok (.ofRef v.type)
  | t => faultAt field.pos (.fieldOfNonStruct field.text t)

/-- The type of a literal. -/
def Literal.type : Literal → Ty
  | int _ => .int
  | double _ => .double
  | bool _ => .bool
  | str _ => .string
  | null => .null

mutual

/-- The type of an expression. -/
def Expr.typeIn (p : Program) (s : Scopes) : Expr → Checked Ty
  | .lit value _ => .ok value.type
  | .path path => path.typeIn p s
  | .call callee args =>
    match Builtin.ofName? callee.text with
    | some b => do
      require (args.length = b.arity) callee.pos
        (.argumentCount callee.text b.arity args.length)
      return b.resultType (← argTypes p s (b.judge callee) 0 args)
    | none =>
      match p.function? callee.text with
      | none => faultAt callee.pos (.undefinedFunction callee.text)
      | some f => do
        require (args.length = f.params.length) callee.pos
          (.argumentCount callee.text f.params.length args.length)
        let _ ← argTypes p s f.judge 0 args
        return f.resultType
  | .newStruct name args =>
    match p.struct? name.text with
    | none => faultAt name.pos (.unknownStruct name.text)
    | some d => do
      require (args.length = d.fields.length) name.pos
        (.fieldCount name.text d.fields.length args.length)
      let _ ← argTypes p s d.judge 0 args
      return .one (.struct name.text)
  | .newArray elem size => do
    p.checkType .element elem
    let t ← size.typeIn p s
    require (t = .int) size.pos (.sizeNotInt t)
    return .array elem.name
  | .not pos operand => do
    let t ← operand.typeIn p s
    require (t = .bool) pos (.notNeedsBool t)
    return .bool
  | .binary op pos lhs rhs => do
    let l ← lhs.typeIn p s
    let r ← rhs.typeIn p s
    op.typeOf pos l r

/-- The type of what a path names. -/
def Path.typeIn (p : Program) (s : Scopes) : Path → Checked Ty
  | .root name index => do
    match s.lookup name.text with
    | none => faultAt name.pos (.undeclared name.text)
    | some t => indexedType p s name t index
  | .field base name index => do
    let t ← base.typeIn p s
    indexedType p s name (← p.fieldType t name) index

/-- The type behind an index, if there is one, on something of type `t`. -/
def indexedType (p : Program) (s : Scopes) (name : Name) (t : Ty) : Option Expr → Checked Ty
  | none => .ok t
  | some index =>
    match t with
    | .array elem => do
      let i ← index.typeIn p s
      require (i = .int) index.pos (.indexNotInt i)
      return .one elem
    | t => faultAt name.pos (.notAnArray name.text t)

/-- The types of arguments from number `i` on, each judged before the next is typed. -/
def argTypes (p : Program) (s : Scopes) (judge : Judge) (i : Nat) :
    List Expr → Checked (List Ty)
  | [] => .ok []
  | arg :: args => do
    let t ← arg.typeIn p s
    judge i arg.pos t
    return t :: (← argTypes p s judge (i + 1) args)

end

/-! ## Statements -/

/-- A condition must be a truth value. -/
def checkCondition (p : Program) (s : Scopes) (cond : Expr) : Checked Unit := do
  let t ← cond.typeIn p s
  require (t = .bool) cond.pos (.conditionNotBool t)

/-- An end of a counting loop must be an integer. -/
def checkBound (p : Program) (s : Scopes) (bound : LoopBound) (e : Expr) : Checked Unit := do
  let t ← e.typeIn p s
  require (t = .int) e.pos (.boundNotInt bound t)

/-- The type a `var` statement gives its name. -/
def varType (p : Program) (s : Scopes) (name : Name) :
    Option TypeRef → Option Expr → Checked Ty
  | some type, none => do
    p.checkType .binding type
    return .ofRef type
  | some type, some init => do
    p.checkType .binding type
    let t ← init.typeIn p s
    require (t.fits (.ofRef type)) init.pos (.variableMismatch (.ofRef type) t)
    return .ofRef type
  | none, some init => do
    let t ← init.typeIn p s
    require (t ≠ .null) name.pos (.untypedNull name.text)
    return t
  | none, none => faultAt name.pos (.untypedVariable name.text)

/-- A returned value must fit the return type; `null` always does. -/
def checkReturn (result : TypeRef) (pos : Pos) (t : Ty) : Checked Unit :=
  if t = .null then .ok ()
  else do
    require (result.name ≠ .void) pos .valueFromVoid
    require (t = .ofRef result) pos (.returnMismatch (.ofRef result) t)

mutual

/-- Checks a statement of a function with return type `result`, and answers the scopes after
it. -/
def Stmt.check (p : Program) (result : TypeRef) (s : Scopes) : Stmt → Checked Scopes
  | .var name type init => do
    require (!s.declaredHere name.text) name.pos (.variableRepeated name.text)
    return s.declare name.text (← varType p s name type init)
  | .assign target value => do
    let wanted ← target.typeIn p s
    let t ← value.typeIn p s
    require (t.fits wanted) value.pos (.assignMismatch wanted t)
    return s
  | .ret pos value => do
    checkReturn result pos (← value.typeIn p s)
    return s
  | .whileLoop cond body => do
    checkCondition p s cond
    return (← checkBlock p result s.push body).pop
  | .forLoop var first last body => do
    let inner := s.push
    checkBound p inner .first first
    let inner := inner.declare var.text .int
    checkBound p inner .last last
    return (← checkBlock p result inner body).pop
  | .ifElse cond body other => do
    checkCondition p s cond
    let s := (← checkBlock p result s.push body).pop
    other.check p result s
  | .call callee args => do
    let _ ← (Expr.call callee args).typeIn p s
    return s

/-- Checks what follows a branch of an `if`. -/
def Else.check (p : Program) (result : TypeRef) (s : Scopes) : Else → Checked Scopes
  | .none => .ok s
  | .block body => do
    return (← checkBlock p result s.push body).pop
  | .elseIf cond body other => do
    checkCondition p s cond
    let s := (← checkBlock p result s.push body).pop
    other.check p result s

/-- Checks statements one after the other. -/
def checkBlock (p : Program) (result : TypeRef) (s : Scopes) : List Stmt → Checked Scopes
  | [] => .ok s
  | stmt :: stmts => do
    let s ← stmt.check p result s
    checkBlock p result s stmts

end

/-! ## Definitions -/

/-- The fields of a struct have different names and types that exist. -/
def checkFields (p : Program) (seen : List String) : List VarDef → Checked Unit
  | [] => .ok ()
  | v :: vs => do
    require (!seen.contains v.name.text) v.name.pos (.fieldRepeated v.name.text)
    p.checkType .field v.type
    checkFields p (v.name.text :: seen) vs

/-- The parameters of a function, declared in order. -/
def checkParams (p : Program) (s : Scopes) : List VarDef → Checked Scopes
  | [] => .ok s
  | v :: vs => do
    p.checkType .parameter v.type
    require (!s.declaredHere v.name.text) v.name.pos (.parameterRepeated v.name.text)
    checkParams p (s.declare v.name.text (.ofRef v.type)) vs

/-- The main function takes nothing and returns nothing. -/
def FunDef.checkMain (f : FunDef) : Checked Unit :=
  if f.name.text = "main" then do
    require (f.returnType.name = .void) f.name.pos .mainReturnsValue
    require f.params.isEmpty f.name.pos .mainTakesParameters
  else .ok ()

def FunDef.check (p : Program) (f : FunDef) : Checked Unit := do
  if f.returnType.name ≠ .void then p.checkType .result f.returnType
  f.checkMain
  let s ← checkParams p Scopes.empty.push f.params
  let _ ← checkBlock p f.returnType s f.body

/-- No two structs have one name. -/
def checkStructNames (seen : List String) : List StructDef → Checked Unit
  | [] => .ok ()
  | d :: ds => do
    require (!seen.contains d.name.text) d.name.pos (.structRepeated d.name.text)
    checkStructNames (d.name.text :: seen) ds

/-- No two functions have one name, and none has that of a built-in function. -/
def checkFunctionNames (seen : List String) : List FunDef → Checked Unit
  | [] => .ok ()
  | f :: fs => do
    require (Builtin.ofName? f.name.text).isNone f.name.pos (.builtinRedefined f.name.text)
    require (!seen.contains f.name.text) f.name.pos (.functionRepeated f.name.text)
    checkFunctionNames (f.name.text :: seen) fs

/-- Checks a program. -/
def Program.check (p : Program) : Checked Unit := do
  checkStructNames [] p.structs
  checkFunctionNames [] p.functions
  if (p.function? "main").isNone then throw ⟨none, .noMain⟩
  p.structs.forM fun d ↦ checkFields p [] d.fields
  p.functions.forM fun f ↦ f.check p

end Pebble
