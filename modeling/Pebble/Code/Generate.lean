import Pebble.Code
import Pebble.Code.Slots
import Pebble.Typing

/-!
# Generating code

Turns a program into one template per function.

## The construction

Code is put together from the code of the parts. Expressions contain no jumps, so their code does
not depend on where it stands; the code of a statement is generated for the index it will stand
at, and the targets of its jumps follow from the lengths of its parts.

Operands are evaluated from left to right, except that `a > b` is computed as `b < a` and
`a >= b` as `b <= a`. Arguments are evaluated from the last to the first, so that the callee finds
the first one on top of the stack.
-/

namespace Pebble

/-- The outcome of generating code. -/
abbrev Generated (α : Type) := Except CodeError α

/-- The slot of a variable. -/
def SlotTable.slotOf (t : SlotTable) (x : Name) : Generated Nat :=
  match t.slot? x.text with
  | none => .error (.undeclaredVariable x.text x.pos)
  | some slot => .ok slot

/-! ## Expressions -/

/-- The operation of an operator, once its operands are on the stack. -/
def BinOp.code : BinOp → Op
  | add => .arith .add
  | sub => .arith .sub
  | mul => .arith .mul
  | div => .arith .div
  | and => .logic .and
  | or => .logic .or
  | eq => .equal
  | ne => .unequal
  | lt | gt => .order .lt
  | le | ge => .order .le

/-- Whether the right operand is evaluated first. -/
def BinOp.isSwapped : BinOp → Bool
  | gt | ge => true
  | _ => false

/-- What a built-in function does with its arguments, without leaving a result for those that
have none. -/
def Builtin.action : Builtin → List Instr
  | print => [.noted .write "print"]
  | println => [.noted .write "println", .plain (.push (.str "\n")), .plain .write]
  | readln => [.noted .read "readln"]
  | size => [.noted .size "size"]
  | get => [.noted .element "get"]
  | intVal => [.noted (.convert .int) "int_val"]
  | dblVal => [.noted (.convert .double) "dbl_val"]
  | strVal => [.noted (.convert .string) "str_val"]

/-- Whether a built-in function has a result of its own. -/
def Builtin.hasResult : Builtin → Bool
  | print | println => false
  | _ => true

/-- A call of a built-in function for its result, which is `null` if it has none. -/
def Builtin.code (b : Builtin) : List Instr :=
  b.action ++ (if b.hasResult then [] else [.plain (.push .null)])

/-- A built-in function must have the right number of arguments. -/
def Builtin.requireArity (b : Builtin) (callee : Name) (found : Nat) : Generated Unit :=
  if found = b.arity then .ok ()
  else .error (.builtinArity callee.text b.arity found callee.pos)

/-- The names of the fields of a struct. -/
def Program.fieldsOf (p : Program) (x : Name) : Generated (List String) :=
  match p.structs.reverse.find? (·.name.text == x.text) with
  | none => .error (.unknownStruct x.text x.pos)
  | some d => .ok (d.fields.map (·.name.text))

mutual

/-- Code that leaves the value of an expression on the stack. -/
def Expr.code (p : Program) (t : SlotTable) : Expr → Generated (List Instr)
  | .lit value _ => .ok [.plain (.push (.ofLiteral value))]
  | .path path => path.code p t
  | .call callee args =>
    match Builtin.ofName? callee.text with
    | some b => do
      b.requireArity callee args.length
      return (← argsCode p t args) ++ b.code
    | none => do
      return (← argsCode p t args) ++
        [.noted (.call callee.text) ("call " ++ callee.text)]
  | .newStruct name args => do
    let fields ← p.fieldsOf name
    if fields.length ≠ args.length then
      throw (.fieldCount name.text fields.length args.length)
    return .noted .newRecord ("new " ++ name.text) :: (← fieldsCode p t fields args)
  | .newArray elem size => do
    return (← size.code p t) ++ [.noted .newArray ("new " ++ elem.name.text ++ "[...]")]
  | .not _ operand => do
    return (← operand.code p t) ++ [.plain .not]
  | .binary op _ lhs rhs =>
    if op.isSwapped then do
      let r ← rhs.code p t
      let l ← lhs.code p t
      return r ++ l ++ [.plain op.code]
    else do
      let l ← lhs.code p t
      let r ← rhs.code p t
      return l ++ r ++ [.plain op.code]

/-- Code that leaves what a path names on the stack. -/
def Path.code (p : Program) (t : SlotTable) : Path → Generated (List Instr)
  | .root name index => do
    let slot ← t.slotOf name
    return .noted (.load slot) name.text :: (← indexCode p t index)
  | .field base name index => do
    let b ← base.code p t
    return b ++ .plain (.getField name.text) :: (← indexCode p t index)

/-- Code that replaces an array on the stack by one of its items, if there is an index. -/
def indexCode (p : Program) (t : SlotTable) : Option Expr → Generated (List Instr)
  | none => .ok []
  | some index => do
    return (← index.code p t) ++ [.plain .getItem]

/-- Code that leaves arguments on the stack, the first one on top. -/
def argsCode (p : Program) (t : SlotTable) : List Expr → Generated (List Instr)
  | [] => .ok []
  | arg :: args => do
    let later ← argsCode p t args
    return later ++ (← arg.code p t)

/-- Code that sets the fields of the record on the stack and leaves it there. -/
def fieldsCode (p : Program) (t : SlotTable) :
    List String → List Expr → Generated (List Instr)
  | field :: fields, arg :: args => do
    let first := .plain .dup :: (← arg.code p t) ++ [.plain (.setField field)]
    return first ++ (← fieldsCode p t fields args)
  | _, _ => .ok []

end

/-! ## Statements -/

/-- Code that stores the value of an expression where a path says. -/
def assignCode (p : Program) (t : SlotTable) (value : Expr) : Path → Generated (List Instr)
  | .root name none => do
    let slot ← t.slotOf name
    return (← value.code p t) ++ [.noted (.store slot) (name.text ++ " =")]
  | .root name (some index) => do
    let slot ← t.slotOf name
    let i ← index.code p t
    let v ← value.code p t
    return .noted (.load slot) (name.text ++ "[...] =") :: i ++ v ++ [.plain .setItem]
  | .field base name none => do
    let b ← base.code p t
    let v ← value.code p t
    return b ++ v ++ [.noted (.setField name.text) ("." ++ name.text ++ " =")]
  | .field base name (some index) => do
    let b ← base.code p t
    let i ← index.code p t
    let v ← value.code p t
    return b ++ .noted (.getField name.text) (name.text ++ "[...] =") :: i ++ v ++
      [.plain .setItem]

/-- Code of a call whose result is not wanted. -/
def callCode (p : Program) (t : SlotTable) (callee : Name) (args : List Expr) :
    Generated (List Instr) :=
  if Builtin.ofName? callee.text = some .print then do
    Builtin.requireArity .print callee args.length
    return (← argsCode p t args) ++ Builtin.print.action
  else do
    return (← (Expr.call callee args).code p t) ++
      [.noted .pop ("discard " ++ callee.text ++ "()")]

/-- The branch of an `if` at `at_`: a condition, a body, and a jump behind the rest. -/
def branchCode (at_ : Nat) (note : String) (cond body rest : List Instr) : List Instr :=
  let next := at_ + cond.length + 1 + body.length + 1
  cond ++ .noted (.jumpUnless next) note :: body ++
    .noted (.jump (next + rest.length : Nat)) "end if" :: rest

/-- Where the body of a branch at `at_` begins. -/
def bodyAt (at_ : Nat) (cond : List Instr) : Nat :=
  at_ + cond.length + 1

mutual

/-- Code of a statement that will stand at index `at_`, and the variables after it. -/
def Stmt.code (p : Program) (t : SlotTable) (at_ : Nat) :
    Stmt → Generated (List Instr × SlotTable)
  | .var name _ init => do
    let v ← match init with
      | none => pure [.plain (.push .null)]
      | some e => e.code p t
    return (v ++ [.noted (.store t.next) ("var " ++ name.text)], t.declare name.text)
  | .assign target value => do
    return (← assignCode p t value target, t)
  | .ret _ value => do
    return ((← value.code p t) ++ [.noted .ret "return"], t)
  | .whileLoop cond body => do
    let c ← cond.code p t
    let (b, t') ← blockCode p t.push (bodyAt at_ c) body
    let exit := bodyAt at_ c + b.length + 1
    return (c ++ .noted (.jumpUnless exit) "while" :: b ++ [.noted (.jump at_) "loop"], t'.pop)
  | .forLoop var first last body => do
    let outer := t.push
    let a ← first.code p outer
    let slot := outer.next
    let inner := outer.declare var.text
    let start := at_ + a.length + 1
    let l ← last.code p inner
    let test := .plain (.load slot) :: l ++ [.plain (.order .le)]
    let (b, t') ← blockCode p inner (bodyAt start test) body
    let exit := bodyAt start test + b.length + 5
    return (a ++ .noted (.store slot) ("for " ++ var.text) :: test ++
      .noted (.jumpUnless exit) "for exit" :: b ++
      [.plain (.load slot), .plain (.push (.int 1)), .plain (.arith .add),
        .noted (.store slot) (var.text ++ " += 1"), .noted (.jump start) "loop"], t'.pop)
  | .ifElse cond body other => do
    let c ← cond.code p t
    let (b, t') ← blockCode p t.push (bodyAt at_ c) body
    let (rest, t'') ← other.code p t'.pop (bodyAt at_ c + b.length + 1)
    return (branchCode at_ "if" c b rest, t'')
  | .call callee args => do
    return (← callCode p t callee args, t)

/-- Code of what follows a branch of an `if`. -/
def Else.code (p : Program) (t : SlotTable) (at_ : Nat) :
    Else → Generated (List Instr × SlotTable)
  | .none => .ok ([], t)
  | .block body => do
    let (b, t') ← blockCode p t.push at_ body
    return (b, t'.pop)
  | .elseIf cond body other => do
    let c ← cond.code p t
    let (b, t') ← blockCode p t.push (bodyAt at_ c) body
    let (rest, t'') ← other.code p t'.pop (bodyAt at_ c + b.length + 1)
    return (branchCode at_ "else if" c b rest, t'')

/-- Code of statements one after the other. -/
def blockCode (p : Program) (t : SlotTable) (at_ : Nat) :
    List Stmt → Generated (List Instr × SlotTable)
  | [] => .ok ([], t)
  | stmt :: stmts => do
    let (first, t) ← stmt.code p t at_
    let (rest, t) ← blockCode p t (at_ + first.length) stmts
    return (first ++ rest, t)

end

/-! ## Functions -/

/-- Code that moves the arguments from the stack to the first slots, and the variables then. -/
def paramsCode (t : SlotTable) : List VarDef → List Instr × SlotTable
  | [] => ([], t)
  | v :: vs =>
    let (rest, t') := paramsCode (t.declare v.name.text) vs
    (.noted (.store t.next) ("param " ++ v.name.text) :: rest, t')

/-- Whether running the code can reach its end: it does not end in a return, or a jump goes
behind it. -/
def reachesEnd (code : List Instr) : Bool :=
  code.getLast?.map (·.op) ≠ some .ret ||
    code.any fun i ↦ i.op.target? = some (code.length : Int)

/-- Code with a return of `null` where its end can be reached. -/
def withReturn (code : List Instr) : List Instr :=
  if reachesEnd code then
    code ++ [.noted (.push .null) "implicit return", .plain .ret]
  else code

/-- The template of a function. -/
def FunDef.code (p : Program) (f : FunDef) : Generated Template := do
  let (params, t) := paramsCode SlotTable.empty.push f.params
  let (body, _) ← blockCode p t params.length f.body
  let code := params ++ body
  if code.any fun i ↦ (i.op.target?.getD 0) > Template.maxTarget then throw .jumpTooFar
  return ⟨f.name.text, (withReturn code).toArray⟩

/-- The templates of a program, one per function in order. -/
def Program.code (p : Program) : Generated (List Template) :=
  p.functions.mapM (FunDef.code p)

end Pebble
