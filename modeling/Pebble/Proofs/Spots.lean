import Pebble.Proofs.Scoping
import Pebble.Proofs.Succeeding

/-!
# What is known statically at each instruction

Generated code is flat, but each of its instructions stands at one place of the program, where
certain names are in scope and certain operands wait on the stack. A *spot* records both: the
scopes with their types, as the checker has them at that place, and the operands that the function
has pushed and not yet used, each with its static type. `FunDef.spots` gives the spots of the code
of a function, one for each instruction, in the order of the code.

The types are those that the checker gives to the expressions. The definitions follow the order of
evaluation, so that the spots of an expression are the spots of its parts, each with the results
of the parts before it pending.
-/

namespace Pebble

/-- An operand that waits on the stack. -/
inductive Pending where
  /-- The value of an expression of this static type. -/
  | val (t : Ty)
  /-- A record under construction whose first `count` fields are set. -/
  | record (d : StructDef) (count : Nat)
  /-- A second reference to the record below it. -/
  | copy

/-- A place in the code of a function. -/
structure Spot where
  /-- The names in scope. -/
  scopes : Scopes
  /-- The pending operands of the function, the top first. -/
  pending : List Pending

/-- The static type of an expression that has one. -/
def Expr.ty (p : Program) (s : Scopes) (e : Expr) : Ty := okOr .null (e.typeIn p s)

/-- The static type of what a path names. -/
def Path.ty (p : Program) (s : Scopes) (path : Path) : Ty := okOr .null (path.typeIn p s)

/-- The type of a field of a value of type `t`. -/
def Program.fieldTy (p : Program) (t : Ty) (field : Name) : Ty := okOr .null (p.fieldType t field)

/-- The declared type of a name. -/
def Scopes.ty (s : Scopes) (x : Name) : Ty := (s.lookup x.text).getD .null

/-- Arguments on the stack, the first on top. -/
def pendingArgs (p : Program) (s : Scopes) (args : List Expr) : List Pending :=
  args.map fun a ↦ .val (a.ty p s)

/-- A record with its first `count` fields set, which is a value once it has all of them. -/
def Pending.built (d : StructDef) (count : Nat) : Pending :=
  if count = d.fields.length then .val (.one (.struct d.name.text)) else .record d count

/-! ## Expressions -/

/-- The spots of what a built-in function does. -/
def Builtin.actionSpots (b : Builtin) (s : Scopes) (args ps : List Pending) : List Spot :=
  match b with
  | println => [⟨s, args ++ ps⟩, ⟨s, ps⟩, ⟨s, .val .string :: ps⟩]
  | _ => [⟨s, args ++ ps⟩]

/-- The spots of a call of a built-in function, its arguments being on the stack. -/
def Builtin.spots (b : Builtin) (s : Scopes) (args ps : List Pending) : List Spot :=
  b.actionSpots s args ps ++ (if b.hasResult then [] else [⟨s, ps⟩])

mutual

/-- The spots of the code of an expression before which `ps` are pending. -/
def Expr.spots (p : Program) (s : Scopes) (ps : List Pending) : Expr → List Spot
  | .lit _ _ => [⟨s, ps⟩]
  | .path path => path.spots p s ps
  | .call callee args =>
    argsSpots p s ps args ++
      match Builtin.ofName? callee.text with
      | some b => b.spots s (pendingArgs p s args) ps
      | none => [⟨s, pendingArgs p s args ++ ps⟩]
  | .newStruct name args =>
    ⟨s, ps⟩ ::
      match p.struct? name.text with
      | none => []
      | some d => fieldsSpots p s ps d 0 args
  | .newArray _ size => size.spots p s ps ++ [⟨s, .val (size.ty p s) :: ps⟩]
  | .not _ operand => operand.spots p s ps ++ [⟨s, .val (operand.ty p s) :: ps⟩]
  | .binary op _ lhs rhs =>
    if op.isSwapped then
      rhs.spots p s ps ++ lhs.spots p s (.val (rhs.ty p s) :: ps) ++
        [⟨s, .val (lhs.ty p s) :: .val (rhs.ty p s) :: ps⟩]
    else
      lhs.spots p s ps ++ rhs.spots p s (.val (lhs.ty p s) :: ps) ++
        [⟨s, .val (rhs.ty p s) :: .val (lhs.ty p s) :: ps⟩]

/-- The spots of code that loads what a path names. -/
def Path.spots (p : Program) (s : Scopes) (ps : List Pending) : Path → List Spot
  | .root name index => ⟨s, ps⟩ :: indexSpots p s (.val (s.ty name) :: ps) index
  | .field base name index =>
    base.spots p s ps ++ ⟨s, .val (base.ty p s) :: ps⟩ ::
      indexSpots p s (.val (p.fieldTy (base.ty p s) name) :: ps) index

/-- The spots of code that takes an item out of the array on the stack, if there is an index. -/
def indexSpots (p : Program) (s : Scopes) (ps : List Pending) : Option Expr → List Spot
  | none => []
  | some index => index.spots p s ps ++ [⟨s, .val (index.ty p s) :: ps⟩]

/-- The spots of code for arguments, the last of which is evaluated first. -/
def argsSpots (p : Program) (s : Scopes) (ps : List Pending) : List Expr → List Spot
  | [] => []
  | arg :: args => argsSpots p s ps args ++ arg.spots p s (pendingArgs p s args ++ ps)

/-- The spots of code for the constructor arguments from number `n` on. -/
def fieldsSpots (p : Program) (s : Scopes) (ps : List Pending) (d : StructDef) (n : Nat) :
    List Expr → List Spot
  | [] => []
  | arg :: args =>
    ⟨s, .record d n :: ps⟩ :: arg.spots p s (.copy :: .record d n :: ps) ++
      ⟨s, .val (arg.ty p s) :: .copy :: .record d n :: ps⟩ :: fieldsSpots p s ps d (n + 1) args

end

/-! ## Statements -/

/-- The spots of an assignment. -/
def assignSpots (p : Program) (s : Scopes) (value : Expr) : Path → List Spot
  | .root _ none => value.spots p s [] ++ [⟨s, [.val (value.ty p s)]⟩]
  | .root name (some index) =>
    ⟨s, []⟩ :: index.spots p s [.val (s.ty name)] ++
      value.spots p s [.val (index.ty p s), .val (s.ty name)] ++
      [⟨s, [.val (value.ty p s), .val (index.ty p s), .val (s.ty name)]⟩]
  | .field base _ none =>
    base.spots p s [] ++ value.spots p s [.val (base.ty p s)] ++
      [⟨s, [.val (value.ty p s), .val (base.ty p s)]⟩]
  | .field base name (some index) =>
    let array := Pending.val (p.fieldTy (base.ty p s) name)
    base.spots p s [] ++ ⟨s, [.val (base.ty p s)]⟩ :: index.spots p s [array] ++
      value.spots p s [.val (index.ty p s), array] ++
      [⟨s, [.val (value.ty p s), .val (index.ty p s), array]⟩]

/-- The spots of a call whose result is not wanted. -/
def callSpots (p : Program) (s : Scopes) (callee : Name) (args : List Expr) : List Spot :=
  if Builtin.ofName? callee.text = some .print then
    argsSpots p s [] args ++ Builtin.print.actionSpots s (pendingArgs p s args) []
  else
    (Expr.call callee args).spots p s [] ++ [⟨s, [.val ((Expr.call callee args).ty p s)]⟩]

/-- The scopes after a statement: only `var` changes them. -/
def Stmt.scopesAfter (p : Program) (s : Scopes) : Stmt → Scopes
  | .var name type init => s.declare name.text (okOr .null (varType p s name type init))
  | _ => s

/-- The scopes after some statements. -/
def scopesAfterAll (p : Program) (s : Scopes) : List Stmt → Scopes
  | [] => s
  | stmt :: stmts => scopesAfterAll p (stmt.scopesAfter p s) stmts

mutual

/-- The spots of a statement. -/
def Stmt.spots (p : Program) (s : Scopes) : Stmt → List Spot
  | .var _ _ init =>
    match init with
    | none => [⟨s, []⟩, ⟨s, [.val .null]⟩]
    | some e => e.spots p s [] ++ [⟨s, [.val (e.ty p s)]⟩]
  | .assign target value => assignSpots p s value target
  | .ret _ value => value.spots p s [] ++ [⟨s, [.val (value.ty p s)]⟩]
  | .whileLoop cond body =>
    cond.spots p s [] ++ ⟨s, [.val .bool]⟩ :: blockSpots p s.push body ++ [⟨s, []⟩]
  | .forLoop var first last body =>
    let inner := s.push.declare var.text .int
    first.spots p s.push [] ++ ⟨s.push, [.val .int]⟩ ::
      ⟨inner, []⟩ :: last.spots p inner [.val .int] ++ ⟨inner, [.val .int, .val .int]⟩ ::
      ⟨inner, [.val .bool]⟩ :: blockSpots p inner body ++
      [⟨inner, []⟩, ⟨inner, [.val .int]⟩, ⟨inner, [.val .int, .val .int]⟩, ⟨inner, [.val .int]⟩,
        ⟨inner, []⟩]
  | .ifElse cond body other =>
    cond.spots p s [] ++ ⟨s, [.val .bool]⟩ :: blockSpots p s.push body ++
      ⟨s, []⟩ :: other.spots p s
  | .call callee args => callSpots p s callee args

/-- The spots of what follows a branch of an `if`. -/
def Else.spots (p : Program) (s : Scopes) : Else → List Spot
  | .none => []
  | .block body => blockSpots p s.push body
  | .elseIf cond body other =>
    cond.spots p s [] ++ ⟨s, [.val .bool]⟩ :: blockSpots p s.push body ++
      ⟨s, []⟩ :: other.spots p s

/-- The spots of statements one after the other. -/
def blockSpots (p : Program) (s : Scopes) : List Stmt → List Spot
  | [] => []
  | stmt :: stmts => stmt.spots p s ++ blockSpots p (stmt.scopesAfter p s) stmts

end

/-! ## Functions -/

/-- Parameters, as the caller leaves them on the stack. -/
def pendingParams (params : List VarDef) : List Pending :=
  params.map fun v ↦ .val (.ofRef v.type)

/-- The scopes in which the parameters have been declared. -/
def paramScopes (s : Scopes) : List VarDef → Scopes
  | [] => s
  | v :: vs => paramScopes (s.declare v.name.text (.ofRef v.type)) vs

/-- The spots of the code that stores the parameters. -/
def paramSpots (s : Scopes) : List VarDef → List Spot
  | [] => []
  | v :: vs =>
    ⟨s, pendingParams (v :: vs)⟩ :: paramSpots (s.declare v.name.text (.ofRef v.type)) vs

/-- The spots of a function. The last two are those of the return that is added to code whose end
can be reached. -/
def FunDef.spots (p : Program) (f : FunDef) : List Spot :=
  let s := paramScopes Scopes.empty.push f.params
  let last := scopesAfterAll p s f.body
  paramSpots Scopes.empty.push f.params ++ blockSpots p s f.body ++
    [⟨last, []⟩, ⟨last, [.val .null]⟩]

end Pebble
