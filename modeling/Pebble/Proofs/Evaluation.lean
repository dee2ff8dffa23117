import Pebble.Proofs.Acting
import Pebble.Syntax
import Pebble.Typing.Check

/-!
# Evaluating programs as trees

The meaning of a program, told on its tree: expressions have values, statements change variables,
and all of them act on the world. Nothing here speaks of code, frames or slots.

## The construction

Operands are evaluated from left to right, but those of `>` and `>=` from right to left, and `and`
and `or` evaluate both. Arguments are evaluated from the last to the first. A `new` allocates the
record before it evaluates and sets the fields, in the order of the struct. Assignments evaluate
the path up to its last step, then the index, then the value.

Variables live in nested scopes. A loop may go on for ever, and so may calls, so evaluation is
given fuel: it bounds the rounds of every loop and the depth of the calls. Running out of fuel is
no outcome at all. A fault is an outcome, and it stops the evaluation where it happens.

A checked program declares the variables it uses and calls functions with as many arguments as
they have parameters. What is said here about other programs has no meaning.
-/

namespace Pebble

/-- A computation on the world. Its outcome is an answer or a fault; there is none if it does not
come to an end with the fuel it has. -/
@[ext] structure Eval (α : Type) where
  run : World → Option (EStateM.Result Fault World α)

namespace Eval

/-- A computation without an outcome. -/
def exhausted {α : Type} : Eval α := ⟨fun _ ↦ none⟩

instance : Monad Eval where
  pure a := ⟨fun w ↦ some (.ok a w)⟩
  bind x f := ⟨fun w ↦
    match x.run w with
    | none => none
    | some (.ok a w) => (f a).run w
    | some (.error e w) => some (.error e w)⟩

theorem run_bind {α β : Type} (x : Eval α) (f : α → Eval β) (w : World) :
    (x >>= f).run w = match x.run w with
      | none => none
      | some (.ok a w) => (f a).run w
      | some (.error e w) => some (.error e w) := rfl

instance : LawfulMonad Eval := by
  refine .mk' Eval (fun x ↦ ?_) (fun _ _ ↦ rfl) (fun x f g ↦ ?_)
  · ext1
    funext w
    show (x >>= fun a ↦ pure a).run w = x.run w
    rw [run_bind]
    rcases x.run w with _ | _ | _ <;> rfl
  · ext1
    funext w
    rw [run_bind, run_bind, run_bind]
    rcases x.run w with _ | _ | _ <;> rfl

instance : MonadLift Act Eval where
  monadLift act := ⟨fun w ↦ some (act w)⟩

/-- A computation that answers has answered in both its parts. -/
theorem bind_eq_ok {α β : Type} {x : Eval α} {f : α → Eval β} {b : β} {w w' : World}
    (h : (x >>= f).run w = some (.ok b w')) :
    ∃ a w₁, x.run w = some (.ok a w₁) ∧ (f a).run w₁ = some (.ok b w') := by
  rw [run_bind] at h
  cases hr : x.run w with
  | none =>
    rw [hr] at h
    cases h
  | some r =>
    rw [hr] at h
    cases r with
    | ok a w₁ => exact ⟨a, w₁, rfl, h⟩
    | error e w₁ => cases h

end Eval

/-! ## Variables -/

/-- Variables and their values, the innermost scope first and the last variable of a scope
first. -/
abbrev Env := List (List (String × Value))

namespace Env

/-- The value of the innermost variable of a name. -/
def lookup (env : Env) (x : String) : Value :=
  (env.findSome? (·.lookup x)).getD .null

/-- Opens a scope. -/
def enter (env : Env) : Env := [] :: env

/-- Closes the innermost scope. -/
def leave (env : Env) : Env := env.tail

/-- Adds a variable to the innermost scope. -/
def declare (x : String) (v : Value) : Env → Env
  | [] => [[(x, v)]]
  | scope :: outer => ((x, v) :: scope) :: outer

/-- Sets the last variable of a name in a scope, if there is one. -/
def setIn? (x : String) (v : Value) : List (String × Value) → Option (List (String × Value))
  | [] => none
  | (y, u) :: scope =>
    if y = x then some ((y, v) :: scope) else (setIn? x v scope).map ((y, u) :: ·)

/-- Sets the innermost variable of a name. -/
def set (x : String) (v : Value) : Env → Env
  | [] => []
  | scope :: outer =>
    match setIn? x v scope with
    | some scope => scope :: outer
    | none => scope :: set x v outer

end Env

/-! ## Operators and built-in functions -/

def Act.arith (o : ArithOp) (lhs rhs : Value) : Act Value := lift (o.apply lhs rhs)

def Act.order (o : OrderOp) (lhs rhs : Value) : Act Bool := lift (o.apply lhs rhs)

def Act.convert (c : Conversion) (v : Value) : Act Value := lift (c.apply v)

open Act in
/-- The result of an operator. -/
def BinOp.apply (lhs rhs : Value) : BinOp → Act Value
  | add => arith .add lhs rhs
  | sub => arith .sub lhs rhs
  | mul => arith .mul lhs rhs
  | div => arith .div lhs rhs
  | and => logic .and lhs rhs
  | or => logic .or lhs rhs
  | eq => return .bool (lhs.equal rhs)
  | ne => return .bool !(lhs.equal rhs)
  | lt => return .bool (← order .lt lhs rhs)
  | le => return .bool (← order .le lhs rhs)
  | gt => return .bool (← order .lt rhs lhs)
  | ge => return .bool (← order .le rhs lhs)

open Act in
/-- The result of a built-in function. -/
def Builtin.apply : Builtin → List Value → Eval Value
  | print, [v] => do
    write v.text
    return .null
  | println, [v] => do
    write v.text
    write "\n"
    return .null
  | readln, [] => readLine
  | size, [v] => Act.size v
  | get, [index, container] => element container index
  | intVal, [v] => convert .int v
  | dblVal, [v] => convert .double v
  | strVal, [v] => convert .string v
  | _, _ => return .null

/-! ## Expressions -/

section
variable (p : Program) (call : String → List Value → Eval Value)

mutual

/-- The value of an expression, where `call` answers calls of functions. -/
def Expr.eval (env : Env) : Expr → Eval Value
  | .lit value _ => return .ofLiteral value
  | .path path => path.eval env
  | .call callee args => do
    let vs ← evalArgs env args
    match Builtin.ofName? callee.text with
    | some b => b.apply vs
    | none => call callee.text vs
  | .newStruct name args => do
    let record ← Act.allocate (.record [])
    evalFields env record (((p.struct? name.text).map (·.fields)).getD []) args
    return record
  | .newArray _ size => do
    Act.buildArray (← size.eval env)
  | .not _ operand => do
    Act.not (← operand.eval env)
  | .binary op _ lhs rhs =>
    match op with
    | .gt | .ge => do
      let r ← rhs.eval env
      let l ← lhs.eval env
      op.apply l r
    | _ => do
      let l ← lhs.eval env
      let r ← rhs.eval env
      op.apply l r

/-- What a path names. -/
def Path.eval (env : Env) : Path → Eval Value
  | .root name index => evalIndex env (env.lookup name.text) index
  | .field base name index => do
    let record ← base.eval env
    let v ← Act.getField name.text record
    evalIndex env v index

/-- A value, or the item of it at an index. -/
def evalIndex (env : Env) (v : Value) : Option Expr → Eval Value
  | none => return v
  | some index => do
    let i ← index.eval env
    Act.getItem v i

/-- The values of arguments. The last one is evaluated first. -/
def evalArgs (env : Env) : List Expr → Eval (List Value)
  | [] => return []
  | arg :: args => do
    let later ← evalArgs env args
    let v ← arg.eval env
    return v :: later

/-- Sets the fields of a record, one after the other. -/
def evalFields (env : Env) (record : Value) : List VarDef → List Expr → Eval Unit
  | field :: fields, arg :: args => do
    let v ← arg.eval env
    Act.setField field.name.text record v
    evalFields env record fields args
  | _, _ => return ()

end

/-- Whether a condition holds. -/
def evalCondition (env : Env) (cond : Expr) : Eval Bool := do
  let v ← cond.eval p call env
  Act.asBool (.jumpUnless 0) v

/-- Whether a variable is at most the value of an expression. -/
def evalWithin (env : Env) (x : String) (last : Expr) : Eval Bool := do
  let bound ← last.eval p call env
  Act.order .le (env.lookup x) bound

/-- The value a variable begins with. -/
def evalInit (env : Env) : Option Expr → Eval Value
  | none => return .null
  | some init => init.eval p call env

/-- Stores the value of an expression where a path says, and answers the variables then. -/
def evalAssign (env : Env) (value : Expr) : Path → Eval Env
  | .root name none => do
    let v ← value.eval p call env
    return env.set name.text v
  | .root name (some index) => do
    let i ← index.eval p call env
    let v ← value.eval p call env
    Act.setItem (env.lookup name.text) i v
    return env
  | .field base name none => do
    let record ← base.eval p call env
    let v ← value.eval p call env
    Act.setField name.text record v
    return env
  | .field base name (some index) => do
    let record ← base.eval p call env
    let array ← Act.getField name.text record
    let i ← index.eval p call env
    let v ← value.eval p call env
    Act.setItem array i v
    return env

/-! ## Statements -/

/-- Where a statement leads: on to the next one, or out of the function. -/
inductive Flow where
  | next (env : Env)
  | returned (v : Value)

/-- Goes on, unless the function has been left. -/
def Flow.andThen (f : Env → Eval Flow) : Flow → Eval Flow
  | next env => f env
  | returned v => return .returned v

/-- Does something in a scope of its own. -/
def inScope (x : Env → Eval Flow) (env : Env) : Eval Flow := do
  let flow ← x env.enter
  flow.andThen fun env ↦ return .next env.leave

/-- Adds one to a variable. -/
def countUp (x : String) (env : Env) : Eval Flow := do
  let v ← Act.arith .add (env.lookup x) (.int 1)
  return .next (env.set x v)

/-- Repeats `body` while `test` holds, if that ends within `n` rounds. -/
def repeatWhile (test : Env → Eval Bool) (body : Env → Eval Flow) : Nat → Env → Eval Flow
  | 0, _ => .exhausted
  | n + 1, env => do
    if ← test env then
      let flow ← body env
      flow.andThen (repeatWhile test body n)
    else return .next env

variable (fuel : Nat)

mutual

/-- Executes a statement. -/
def Stmt.exec (env : Env) : Stmt → Eval Flow
  | .var name _ init => do
    let v ← evalInit p call env init
    return .next (env.declare name.text v)
  | .assign target value => do
    return .next (← evalAssign p call env value target)
  | .ret _ value => do
    return .returned (← value.eval p call env)
  | .whileLoop cond body =>
    repeatWhile (evalCondition p call · cond) (inScope (execBlock · body)) fuel env
  | .forLoop var first last body => do
    let v ← first.eval p call env
    let flow ← repeatWhile (evalWithin p call · var.text last)
      (fun env ↦ do
        let flow ← inScope (execBlock · body) env
        flow.andThen (countUp var.text))
      fuel (env.enter.declare var.text v)
    flow.andThen fun env ↦ return .next env.leave
  | .ifElse cond body other => do
    if ← evalCondition p call env cond then inScope (execBlock · body) env
    else other.exec env
  | .call callee args => do
    let _ ← (Expr.call callee args).eval p call env
    return .next env

/-- Executes what follows a branch of an `if`. -/
def Else.exec (env : Env) : Else → Eval Flow
  | .none => return .next env
  | .block body => inScope (execBlock · body) env
  | .elseIf cond body other => do
    if ← evalCondition p call env cond then inScope (execBlock · body) env
    else other.exec env

/-- Executes statements one after the other. -/
def execBlock (env : Env) : List Stmt → Eval Flow
  | [] => return .next env
  | stmt :: stmts => do
    let flow ← stmt.exec env
    flow.andThen (execBlock · stmts)

end

end

/-! ## Programs -/

/-- The variables of a function that has just been called. -/
def FunDef.env (f : FunDef) (args : List Value) : Env :=
  [((f.params.map (·.name.text)).zip args).reverse]

/-- The answer of a function, if calls are nested no deeper than the fuel. A function that comes to
its end answers `null`. -/
def Program.call (p : Program) : Nat → String → List Value → Eval Value
  | 0, _, _ => .exhausted
  | n + 1, x, args =>
    match p.function? x with
    | none => (throw (.unresolvedCall x) : Act Value)
    | some f => do
      match ← execBlock p (p.call n) n (f.env args) f.body with
      | .next _ => return .null
      | .returned v => return v

/-- How an evaluation or a run ends. -/
inductive Ending where
  | normal (w : World)
  | fault (e : Fault) (w : World)

/-- With enough fuel, evaluating the main function on an input comes to an ending. -/
inductive Program.Ends (p : Program) (input : List UInt8) : Ending → Prop where
  | normal {fuel : Nat} {v : Value} {w : World}
      (h : (p.call fuel "main" []).run ⟨.empty, input, ""⟩ = some (.ok v w)) :
      Ends p input (.normal w)
  | fault {fuel : Nat} {e : Fault} {w : World}
      (h : (p.call fuel "main" []).run ⟨.empty, input, ""⟩ = some (.error e w)) :
      Ends p input (.fault e w)

/-- Evaluating the main function with this much fuel ends normally and has written the text. -/
def Program.prints (p : Program) (fuel : Nat) (input : List UInt8) (text : String) : Bool :=
  match (p.call fuel "main" []).run ⟨.empty, input, ""⟩ with
  | some (.ok _ w) => w.output == text
  | _ => false

theorem Program.ends_of_prints {p : Program} {fuel : Nat} {input : List UInt8} {text : String}
    (h : p.prints fuel input text = true) : ∃ w, p.Ends input (.normal w) ∧ w.output = text := by
  rw [prints] at h
  split at h
  · next hrun => exact ⟨_, .normal hrun, eq_of_beq h⟩
  · cases h

end Pebble
