import Pebble.Syntax

/-!
# Folding constants

Replaces every operation on literals whose result is known by its result, from the leaves up, so
that a fold can enable the one above it. A product with a power of two is computed by shifting,
and so is a quotient of a non-negative number by one. A division by zero is left for the running
program to fail on.
-/

namespace Pebble

/-- The exponent `k` if `n = 2 ^ k`. -/
def powerOfTwo? (n : Int32) : Option Nat :=
  if 0 < n && n &&& (n - 1) == 0 then some (Nat.log2 n.toNatClampNeg) else none

/-- Products with and quotients by a power of two, by shifting. -/
def foldShift? (op : BinOp) (a b : Int32) : Option Literal :=
  match powerOfTwo? b, op with
  | some k, .mul => some (.int (a <<< Int32.ofNat k))
  | some k, .div => if 0 ≤ a then some (.int (a >>> Int32.ofNat k)) else none
  | _, _ => none

def foldInt? (op : BinOp) (a b : Int32) : Option Literal :=
  match op with
  | .add => some (.int (a + b))
  | .sub => some (.int (a - b))
  | .mul => some (.int (a * b))
  | .div => if b = 0 then none else some (.int (a / b))
  | .eq => some (.bool (a == b))
  | .ne => some (.bool (a != b))
  | .lt => some (.bool (a < b))
  | .le => some (.bool (a ≤ b))
  | .gt => some (.bool (b < a))
  | .ge => some (.bool (b ≤ a))
  | .and | .or => none

def foldDouble? (op : BinOp) (a b : Float) : Option Literal :=
  match op with
  | .add => some (.double (a + b))
  | .sub => some (.double (a - b))
  | .mul => some (.double (a * b))
  | .div => if b == 0 then none else some (.double (a / b))
  | .eq => some (.bool (a == b))
  | .ne => some (.bool (a != b))
  | .lt => some (.bool (a < b))
  | .le => some (.bool (a ≤ b))
  | .gt => some (.bool (b < a))
  | .ge => some (.bool (b ≤ a))
  | .and | .or => none

def foldBool? (op : BinOp) (a b : Bool) : Option Literal :=
  match op with
  | .and => some (.bool (a && b))
  | .or => some (.bool (a || b))
  | .eq => some (.bool (a == b))
  | .ne => some (.bool (a != b))
  | _ => none

def foldStr? (op : BinOp) (a b : String) : Option Literal :=
  match op with
  | .add => some (.str (a ++ b))
  | .eq => some (.bool (a == b))
  | .ne => some (.bool (a != b))
  | .lt => some (.bool (a < b))
  | .le => some (.bool (a ≤ b))
  | .gt => some (.bool (b < a))
  | .ge => some (.bool (b ≤ a))
  | _ => none

/-- The result of an operation on two literals, if it is known. `null` only equals itself. -/
def foldBinary? (op : BinOp) (l r : Literal) : Option Literal :=
  match l, r with
  | .int a, .int b => (foldShift? op a b).or (foldInt? op a b)
  | .double a, .double b => foldDouble? op a b
  | .bool a, .bool b => foldBool? op a b
  | .str a, .str b => foldStr? op a b
  | .null, r => foldNull (r = .null)
  | l, .null => foldNull (l = .null)
  | _, _ => none
where
  foldNull (same : Bool) : Option Literal :=
    match op with
    | .eq => some (.bool same)
    | .ne => some (.bool !same)
    | _ => none

/-- The negation of an expression, which folds on a truth value. -/
def Expr.foldedNot (pos : Pos) (operand : Expr) : Expr :=
  match operand with
  | .lit (.bool b) at_ => .lit (.bool !b) at_
  | _ => .not pos operand

/-- An operation, which folds if its operands are literals with a known result. -/
def Expr.foldedBinary (op : BinOp) (pos : Pos) (lhs rhs : Expr) : Expr :=
  match lhs.literal?, rhs.literal? with
  | some l, some r =>
    match foldBinary? op l r with
    | some value => .lit value lhs.pos
    | none => .binary op pos lhs rhs
  | _, _ => .binary op pos lhs rhs

mutual

/-- An expression with its constants folded. -/
def Expr.folded : Expr → Expr
  | .lit value pos => .lit value pos
  | .path p => .path p.folded
  | .call callee args => .call callee (foldedArgs args)
  | .newStruct name args => .newStruct name (foldedArgs args)
  | .newArray elem size => .newArray elem size.folded
  | .not pos operand => .foldedNot pos operand.folded
  | .binary op pos lhs rhs => .foldedBinary op pos lhs.folded rhs.folded

/-- A path with the constants of its indices folded. -/
def Path.folded : Path → Path
  | .root name index => .root name (foldedIndex index)
  | .field base name index => .field base.folded name (foldedIndex index)

def foldedIndex : Option Expr → Option Expr
  | none => none
  | some index => some index.folded

def foldedArgs : List Expr → List Expr
  | [] => []
  | arg :: args => arg.folded :: foldedArgs args

end

mutual

/-- A statement with the constants of its expressions folded. -/
def Stmt.folded : Stmt → Stmt
  | .var name type init => .var name type (init.map Expr.folded)
  | .assign target value => .assign target.folded value.folded
  | .ret pos value => .ret pos value.folded
  | .whileLoop cond body => .whileLoop cond.folded (foldedBlock body)
  | .forLoop var first last body => .forLoop var first.folded last.folded (foldedBlock body)
  | .ifElse cond body other => .ifElse cond.folded (foldedBlock body) other.folded
  | .call callee args => .call callee (foldedArgs args)

def Else.folded : Else → Else
  | .none => .none
  | .block body => .block (foldedBlock body)
  | .elseIf cond body other => .elseIf cond.folded (foldedBlock body) other.folded

def foldedBlock : List Stmt → List Stmt
  | [] => []
  | stmt :: stmts => stmt.folded :: foldedBlock stmts

end

def FunDef.folded (f : FunDef) : FunDef :=
  { f with body := foldedBlock f.body }

/-- A program with the constants of its expressions folded. -/
def Program.folded (p : Program) : Program :=
  { p with functions := p.functions.map FunDef.folded }

end Pebble
