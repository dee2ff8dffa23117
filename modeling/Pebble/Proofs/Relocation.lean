import Mathlib.Tactic.Common
import Pebble.Proofs.PrintedDerivations

/-!
# Trees in other places

A text can be laid out in many ways, and each gives the tokens other places. What a parser makes of
the tokens should differ in the places only. This file says what that means: `moved` applies a
function to every place of a token, a tree or a failure.

With the identity nothing changes, and with a constant function all places are forgotten, which is
how trees are compared elsewhere (`Program.unplaced`).
-/

namespace Pebble

variable (f : Pos → Pos)

/-! ## Moving -/

def Lexeme.moved (l : Lexeme) : Lexeme :=
  ⟨l.token, f l.pos⟩

def Name.moved (x : Name) : Name :=
  ⟨x.text, f x.pos⟩

def TypeRef.moved (t : TypeRef) : TypeRef :=
  { t with pos := f t.pos }

mutual

/-- An expression whose parts are where `f` puts them. -/
def Expr.moved : Expr → Expr
  | .lit value pos => .lit value (f pos)
  | .path p => .path p.moved
  | .call callee args => .call (callee.moved f) (argsMoved args)
  | .newStruct name args => .newStruct (name.moved f) (argsMoved args)
  | .newArray elem size => .newArray (elem.moved f) size.moved
  | .not pos operand => .not (f pos) operand.moved
  | .binary op pos lhs rhs => .binary op (f pos) lhs.moved rhs.moved

def Path.moved : Path → Path
  | .root name index => .root (name.moved f) (indexMoved index)
  | .field base name index => .field base.moved (name.moved f) (indexMoved index)

def indexMoved : Option Expr → Option Expr
  | none => none
  | some e => some e.moved

def argsMoved : List Expr → List Expr
  | [] => []
  | e :: es => e.moved :: argsMoved es

end

mutual

/-- A statement whose parts are where `f` puts them. -/
def Stmt.moved : Stmt → Stmt
  | .var name type init => .var (name.moved f) (type.map (·.moved f)) (init.map (·.moved f))
  | .assign target value => .assign (target.moved f) (value.moved f)
  | .ret pos value => .ret (f pos) (value.moved f)
  | .whileLoop cond body => .whileLoop (cond.moved f) (stmtsMoved body)
  | .forLoop var first last body =>
    .forLoop (var.moved f) (first.moved f) (last.moved f) (stmtsMoved body)
  | .ifElse cond body other => .ifElse (cond.moved f) (stmtsMoved body) other.moved
  | .call callee args => .call (callee.moved f) (argsMoved f args)

def Else.moved : Else → Else
  | .none => .none
  | .block body => .block (stmtsMoved body)
  | .elseIf cond body other => .elseIf (cond.moved f) (stmtsMoved body) other.moved

def stmtsMoved : List Stmt → List Stmt
  | [] => []
  | s :: ss => s.moved :: stmtsMoved ss

end

def VarDef.moved (v : VarDef) : VarDef :=
  ⟨v.name.moved f, v.type.moved f⟩

def StructDef.moved (s : StructDef) : StructDef :=
  ⟨s.name.moved f, s.fields.map (·.moved f)⟩

def FunDef.moved (d : FunDef) : FunDef :=
  ⟨d.name.moved f, d.returnType.moved f, d.params.map (·.moved f), stmtsMoved f d.body⟩

/-- A program whose parts are where `f` puts them. -/
def Program.moved (p : Program) : Program :=
  ⟨p.structs.map (·.moved f), p.functions.map (·.moved f)⟩

def ParseError.moved (e : ParseError) : ParseError :=
  ⟨f e.pos, e.fault⟩

/-! ## Lists of parts -/

theorem argsMoved_eq : (es : List Expr) → argsMoved f es = es.map (·.moved f)
  | [] => rfl
  | e :: es => by rw [argsMoved, argsMoved_eq es, List.map_cons]

theorem stmtsMoved_eq (ss : List Stmt) : stmtsMoved f ss = ss.map (·.moved f) := by
  induction ss with
  | nil => rfl
  | cons s ss ih => rw [stmtsMoved, ih, List.map_cons]

theorem Else.moved_ofBranches (branches : List (Expr × List Stmt)) (last : Option (List Stmt)) :
    (Else.ofBranches branches last).moved f =
      .ofBranches (branches.map fun b ↦ (b.1.moved f, stmtsMoved f b.2))
        (last.map (stmtsMoved f)) := by
  induction branches with
  | nil => cases last <;> rfl
  | cons b branches ih => exact congrArg (Else.elseIf _ _) ih

/-! ## Nothing moved -/

theorem Name.moved_id (x : Name) : x.moved id = x := rfl

theorem TypeRef.moved_id (t : TypeRef) : t.moved id = t := rfl

mutual

theorem Expr.moved_id : (e : Expr) → e.moved id = e
  | .lit _ _ => rfl
  | .path p => by rw [Expr.moved, p.moved_id]
  | .call callee args => by rw [Expr.moved, argsMoved_id args, callee.moved_id]
  | .newStruct name args => by rw [Expr.moved, argsMoved_id args, name.moved_id]
  | .newArray elem size => by rw [Expr.moved, size.moved_id, elem.moved_id]
  | .not pos operand => by rw [Expr.moved, operand.moved_id, id]
  | .binary op pos lhs rhs => by rw [Expr.moved, lhs.moved_id, rhs.moved_id, id]

theorem Path.moved_id : (p : Path) → p.moved id = p
  | .root name index => by rw [Path.moved, indexMoved_id index, name.moved_id]
  | .field base name index => by
    rw [Path.moved, base.moved_id, indexMoved_id index, name.moved_id]

theorem indexMoved_id : (index : Option Expr) → indexMoved id index = index
  | none => rfl
  | some e => by rw [indexMoved, e.moved_id]

theorem argsMoved_id : (args : List Expr) → argsMoved id args = args
  | [] => rfl
  | e :: es => by rw [argsMoved, e.moved_id, argsMoved_id es]

end

mutual

theorem Stmt.moved_id : (s : Stmt) → s.moved id = s
  | .var name type init => by
    have htype : type.map (TypeRef.moved id) = type := Option.map_id'
    have hinit : init.map (Expr.moved id) = init := by
      rw [funext Expr.moved_id, Option.map_id']
    rw [Stmt.moved, htype, hinit, name.moved_id]
  | .assign target value => by rw [Stmt.moved, target.moved_id, value.moved_id]
  | .ret pos value => by rw [Stmt.moved, value.moved_id, id]
  | .whileLoop cond body => by rw [Stmt.moved, cond.moved_id, stmtsMoved_id body]
  | .forLoop var first last body => by
    rw [Stmt.moved, first.moved_id, last.moved_id, stmtsMoved_id body, var.moved_id]
  | .ifElse cond body other => by
    rw [Stmt.moved, cond.moved_id, stmtsMoved_id body, other.moved_id]
  | .call callee args => by rw [Stmt.moved, argsMoved_id args, callee.moved_id]

theorem Else.moved_id : (other : Else) → other.moved id = other
  | .none => rfl
  | .block body => by rw [Else.moved, stmtsMoved_id body]
  | .elseIf cond body other => by
    rw [Else.moved, cond.moved_id, stmtsMoved_id body, other.moved_id]

theorem stmtsMoved_id : (ss : List Stmt) → stmtsMoved id ss = ss
  | [] => rfl
  | s :: ss => by rw [stmtsMoved, s.moved_id, stmtsMoved_id ss]

end

theorem Program.moved_id (p : Program) : p.moved id = p := by
  have hvars : VarDef.moved id = id := rfl
  have hstructs : StructDef.moved id = id := by
    funext s
    rw [StructDef.moved, hvars, List.map_id, s.name.moved_id, id]
  have hfunctions : FunDef.moved id = id := by
    funext d
    rw [FunDef.moved, hvars, List.map_id, stmtsMoved_id, d.name.moved_id, d.returnType.moved_id, id]
  rw [moved, hstructs, hfunctions, List.map_id, List.map_id]

/-! ## All moved to one place -/

mutual

theorem Expr.moved_start : (e : Expr) → e.moved (fun _ ↦ .start) = e.unplaced
  | .lit _ _ => rfl
  | .path p => congrArg Expr.path p.moved_start
  | .call _ args => congrArg (Expr.call _) (argsMoved_start args)
  | .newStruct _ args => congrArg (Expr.newStruct _) (argsMoved_start args)
  | .newArray _ size => congrArg (Expr.newArray _) size.moved_start
  | .not _ operand => congrArg (Expr.not _) operand.moved_start
  | .binary op _ lhs rhs => congrArg₂ (Expr.binary op _) lhs.moved_start rhs.moved_start

theorem Path.moved_start : (p : Path) → p.moved (fun _ ↦ .start) = p.unplaced
  | .root _ index => congrArg (Path.root _) (indexMoved_start index)
  | .field base _ index =>
    congrArg₂ (Path.field · _ ·) base.moved_start (indexMoved_start index)

theorem indexMoved_start : (index : Option Expr) →
    indexMoved (fun _ ↦ .start) index = indexUnplaced index
  | none => rfl
  | some e => congrArg some e.moved_start

theorem argsMoved_start : (args : List Expr) →
    argsMoved (fun _ ↦ .start) args = argsUnplaced args
  | [] => rfl
  | e :: es => congrArg₂ List.cons e.moved_start (argsMoved_start es)

end

mutual

theorem Stmt.moved_start : (s : Stmt) → s.moved (fun _ ↦ .start) = s.unplaced
  | .var name type init => by
    rw [Stmt.moved, Stmt.unplaced, funext Expr.moved_start]
    rfl
  | .assign target value => congrArg₂ Stmt.assign target.moved_start value.moved_start
  | .ret _ value => congrArg (Stmt.ret _) value.moved_start
  | .whileLoop cond body => congrArg₂ Stmt.whileLoop cond.moved_start (stmtsMoved_start body)
  | .forLoop var first last body => by
    rw [Stmt.moved, Stmt.unplaced, first.moved_start, last.moved_start, stmtsMoved_start body]
    rfl
  | .ifElse cond body other => by
    rw [Stmt.moved, Stmt.unplaced, cond.moved_start, stmtsMoved_start body, other.moved_start]
  | .call _ args => congrArg (Stmt.call _) (argsMoved_start args)

theorem Else.moved_start : (other : Else) → other.moved (fun _ ↦ .start) = other.unplaced
  | .none => rfl
  | .block body => congrArg Else.block (stmtsMoved_start body)
  | .elseIf cond body other => by
    rw [Else.moved, Else.unplaced, cond.moved_start, stmtsMoved_start body, other.moved_start]

theorem stmtsMoved_start : (ss : List Stmt) →
    stmtsMoved (fun _ ↦ .start) ss = stmtsUnplaced ss
  | [] => rfl
  | s :: ss => congrArg₂ List.cons s.moved_start (stmtsMoved_start ss)

end

theorem Program.moved_start (p : Program) : p.moved (fun _ ↦ .start) = p.unplaced := by
  have hfunctions : FunDef.moved (fun _ ↦ .start) = FunDef.unplaced := by
    funext d
    rw [FunDef.moved, stmtsMoved_start]
    rfl
  rw [moved, hfunctions]
  rfl

end Pebble
