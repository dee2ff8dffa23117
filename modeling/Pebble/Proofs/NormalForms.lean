import Pebble.Proofs.Expressions
import Pebble.Proofs.FoldedTypes

/-!
# Folding reaches a normal form

Folding replaces the expressions of a program one by one and keeps everything around them: it is
`Program.mapExprs Expr.folded`. What it makes of an expression has nothing left to fold at any depth,
and it uses the same names in the same order.

A second pass finds nothing to do. This is not proved by another look at the passes: an expression
without anything to fold is left as it is, positions included.
-/

namespace Pebble

/-! ## Folding replaces expressions -/

theorem foldedArgs_eq_map (args : List Expr) : foldedArgs args = args.map Expr.folded := by
  induction args with
  | nil => rfl
  | cons arg args ih => rw [foldedArgs, ih, List.map_cons]

theorem Path.folded_eq_mapIndices (path : Path) : path.folded = path.mapIndices Expr.folded := by
  cases path with
  | root name index => cases index <;> rfl
  | field base name index =>
    rw [Path.folded, mapIndices, base.folded_eq_mapIndices]
    cases index <;> rfl

mutual

theorem Stmt.folded_eq_mapExprs : (s : Stmt) → s.folded = s.mapExprs Expr.folded
  | .var name type init => rfl
  | .assign target value => by rw [Stmt.folded, Stmt.mapExprs, target.folded_eq_mapIndices]
  | .ret pos value => rfl
  | .whileLoop cond body => by rw [Stmt.folded, Stmt.mapExprs, foldedBlock_eq_mapExprs body]
  | .forLoop var first last body => by
    rw [Stmt.folded, Stmt.mapExprs, foldedBlock_eq_mapExprs body]
  | .ifElse cond body other => by
    rw [Stmt.folded, Stmt.mapExprs, foldedBlock_eq_mapExprs body, other.folded_eq_mapExprs]
  | .call callee args => by rw [Stmt.folded, Stmt.mapExprs, foldedArgs_eq_map]

theorem Else.folded_eq_mapExprs : (other : Else) → other.folded = other.mapExprs Expr.folded
  | .none => rfl
  | .block body => by rw [Else.folded, Else.mapExprs, foldedBlock_eq_mapExprs body]
  | .elseIf cond body other => by
    rw [Else.folded, Else.mapExprs, foldedBlock_eq_mapExprs body, other.folded_eq_mapExprs]

theorem foldedBlock_eq_mapExprs :
    (body : List Stmt) → foldedBlock body = stmtsMapExprs Expr.folded body
  | [] => rfl
  | stmt :: stmts => by
    rw [foldedBlock, stmtsMapExprs, stmt.folded_eq_mapExprs, foldedBlock_eq_mapExprs stmts]

end

theorem Program.folded_eq_mapExprs (p : Program) : p.folded = p.mapExprs Expr.folded := by
  have hfn : FunDef.folded = FunDef.mapExprs Expr.folded := by
    funext fn
    rw [FunDef.folded, FunDef.mapExprs, foldedBlock_eq_mapExprs]
  rw [folded, mapExprs, hfn]

/-! ## Normal forms -/

mutual

/-- An expression and all expressions in it. -/
def Expr.parts : Expr → List Expr
  | .lit value pos => [.lit value pos]
  | .path p => .path p :: p.parts
  | .call callee args => .call callee args :: argsParts args
  | .newStruct name args => .newStruct name args :: argsParts args
  | .newArray elem size => .newArray elem size :: size.parts
  | .not pos operand => .not pos operand :: operand.parts
  | .binary op pos lhs rhs => .binary op pos lhs rhs :: (lhs.parts ++ rhs.parts)

def Path.parts : Path → List Expr
  | .root _ index => indexParts index
  | .field base _ index => base.parts ++ indexParts index

def indexParts : Option Expr → List Expr
  | none => []
  | some index => index.parts

def argsParts : List Expr → List Expr
  | [] => []
  | arg :: args => arg.parts ++ argsParts args

end

/-- Whether an expression is an operation on literals with a known result. -/
def Expr.isRedex : Expr → Bool
  | .not _ (.lit (.bool _) _) => true
  | .binary op _ (.lit l _) (.lit r _) => (foldBinary? op l r).isSome
  | _ => false

/-- There is nothing to fold in an expression, at any depth. -/
def Expr.IsNormal (e : Expr) : Prop := ∀ s ∈ e.parts, s.isRedex = false

namespace Expr

theorem isNormal_lit (v : Literal) (pos : Pos) : (lit v pos).IsNormal := by
  intro s hs
  rw [List.mem_singleton.mp hs]
  rfl

theorem isNormal_not {pos : Pos} {e : Expr} :
    (not pos e).IsNormal ↔ (not pos e).isRedex = false ∧ e.IsNormal :=
  List.forall_mem_cons

theorem isNormal_binary {op : BinOp} {pos : Pos} {lhs rhs : Expr} :
    (binary op pos lhs rhs).IsNormal ↔
      (binary op pos lhs rhs).isRedex = false ∧ lhs.IsNormal ∧ rhs.IsNormal := by
  rw [IsNormal, parts, List.forall_mem_cons, List.forall_mem_append]
  rfl

theorem isRedex_binary {op : BinOp} {pos : Pos} {lhs rhs : Expr} :
    (binary op pos lhs rhs).isRedex = true ↔
      ∃ l r, lhs.literal? = some l ∧ rhs.literal? = some r ∧ (foldBinary? op l r).isSome := by
  constructor
  · intro h
    unfold isRedex at h
    split at h
    · next heq => cases heq
    · next heq =>
      cases heq
      exact ⟨_, _, rfl, rfl, h⟩
    · cases h
  · rintro ⟨l, r, hl, hr, h⟩
    obtain ⟨at_, rfl⟩ := Expr.literal?_eq_some hl
    obtain ⟨at_, rfl⟩ := Expr.literal?_eq_some hr
    exact h

theorem isNormal_foldedNot {pos : Pos} {e : Expr} (h : e.IsNormal) :
    (foldedNot pos e).IsNormal := by
  unfold foldedNot
  split
  · exact isNormal_lit _ _
  · next hne =>
    refine isNormal_not.mpr ⟨?_, h⟩
    unfold isRedex
    split
    · next heq =>
      cases heq
      exact absurd rfl (hne _ _)
    · next heq => cases heq
    · rfl

theorem isNormal_foldedBinary {op : BinOp} {pos : Pos} {lhs rhs : Expr} (hl : lhs.IsNormal)
    (hr : rhs.IsNormal) : (foldedBinary op pos lhs rhs).IsNormal := by
  -- Where the operation is kept, only its root is in question.
  have hkeep (h : (binary op pos lhs rhs).isRedex ≠ true) : (binary op pos lhs rhs).IsNormal :=
    isNormal_binary.mpr ⟨eq_false_of_ne_true h, hl, hr⟩
  rw [Ne, isRedex_binary] at hkeep
  unfold foldedBinary
  split
  · next l r hl hr =>
    split
    · exact isNormal_lit _ _
    · next hnone =>
      apply hkeep
      rintro ⟨l', r', hl', hr', hsome⟩
      cases hl.symm.trans hl'
      cases hr.symm.trans hr'
      rw [hnone] at hsome
      cases hsome
  · next hne =>
    apply hkeep
    rintro ⟨l, r, hl, hr, -⟩
    exact hne l r hl hr

end Expr

mutual

theorem Expr.isNormal_folded : (e : Expr) → e.folded.IsNormal
  | .lit value pos => Expr.isNormal_lit value pos
  | .path p => List.forall_mem_cons.mpr ⟨rfl, p.parts_folded⟩
  | .call callee args => List.forall_mem_cons.mpr ⟨rfl, argsParts_folded args⟩
  | .newStruct name args => List.forall_mem_cons.mpr ⟨rfl, argsParts_folded args⟩
  | .newArray elem size => List.forall_mem_cons.mpr ⟨rfl, size.isNormal_folded⟩
  | .not pos operand => by
    rw [Expr.folded]
    exact Expr.isNormal_foldedNot operand.isNormal_folded
  | .binary op pos lhs rhs => by
    rw [Expr.folded]
    exact Expr.isNormal_foldedBinary lhs.isNormal_folded rhs.isNormal_folded

theorem Path.parts_folded : (path : Path) → ∀ s ∈ path.folded.parts, s.isRedex = false
  | .root _ index => indexParts_folded index
  | .field base _ index => List.forall_mem_append.mpr ⟨base.parts_folded, indexParts_folded index⟩

theorem indexParts_folded :
    (index : Option Expr) → ∀ s ∈ indexParts (foldedIndex index), s.isRedex = false
  | none => fun _ hs ↦ nomatch hs
  | some index => index.isNormal_folded

theorem argsParts_folded :
    (args : List Expr) → ∀ s ∈ argsParts (foldedArgs args), s.isRedex = false
  | [] => fun _ hs ↦ nomatch hs
  | arg :: args => List.forall_mem_append.mpr ⟨arg.isNormal_folded, argsParts_folded args⟩

end

/-! ## Folding a normal form -/

namespace Expr

theorem foldedNot_eq_self {pos : Pos} {e : Expr} (h : (not pos e).isRedex = false) :
    foldedNot pos e = not pos e := by
  unfold foldedNot
  split
  · cases h
  · rfl

theorem foldedBinary_eq_self {op : BinOp} {pos : Pos} {lhs rhs : Expr}
    (h : (binary op pos lhs rhs).isRedex = false) :
    foldedBinary op pos lhs rhs = binary op pos lhs rhs := by
  unfold foldedBinary
  split
  · next l r hl hr =>
    split
    · next v hv =>
      have hredex : (binary op pos lhs rhs).isRedex = true :=
        isRedex_binary.mpr ⟨l, r, hl, hr, Option.isSome_of_eq_some hv⟩
      rw [h] at hredex
      cases hredex
    · rfl
  · rfl

end Expr

mutual

/-- An expression with nothing to fold is left as it is. -/
theorem Expr.folded_eq_self : (e : Expr) → e.IsNormal → e.folded = e
  | .lit value pos, _ => rfl
  | .path p, h => by rw [Expr.folded, p.folded_eq_self (List.forall_mem_cons.mp h).2]
  | .call callee args, h => by
    rw [Expr.folded, foldedArgs_eq_self args (List.forall_mem_cons.mp h).2]
  | .newStruct name args, h => by
    rw [Expr.folded, foldedArgs_eq_self args (List.forall_mem_cons.mp h).2]
  | .newArray elem size, h => by
    rw [Expr.folded, size.folded_eq_self (List.forall_mem_cons.mp h).2]
  | .not pos operand, h => by
    obtain ⟨hredex, hoperand⟩ := Expr.isNormal_not.mp h
    rw [Expr.folded, operand.folded_eq_self hoperand, Expr.foldedNot_eq_self hredex]
  | .binary op pos lhs rhs, h => by
    obtain ⟨hredex, hl, hr⟩ := Expr.isNormal_binary.mp h
    rw [Expr.folded, lhs.folded_eq_self hl, rhs.folded_eq_self hr,
      Expr.foldedBinary_eq_self hredex]

theorem Path.folded_eq_self :
    (path : Path) → (∀ s ∈ path.parts, s.isRedex = false) → path.folded = path
  | .root name index, h => by rw [Path.folded, foldedIndex_eq_self index h]
  | .field base name index, h => by
    obtain ⟨hbase, hindex⟩ := List.forall_mem_append.mp h
    rw [Path.folded, base.folded_eq_self hbase, foldedIndex_eq_self index hindex]

theorem foldedIndex_eq_self :
    (index : Option Expr) → (∀ s ∈ indexParts index, s.isRedex = false) → foldedIndex index = index
  | none, _ => rfl
  | some index, h => by rw [foldedIndex, index.folded_eq_self h]

theorem foldedArgs_eq_self :
    (args : List Expr) → (∀ s ∈ argsParts args, s.isRedex = false) → foldedArgs args = args
  | [], _ => rfl
  | arg :: args, h => by
    obtain ⟨harg, hargs⟩ := List.forall_mem_append.mp h
    rw [foldedArgs, arg.folded_eq_self harg, foldedArgs_eq_self args hargs]

end

/-! ## Names that are used -/

/-- A use of a name or of a type. Calls and constructors have a number of arguments. -/
inductive Use where
  | var (name : Name)
  | field (name : Name)
  | call (callee : Name) (args : Nat)
  | newStruct (name : Name) (args : Nat)
  | newArray (elem : TypeRef)
deriving DecidableEq

mutual

/-- What an expression uses, in the order in which it is written. -/
def Expr.uses : Expr → List Use
  | .lit _ _ => []
  | .path p => p.uses
  | .call callee args => .call callee args.length :: argsUses args
  | .newStruct name args => .newStruct name args.length :: argsUses args
  | .newArray elem size => .newArray elem :: size.uses
  | .not _ operand => operand.uses
  | .binary _ _ lhs rhs => lhs.uses ++ rhs.uses

def Path.uses : Path → List Use
  | .root name index => .var name :: indexUses index
  | .field base name index => base.uses ++ .field name :: indexUses index

def indexUses : Option Expr → List Use
  | none => []
  | some index => index.uses

def argsUses : List Expr → List Use
  | [] => []
  | arg :: args => arg.uses ++ argsUses args

end

namespace Expr

theorem uses_of_literal? {e : Expr} {v : Literal} (h : e.literal? = some v) : e.uses = [] := by
  obtain ⟨at_, rfl⟩ := literal?_eq_some h
  rfl

theorem uses_foldedNot (pos : Pos) (e : Expr) : (foldedNot pos e).uses = e.uses := by
  unfold foldedNot
  split <;> rfl

theorem uses_foldedBinary (op : BinOp) (pos : Pos) (lhs rhs : Expr) :
    (foldedBinary op pos lhs rhs).uses = lhs.uses ++ rhs.uses := by
  unfold foldedBinary
  split
  · next hl hr =>
    split
    · rw [uses_of_literal? hl, uses_of_literal? hr]
      rfl
    · rfl
  · rfl

end Expr

mutual

theorem Expr.uses_folded : (e : Expr) → e.folded.uses = e.uses
  | .lit value pos => rfl
  | .path p => p.uses_folded
  | .call callee args => by
    rw [Expr.folded, Expr.uses, Expr.uses, foldedArgs_length, argsUses_folded args]
  | .newStruct name args => by
    rw [Expr.folded, Expr.uses, Expr.uses, foldedArgs_length, argsUses_folded args]
  | .newArray elem size => by rw [Expr.folded, Expr.uses, Expr.uses, size.uses_folded]
  | .not pos operand => by rw [Expr.folded, Expr.uses_foldedNot, Expr.uses, operand.uses_folded]
  | .binary op pos lhs rhs => by
    rw [Expr.folded, Expr.uses_foldedBinary, Expr.uses, lhs.uses_folded, rhs.uses_folded]

theorem Path.uses_folded : (path : Path) → path.folded.uses = path.uses
  | .root name index => by rw [Path.folded, Path.uses, Path.uses, indexUses_folded index]
  | .field base name index => by
    rw [Path.folded, Path.uses, Path.uses, base.uses_folded, indexUses_folded index]

theorem indexUses_folded : (index : Option Expr) → indexUses (foldedIndex index) = indexUses index
  | none => rfl
  | some index => index.uses_folded

theorem argsUses_folded : (args : List Expr) → argsUses (foldedArgs args) = argsUses args
  | [] => rfl
  | arg :: args => by rw [foldedArgs, argsUses, argsUses, arg.uses_folded, argsUses_folded args]

end

/-! ## Folding programs -/

theorem Program.isNormal_of_mem_folded {p : Program} : ∀ e ∈ p.folded.exprs, e.IsNormal := by
  intro e he
  rw [p.folded_eq_mapExprs, p.exprs_mapExprs] at he
  obtain ⟨e, -, rfl⟩ := List.mem_map.mp he
  exact e.isNormal_folded

/-- Folding reaches a normal form in one pass and changes nothing around and between what it
folds. -/
theorem Program.folded_normal_form (p : Program) :
    (∀ e ∈ p.folded.exprs, ∀ s ∈ e.parts, s.isRedex = false) ∧
      p.folded.folded = p.folded ∧
      p.folded.outline = p.outline ∧
      p.folded.exprs.map Expr.uses = p.exprs.map Expr.uses := by
  refine ⟨isNormal_of_mem_folded, ?_, ?_, ?_⟩
  · rw [p.folded.folded_eq_mapExprs]
    exact mapExprs_eq_self fun e he ↦ e.folded_eq_self (isNormal_of_mem_folded e he)
  · rw [p.folded_eq_mapExprs, p.outline_mapExprs]
  · rw [p.folded_eq_mapExprs, p.exprs_mapExprs, List.map_map]
    exact List.map_congr_left fun e _ ↦ e.uses_folded

end Pebble
