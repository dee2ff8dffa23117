import Mathlib.Tactic.Tauto
import Pebble.Proofs.PrintedDerivations
import Pebble.Proofs.Spans

/-!
# What can be written, expression by expression

Whether a program can be written is a matter of its outline, which holds all names and types outside
expressions, and of its expressions one by one (`Program.isLegible_iff`). So a pass that replaces
expressions need only be looked at on expressions, and what is known of the literals of a program can
be used where they stand.
-/

namespace Pebble

/-! ## Programs and their expressions -/

section
variable {ok : Literal → Prop}

/-- Whatever a literal is. -/
def Literal.IsAny (_ : Literal) : Prop := True

theorem index_isLegible_iff (index : Option Expr) :
    indexLegible ok index ↔ ∀ e ∈ index.toList, e.IsLegible ok := by
  cases index with
  | none => exact iff_of_true trivial nofun
  | some e => rw [indexLegible, Option.toList_some, List.forall_mem_singleton]

theorem args_isLegible_iff (args : List Expr) :
    argsLegible ok args ↔ ∀ e ∈ args, e.IsLegible ok := by
  induction args with
  | nil => exact iff_of_true trivial nofun
  | cons e es ih => rw [argsLegible, List.forall_mem_cons, ih]

theorem indexLegible_blank (index : Option Expr) :
    indexLegible Literal.IsAny (index.map Expr.blank) := by
  cases index <;> trivial

theorem argsLegible_blank (args : List Expr) : argsLegible Literal.IsAny (args.map Expr.blank) := by
  rw [args_isLegible_iff]
  intro e he
  obtain ⟨e, -, rfl⟩ := List.mem_map.mp he
  trivial

theorem Path.isLegible_iff : (path : Path) → (path.IsLegible ok ↔
    (path.mapIndices Expr.blank).IsLegible Literal.IsAny ∧ ∀ e ∈ path.indices, e.IsLegible ok)
  | .root name index => by
    have hblank := indexLegible_blank index
    rw [Path.IsLegible, mapIndices, Path.IsLegible, indices, index_isLegible_iff]
    tauto
  | .field base name index => by
    have hblank := indexLegible_blank index
    rw [Path.IsLegible, mapIndices, Path.IsLegible, indices, index_isLegible_iff,
      base.isLegible_iff, List.forall_mem_append]
    tauto

mutual

theorem Stmt.isLegible_iff : (s : Stmt) → (s.IsLegible ok ↔
    (s.mapExprs Expr.blank).IsLegible Literal.IsAny ∧ ∀ e ∈ s.exprs, e.IsLegible ok)
  | .var name type init => by
    have hblank : ∀ e ∈ init.map Expr.blank, e.IsLegible Literal.IsAny := by
      intro e he
      obtain ⟨e, -, rfl⟩ := Option.mem_map.mp he
      trivial
    simp only [Stmt.IsLegible, Stmt.mapExprs, Stmt.exprs, Option.isSome_map, Option.mem_toList]
    tauto
  | .assign target value => by
    have hblank : value.blank.IsLegible Literal.IsAny := trivial
    simp only [Stmt.IsLegible, Stmt.mapExprs, Stmt.exprs, List.forall_mem_append,
      List.forall_mem_singleton, target.isLegible_iff]
    tauto
  | .ret pos value => by
    have hblank : value.blank.IsLegible Literal.IsAny := trivial
    simp only [Stmt.IsLegible, Stmt.mapExprs, Stmt.exprs, List.forall_mem_singleton]
    tauto
  | .whileLoop cond body => by
    have hblank : cond.blank.IsLegible Literal.IsAny := trivial
    simp only [Stmt.IsLegible, Stmt.mapExprs, Stmt.exprs, List.forall_mem_cons,
      stmtsLegible_iff body]
    tauto
  | .forLoop var first last body => by
    have hblank : first.blank.IsLegible Literal.IsAny := trivial
    have hblank' : last.blank.IsLegible Literal.IsAny := trivial
    simp only [Stmt.IsLegible, Stmt.mapExprs, Stmt.exprs, List.forall_mem_cons,
      stmtsLegible_iff body]
    tauto
  | .ifElse cond body other => by
    have hblank : cond.blank.IsLegible Literal.IsAny := trivial
    simp only [Stmt.IsLegible, Stmt.mapExprs, Stmt.exprs, List.forall_mem_cons,
      List.forall_mem_append, stmtsLegible_iff body, other.isLegible_iff]
    tauto
  | .call callee args => by
    have hblank := argsLegible_blank args
    simp only [Stmt.IsLegible, Stmt.mapExprs, Stmt.exprs, args_isLegible_iff args]
    tauto

theorem Else.isLegible_iff : (other : Else) → (other.IsLegible ok ↔
    (other.mapExprs Expr.blank).IsLegible Literal.IsAny ∧ ∀ e ∈ other.exprs, e.IsLegible ok)
  | .none => by
    simp only [Else.IsLegible, Else.mapExprs, Else.exprs]
    exact iff_of_true trivial ⟨trivial, nofun⟩
  | .block body => by
    simp only [Else.IsLegible, Else.mapExprs, Else.exprs, stmtsLegible_iff body]
  | .elseIf cond body other => by
    have hblank : cond.blank.IsLegible Literal.IsAny := trivial
    simp only [Else.IsLegible, Else.mapExprs, Else.exprs, List.forall_mem_cons,
      List.forall_mem_append, stmtsLegible_iff body, other.isLegible_iff]
    tauto

theorem stmtsLegible_iff : (body : List Stmt) → (stmtsLegible ok body ↔
    stmtsLegible Literal.IsAny (stmtsMapExprs Expr.blank body) ∧
      ∀ e ∈ stmtsExprs body, e.IsLegible ok)
  | [] => iff_of_true trivial ⟨trivial, nofun⟩
  | s :: ss => by
    simp only [stmtsLegible, stmtsMapExprs, stmtsExprs, List.forall_mem_append, s.isLegible_iff,
      stmtsLegible_iff ss]
    tauto

end

theorem Program.isLegible_iff (p : Program) :
    p.IsLegible ok ↔ p.outline.IsLegible Literal.IsAny ∧ ∀ e ∈ p.exprs, e.IsLegible ok := by
  have hfn (fn : FunDef) : fn.IsLegible ok ↔ (fn.mapExprs Expr.blank).IsLegible Literal.IsAny ∧
      ∀ e ∈ fn.exprs, e.IsLegible ok := by
    simp only [FunDef.IsLegible, FunDef.mapExprs, FunDef.exprs, stmtsLegible_iff fn.body]
    tauto
  simp only [Program.IsLegible, Program.outline, Program.mapExprs, Program.exprs, hfn,
    List.forall_mem_map, List.forall_mem_flatMap]
  exact ⟨fun h ↦ ⟨⟨h.1, fun fn hmem ↦ (h.2 fn hmem).1⟩, fun fn hmem ↦ (h.2 fn hmem).2⟩,
    fun h ↦ ⟨h.1.1, fun fn hmem ↦ ⟨h.1.2 fn hmem, h.2 fn hmem⟩⟩⟩

end

/-! ## Literals and where they stand -/

/-- The literal a token is, if it is one, has a property. -/
def Token.Fits (ok : Literal → Prop) : Token → Prop
  | .lit v => ok v
  | _ => True

section
variable {ok ok' : Literal → Prop}

mutual

/-- What is known of the literals of an expression can be used where they stand. -/
theorem Expr.isLegible_of_marks : (e : Expr) → e.IsLegible ok →
    (∀ l ∈ e.marks, l.token.Fits fun v ↦ ok v → ok' v) → e.IsLegible ok'
  | .lit value pos, h, hm => hm _ List.mem_cons_self h
  | .path p, h, hm => p.isLegible_of_marks h hm
  | .call callee args, h, hm =>
    ⟨h.1, argsLegible_of_marks args h.2 (List.forall_mem_cons.mp hm).2⟩
  | .newStruct name args, h, hm =>
    ⟨h.1, argsLegible_of_marks args h.2 (List.forall_mem_cons.mp hm).2⟩
  | .newArray elem size, h, hm =>
    ⟨h.1, h.2.1, size.isLegible_of_marks h.2.2 (List.forall_mem_cons.mp hm).2⟩
  | .not pos operand, h, hm => operand.isLegible_of_marks h (List.forall_mem_cons.mp hm).2
  | .binary op pos lhs rhs, h, hm => by
    obtain ⟨hl, hr⟩ := List.forall_mem_append.mp hm
    exact ⟨lhs.isLegible_of_marks h.1 hl,
      rhs.isLegible_of_marks h.2 (List.forall_mem_cons.mp hr).2⟩

theorem Path.isLegible_of_marks : (path : Path) → path.IsLegible ok →
    (∀ l ∈ path.marks, l.token.Fits fun v ↦ ok v → ok' v) → path.IsLegible ok'
  | .root name index, h, hm =>
    ⟨h.1, indexLegible_of_marks index h.2 (List.forall_mem_cons.mp hm).2⟩
  | .field base name index, h, hm => by
    obtain ⟨hbase, hindex⟩ := List.forall_mem_append.mp hm
    exact ⟨base.isLegible_of_marks h.1 hbase, h.2.1,
      indexLegible_of_marks index h.2.2 (List.forall_mem_cons.mp hindex).2⟩

theorem indexLegible_of_marks : (index : Option Expr) → indexLegible ok index →
    (∀ l ∈ indexMarks index, l.token.Fits fun v ↦ ok v → ok' v) → indexLegible ok' index
  | none, _, _ => trivial
  | some e, h, hm => e.isLegible_of_marks h hm

theorem argsLegible_of_marks : (args : List Expr) → argsLegible ok args →
    (∀ l ∈ argsMarks args, l.token.Fits fun v ↦ ok v → ok' v) → argsLegible ok' args
  | [], _, _ => trivial
  | e :: es, h, hm => by
    obtain ⟨he, hes⟩ := List.forall_mem_append.mp hm
    exact ⟨e.isLegible_of_marks h.1 he, argsLegible_of_marks es h.2 hes⟩

end

end

section
variable {P : Lexeme → Prop}

theorem args_marks_of_mem (args : List Expr) (h : ∀ l ∈ argsMarks args, P l) :
    ∀ e ∈ args, ∀ l ∈ e.marks, P l := by
  induction args with
  | nil => exact List.forall_mem_nil _
  | cons e es ih =>
    obtain ⟨he, hes⟩ := List.forall_mem_append.mp h
    exact List.forall_mem_cons.mpr ⟨he, ih hes⟩

theorem index_marks_of_mem {index : Option Expr} (h : ∀ l ∈ indexMarks index, P l) :
    ∀ e ∈ index.toList, ∀ l ∈ e.marks, P l := by
  cases index with
  | none => exact List.forall_mem_nil _
  | some e => exact List.forall_mem_singleton.mpr h

theorem Path.marks_of_mem_indices : (path : Path) → (∀ l ∈ path.marks, P l) →
    ∀ e ∈ path.indices, ∀ l ∈ e.marks, P l
  | .root name index, h => index_marks_of_mem (List.forall_mem_cons.mp h).2
  | .field base name index, h => by
    obtain ⟨hbase, hindex⟩ := List.forall_mem_append.mp h
    exact List.forall_mem_append.mpr ⟨base.marks_of_mem_indices hbase,
      index_marks_of_mem (List.forall_mem_cons.mp hindex).2⟩

mutual

/-- The marks of an expression in a statement are marks of the statement. -/
theorem Stmt.marks_of_mem_exprs : (s : Stmt) → (∀ l ∈ s.marks, P l) →
    ∀ e ∈ s.exprs, ∀ l ∈ e.marks, P l
  | .var name type init, h => by
    have hinit := (List.forall_mem_append.mp (List.forall_mem_cons.mp h).2).2
    cases init with
    | none => exact List.forall_mem_nil _
    | some e => exact List.forall_mem_singleton.mpr hinit
  | .assign target value, h => by
    obtain ⟨htarget, hvalue⟩ := List.forall_mem_append.mp h
    exact List.forall_mem_append.mpr
      ⟨target.marks_of_mem_indices htarget, List.forall_mem_singleton.mpr hvalue⟩
  | .ret pos value, h => List.forall_mem_singleton.mpr (List.forall_mem_cons.mp h).2
  | .whileLoop cond body, h => by
    obtain ⟨hcond, hbody⟩ := List.forall_mem_append.mp h
    exact List.forall_mem_cons.mpr ⟨hcond, stmts_marks_of_mem_exprs body hbody⟩
  | .forLoop var first last body, h => by
    obtain ⟨hfirst, h⟩ := List.forall_mem_append.mp (List.forall_mem_cons.mp h).2
    obtain ⟨hlast, hbody⟩ := List.forall_mem_append.mp h
    exact List.forall_mem_cons.mpr ⟨hfirst,
      List.forall_mem_cons.mpr ⟨hlast, stmts_marks_of_mem_exprs body hbody⟩⟩
  | .ifElse cond body other, h => by
    obtain ⟨hcond, h⟩ := List.forall_mem_append.mp h
    obtain ⟨hbody, hother⟩ := List.forall_mem_append.mp h
    exact List.forall_mem_cons.mpr ⟨hcond, List.forall_mem_append.mpr
      ⟨stmts_marks_of_mem_exprs body hbody, other.marks_of_mem_exprs hother⟩⟩
  | .call callee args, h => args_marks_of_mem args (List.forall_mem_cons.mp h).2

theorem Else.marks_of_mem_exprs : (other : Else) → (∀ l ∈ other.marks, P l) →
    ∀ e ∈ other.exprs, ∀ l ∈ e.marks, P l
  | .none, _ => List.forall_mem_nil _
  | .block body, h => stmts_marks_of_mem_exprs body h
  | .elseIf cond body other, h => by
    obtain ⟨hcond, h⟩ := List.forall_mem_append.mp h
    obtain ⟨hbody, hother⟩ := List.forall_mem_append.mp h
    exact List.forall_mem_cons.mpr ⟨hcond, List.forall_mem_append.mpr
      ⟨stmts_marks_of_mem_exprs body hbody, other.marks_of_mem_exprs hother⟩⟩

theorem stmts_marks_of_mem_exprs : (body : List Stmt) → (∀ l ∈ stmtsMarks body, P l) →
    ∀ e ∈ stmtsExprs body, ∀ l ∈ e.marks, P l
  | [], _ => List.forall_mem_nil _
  | s :: ss, h => by
    obtain ⟨hs, hss⟩ := List.forall_mem_append.mp h
    exact List.forall_mem_append.mpr
      ⟨s.marks_of_mem_exprs hs, stmts_marks_of_mem_exprs ss hss⟩

end

end

/-- What is known of the literals of a program can be used where they stand. -/
theorem Program.IsLegible.of_marks {ok ok' : Literal → Prop} {p : Program} (h : p.IsLegible ok)
    (hmarks : ∀ f ∈ p.functions, ∀ l ∈ f.marks, l.token.Fits fun v ↦ ok v → ok' v) :
    p.IsLegible ok' := by
  obtain ⟨houtline, hexprs⟩ := p.isLegible_iff.mp h
  refine p.isLegible_iff.mpr ⟨houtline, fun e he ↦ e.isLegible_of_marks (hexprs e he) ?_⟩
  obtain ⟨f, hf, he⟩ := List.mem_flatMap.mp he
  have hbody : ∀ l ∈ stmtsMarks f.body, l.token.Fits fun v ↦ ok v → ok' v := by
    intro l hl
    refine hmarks f hf l (List.mem_cons_of_mem _ (List.mem_cons_of_mem _ ?_))
    exact List.mem_append_right _ hl
  exact stmts_marks_of_mem_exprs f.body hbody e he

theorem Program.IsLegible.mono {ok ok' : Literal → Prop} {p : Program} (h : p.IsLegible ok)
    (himp : ∀ v, ok v → ok' v) : p.IsLegible ok' := by
  refine h.of_marks fun f _ l _ ↦ ?_
  unfold Token.Fits
  split
  · exact himp _
  · trivial

theorem Program.IsLegible.lexes {p : Program} (h : p.IsLegible Literal.IsLegible) :
    Lexes p.text.toList p.printed :=
  Program.lexes (h.mono fun _ ↦ Literal.IsLegible.isWritten)

/-! ## Programs without numbers below zero -/

mutual

/-- An expression whose literals have tokens of their own is spelled as it is. -/
theorem Expr.spelled_eq_self : (e : Expr) → e.IsLegible Literal.IsUnsigned → e.spelled = e
  | .lit value pos, h => by
    rw [Expr.spelled, Literal.spelled, Literal.IsUnsigned.spelling_eq h]
  | .path p, h => by rw [Expr.spelled, p.spelled_eq_self h]
  | .call callee args, h => by rw [Expr.spelled, argsSpelled_eq_self args h.2]
  | .newStruct name args, h => by rw [Expr.spelled, argsSpelled_eq_self args h.2]
  | .newArray elem size, h => by rw [Expr.spelled, size.spelled_eq_self h.2.2]
  | .not pos operand, h => by rw [Expr.spelled, operand.spelled_eq_self h]
  | .binary op pos lhs rhs, h => by
    rw [Expr.spelled, lhs.spelled_eq_self h.1, rhs.spelled_eq_self h.2]

theorem Path.spelled_eq_self : (path : Path) → path.IsLegible Literal.IsUnsigned →
    path.spelled = path
  | .root name index, h => by rw [Path.spelled, indexSpelled_eq_self index h.2]
  | .field base name index, h => by
    rw [Path.spelled, base.spelled_eq_self h.1, indexSpelled_eq_self index h.2.2]

theorem indexSpelled_eq_self : (index : Option Expr) → indexLegible Literal.IsUnsigned index →
    indexSpelled index = index
  | none, _ => rfl
  | some e, h => by rw [indexSpelled, e.spelled_eq_self h]

theorem argsSpelled_eq_self : (args : List Expr) → argsLegible Literal.IsUnsigned args →
    argsSpelled args = args
  | [], _ => rfl
  | e :: es, h => by rw [argsSpelled, e.spelled_eq_self h.1, argsSpelled_eq_self es h.2]

end

/-- A program that can be written and whose literals have tokens of their own. -/
def Program.IsUnsigned (p : Program) : Prop := p.IsLegible Literal.IsUnsigned

theorem Program.IsUnsigned.spelled_eq_self {p : Program} (h : p.IsUnsigned) : p.spelled = p :=
  mapExprs_eq_self fun e he ↦ e.spelled_eq_self ((p.isLegible_iff.mp h).2 e he)

theorem Program.IsUnsigned.lexes {p : Program} (h : p.IsUnsigned) :
    Lexes p.text.toList p.printed :=
  (h.mono fun _ ↦ Literal.IsUnsigned.isLegible).lexes

theorem Program.IsUnsigned.derivable {p : Program} (h : p.IsUnsigned) {ls : List Lexeme}
    (hls : ls.map Lexeme.token = p.printed) :
    ∃ d : Derivation.Program, d.tokens = ls ∧ d.tree.unplaced = p.unplaced := by
  have hderivable := Program.IsLegible.derivable h hls
  rwa [h.spelled_eq_self] at hderivable

end Pebble
