import Pebble.Syntax

/-!
# The expressions of a program

Statements hold expressions, and some passes over a program look at nothing else: they replace every
expression by another one and leave the statements as they are. `Program.mapExprs` is such a pass,
and `Program.exprs` lists what it replaces, the expressions that are no part of another one.

Two facts about a whole program come down to facts about its expressions: a pass that leaves each of
them alone leaves the program alone, and what a pass makes of them is what the new program holds.
-/

namespace Pebble

/-- A path whose indices have been replaced. -/
def Path.mapIndices (f : Expr → Expr) : Path → Path
  | .root name index => .root name (index.map f)
  | .field base name index => .field (base.mapIndices f) name (index.map f)

/-- The indices of a path, from the left. -/
def Path.indices : Path → List Expr
  | .root _ index => index.toList
  | .field base _ index => base.indices ++ index.toList

mutual

/-- A statement whose expressions have been replaced. -/
def Stmt.mapExprs (f : Expr → Expr) : Stmt → Stmt
  | .var name type init => .var name type (init.map f)
  | .assign target value => .assign (target.mapIndices f) (f value)
  | .ret pos value => .ret pos (f value)
  | .whileLoop cond body => .whileLoop (f cond) (stmtsMapExprs f body)
  | .forLoop var first last body => .forLoop var (f first) (f last) (stmtsMapExprs f body)
  | .ifElse cond body other => .ifElse (f cond) (stmtsMapExprs f body) (other.mapExprs f)
  | .call callee args => .call callee (args.map f)

def Else.mapExprs (f : Expr → Expr) : Else → Else
  | .none => .none
  | .block body => .block (stmtsMapExprs f body)
  | .elseIf cond body other => .elseIf (f cond) (stmtsMapExprs f body) (other.mapExprs f)

def stmtsMapExprs (f : Expr → Expr) : List Stmt → List Stmt
  | [] => []
  | stmt :: stmts => stmt.mapExprs f :: stmtsMapExprs f stmts

end

def FunDef.mapExprs (f : Expr → Expr) (fn : FunDef) : FunDef :=
  { fn with body := stmtsMapExprs f fn.body }

/-- A program whose expressions have been replaced, those that are no part of another expression. -/
def Program.mapExprs (f : Expr → Expr) (p : Program) : Program :=
  { p with functions := p.functions.map (FunDef.mapExprs f) }

mutual

/-- The expressions of a statement in the order in which they are written. -/
def Stmt.exprs : Stmt → List Expr
  | .var _ _ init => init.toList
  | .assign target value => target.indices ++ [value]
  | .ret _ value => [value]
  | .whileLoop cond body => cond :: stmtsExprs body
  | .forLoop _ first last body => first :: last :: stmtsExprs body
  | .ifElse cond body other => cond :: (stmtsExprs body ++ other.exprs)
  | .call _ args => args

def Else.exprs : Else → List Expr
  | .none => []
  | .block body => stmtsExprs body
  | .elseIf cond body other => cond :: (stmtsExprs body ++ other.exprs)

def stmtsExprs : List Stmt → List Expr
  | [] => []
  | stmt :: stmts => stmt.exprs ++ stmtsExprs stmts

end

def FunDef.exprs (fn : FunDef) : List Expr := stmtsExprs fn.body

/-- The expressions of a program that are no part of another expression, in the order in which they
are written. -/
def Program.exprs (p : Program) : List Expr := p.functions.flatMap FunDef.exprs

/-! ## Replacing twice -/

section
variable (f g : Expr → Expr)

theorem Path.mapIndices_mapIndices :
    (path : Path) → (path.mapIndices f).mapIndices g = path.mapIndices (g ∘ f)
  | .root name index => by rw [mapIndices, mapIndices, mapIndices, Option.map_map]
  | .field base name index => by
    rw [mapIndices, mapIndices, mapIndices, Option.map_map, base.mapIndices_mapIndices]

mutual

theorem Stmt.mapExprs_mapExprs : (s : Stmt) → (s.mapExprs f).mapExprs g = s.mapExprs (g ∘ f)
  | .var name type init => by simp only [Stmt.mapExprs, Option.map_map]
  | .assign target value => by
    simp only [Stmt.mapExprs, Path.mapIndices_mapIndices, Function.comp_apply]
  | .ret pos value => rfl
  | .whileLoop cond body => by
    simp only [Stmt.mapExprs, stmtsMapExprs_stmtsMapExprs body, Function.comp_apply]
  | .forLoop var first last body => by
    simp only [Stmt.mapExprs, stmtsMapExprs_stmtsMapExprs body, Function.comp_apply]
  | .ifElse cond body other => by
    simp only [Stmt.mapExprs, stmtsMapExprs_stmtsMapExprs body, other.mapExprs_mapExprs,
      Function.comp_apply]
  | .call callee args => by simp only [Stmt.mapExprs, List.map_map]

theorem Else.mapExprs_mapExprs :
    (other : Else) → (other.mapExprs f).mapExprs g = other.mapExprs (g ∘ f)
  | .none => rfl
  | .block body => by simp only [Else.mapExprs, stmtsMapExprs_stmtsMapExprs body]
  | .elseIf cond body other => by
    simp only [Else.mapExprs, stmtsMapExprs_stmtsMapExprs body, other.mapExprs_mapExprs,
      Function.comp_apply]

theorem stmtsMapExprs_stmtsMapExprs :
    (body : List Stmt) → stmtsMapExprs g (stmtsMapExprs f body) = stmtsMapExprs (g ∘ f) body
  | [] => rfl
  | stmt :: stmts => by
    simp only [stmtsMapExprs, stmt.mapExprs_mapExprs, stmtsMapExprs_stmtsMapExprs stmts]

end

theorem Program.mapExprs_mapExprs (p : Program) :
    (p.mapExprs f).mapExprs g = p.mapExprs (g ∘ f) := by
  have hfn : FunDef.mapExprs g ∘ FunDef.mapExprs f = FunDef.mapExprs (g ∘ f) := by
    funext fn
    rw [Function.comp_apply, FunDef.mapExprs, FunDef.mapExprs, FunDef.mapExprs,
      stmtsMapExprs_stmtsMapExprs]
  rw [mapExprs, mapExprs, mapExprs, List.map_map, hfn]

/-- What is left of an expression that is not looked at. -/
def Expr.blank (_ : Expr) : Expr := .lit .null .start

/-- A program in which all expressions are the same: its structs, the signatures of its functions,
the shapes of its statements, the types it declares and the paths it assigns to. -/
def Program.outline (p : Program) : Program := p.mapExprs Expr.blank

theorem Program.outline_mapExprs (p : Program) : (p.mapExprs f).outline = p.outline :=
  p.mapExprs_mapExprs f Expr.blank

/-! ## What has been replaced -/

theorem Path.indices_mapIndices :
    (path : Path) → (path.mapIndices f).indices = path.indices.map f
  | .root name index => by cases index <;> rfl
  | .field base name index => by
    rw [mapIndices, indices, indices, List.map_append, base.indices_mapIndices]
    cases index <;> rfl

mutual

theorem Stmt.exprs_mapExprs : (s : Stmt) → (s.mapExprs f).exprs = s.exprs.map f
  | .var name type init => by cases init <;> rfl
  | .assign target value => by
    simp only [Stmt.mapExprs, Stmt.exprs, Path.indices_mapIndices, List.map_append, List.map_cons,
      List.map_nil]
  | .ret pos value => rfl
  | .whileLoop cond body => by
    simp only [Stmt.mapExprs, Stmt.exprs, stmtsExprs_mapExprs body, List.map_cons]
  | .forLoop var first last body => by
    simp only [Stmt.mapExprs, Stmt.exprs, stmtsExprs_mapExprs body, List.map_cons]
  | .ifElse cond body other => by
    simp only [Stmt.mapExprs, Stmt.exprs, stmtsExprs_mapExprs body, other.exprs_mapExprs,
      List.map_cons, List.map_append]
  | .call callee args => rfl

theorem Else.exprs_mapExprs : (other : Else) → (other.mapExprs f).exprs = other.exprs.map f
  | .none => rfl
  | .block body => by simp only [Else.mapExprs, Else.exprs, stmtsExprs_mapExprs body]
  | .elseIf cond body other => by
    simp only [Else.mapExprs, Else.exprs, stmtsExprs_mapExprs body, other.exprs_mapExprs,
      List.map_cons, List.map_append]

theorem stmtsExprs_mapExprs :
    (body : List Stmt) → stmtsExprs (stmtsMapExprs f body) = (stmtsExprs body).map f
  | [] => rfl
  | stmt :: stmts => by
    simp only [stmtsMapExprs, stmtsExprs, stmt.exprs_mapExprs, stmtsExprs_mapExprs stmts,
      List.map_append]

end

theorem Program.exprs_mapExprs (p : Program) : (p.mapExprs f).exprs = p.exprs.map f := by
  rw [exprs, exprs, mapExprs, List.flatMap_map, List.map_flatMap]
  congr 1
  funext fn
  exact stmtsExprs_mapExprs f fn.body

end

/-! ## Replacing nothing -/

section
variable {f : Expr → Expr}

theorem map_eq_self {α : Type} {f : α → α} {l : List α} (h : ∀ a ∈ l, f a = a) : l.map f = l :=
  (List.map_congr_left h).trans (List.map_id' l)

theorem index_map_eq_self {index : Option Expr} (h : ∀ e ∈ index.toList, f e = e) :
    index.map f = index := by
  cases index with
  | none => rfl
  | some e => rw [Option.map_some, h e (List.mem_singleton_self e)]

theorem Path.mapIndices_eq_self : (path : Path) → (∀ e ∈ path.indices, f e = e) →
    path.mapIndices f = path
  | .root name index, h => by rw [mapIndices, index_map_eq_self h]
  | .field base name index, h => by
    obtain ⟨hbase, hindex⟩ := List.forall_mem_append.mp h
    rw [mapIndices, base.mapIndices_eq_self hbase, index_map_eq_self hindex]

mutual

theorem Stmt.mapExprs_eq_self : (s : Stmt) → (∀ e ∈ s.exprs, f e = e) → s.mapExprs f = s
  | .var name type init, h => by rw [Stmt.mapExprs, index_map_eq_self h]
  | .assign target value, h => by
    obtain ⟨htarget, hvalue⟩ := List.forall_mem_append.mp h
    rw [Stmt.mapExprs, target.mapIndices_eq_self htarget, List.forall_mem_singleton.mp hvalue]
  | .ret pos value, h => by rw [Stmt.mapExprs, List.forall_mem_singleton.mp h]
  | .whileLoop cond body, h => by
    obtain ⟨hcond, hbody⟩ := List.forall_mem_cons.mp h
    rw [Stmt.mapExprs, hcond, stmtsMapExprs_eq_self body hbody]
  | .forLoop var first last body, h => by
    obtain ⟨hfirst, h⟩ := List.forall_mem_cons.mp h
    obtain ⟨hlast, hbody⟩ := List.forall_mem_cons.mp h
    rw [Stmt.mapExprs, hfirst, hlast, stmtsMapExprs_eq_self body hbody]
  | .ifElse cond body other, h => by
    obtain ⟨hcond, h⟩ := List.forall_mem_cons.mp h
    obtain ⟨hbody, hother⟩ := List.forall_mem_append.mp h
    rw [Stmt.mapExprs, hcond, stmtsMapExprs_eq_self body hbody, other.mapExprs_eq_self hother]
  | .call callee args, h => by rw [Stmt.mapExprs, map_eq_self (l := args) h]

theorem Else.mapExprs_eq_self :
    (other : Else) → (∀ e ∈ other.exprs, f e = e) → other.mapExprs f = other
  | .none, _ => rfl
  | .block body, h => by rw [Else.mapExprs, stmtsMapExprs_eq_self body h]
  | .elseIf cond body other, h => by
    obtain ⟨hcond, h⟩ := List.forall_mem_cons.mp h
    obtain ⟨hbody, hother⟩ := List.forall_mem_append.mp h
    rw [Else.mapExprs, hcond, stmtsMapExprs_eq_self body hbody, other.mapExprs_eq_self hother]

theorem stmtsMapExprs_eq_self :
    (body : List Stmt) → (∀ e ∈ stmtsExprs body, f e = e) → stmtsMapExprs f body = body
  | [], _ => rfl
  | stmt :: stmts, h => by
    obtain ⟨hstmt, hstmts⟩ := List.forall_mem_append.mp h
    rw [stmtsMapExprs, stmt.mapExprs_eq_self hstmt, stmtsMapExprs_eq_self stmts hstmts]

end

theorem Program.mapExprs_eq_self {p : Program} (h : ∀ e ∈ p.exprs, f e = e) :
    p.mapExprs f = p := by
  have hfns : p.functions.map (FunDef.mapExprs f) = p.functions := by
    refine map_eq_self fun fn hfn ↦ ?_
    rw [FunDef.mapExprs, stmtsMapExprs_eq_self fn.body fun e he ↦
      h e (List.mem_flatMap.mpr ⟨fn, hfn, he⟩)]
  rw [mapExprs, hfns]

end

end Pebble
