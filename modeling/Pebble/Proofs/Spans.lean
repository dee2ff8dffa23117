import Mathlib.Data.List.Flatten
import Mathlib.Tactic.Common
import Pebble.Proofs.Derivations

/-!
# Where the parts of a tree come from

Names, literals, types, operators and returns of a tree carry a position. The marks of a tree are
the tokens these parts say they come from, in the order of the text. For the tree of a derivation
they are found among its tokens, each at its place: the marks are a sublist of the tokens.

Structs and functions are kept apart in a program, so there each of the two lists has its marks in
order.
-/

namespace Pebble

/-- A type comes from the word that names it, and an array type from its bracket. -/
def TypeRef.mark (t : TypeRef) : Lexeme :=
  ⟨if t.isArray then .punct .lbracket else t.name.token, t.pos⟩

mutual

def Expr.marks : Expr → List Lexeme
  | .lit value pos => [⟨.lit value, pos⟩]
  | .path p => p.marks
  | .call callee args => callee.lexeme :: argsMarks args
  | .newStruct name args => name.lexeme :: argsMarks args
  | .newArray elem size => elem.mark :: size.marks
  | .not pos operand => ⟨.keyword .notKw, pos⟩ :: operand.marks
  | .binary op pos lhs rhs => lhs.marks ++ ⟨op.token, pos⟩ :: rhs.marks

def Path.marks : Path → List Lexeme
  | .root name index => name.lexeme :: indexMarks index
  | .field base name index => base.marks ++ name.lexeme :: indexMarks index

def indexMarks : Option Expr → List Lexeme
  | none => []
  | some e => e.marks

def argsMarks : List Expr → List Lexeme
  | [] => []
  | e :: es => e.marks ++ argsMarks es

end

mutual

def Stmt.marks : Stmt → List Lexeme
  | .var name type init =>
    name.lexeme :: ((type.map TypeRef.mark).toList ++ (init.map Expr.marks).getD [])
  | .assign target value => target.marks ++ value.marks
  | .ret pos value => ⟨.keyword .returnKw, pos⟩ :: value.marks
  | .whileLoop cond body => cond.marks ++ stmtsMarks body
  | .forLoop var first last body => var.lexeme :: (first.marks ++ (last.marks ++ stmtsMarks body))
  | .ifElse cond body other => cond.marks ++ (stmtsMarks body ++ other.marks)
  | .call callee args => callee.lexeme :: argsMarks args

def Else.marks : Else → List Lexeme
  | .none => []
  | .block body => stmtsMarks body
  | .elseIf cond body other => cond.marks ++ (stmtsMarks body ++ other.marks)

def stmtsMarks : List Stmt → List Lexeme
  | [] => []
  | s :: ss => s.marks ++ stmtsMarks ss

end

def VarDef.marks (d : VarDef) : List Lexeme :=
  [d.name.lexeme, d.type.mark]

def StructDef.marks (d : StructDef) : List Lexeme :=
  d.name.lexeme :: d.fields.flatMap VarDef.marks

def FunDef.marks (d : FunDef) : List Lexeme :=
  d.returnType.mark :: d.name.lexeme :: (d.params.flatMap VarDef.marks ++ stmtsMarks d.body)

namespace Derivation

mutual

theorem Primary.marks_sublist : (d : Primary) → d.tree.marks.Sublist d.tokens
  | .lit _ _ => .refl _
  | .path p => p.marks_sublist
  | .call _ _ args => ((argsMarks_sublist args).cons _).cons_cons _
  | .newStruct _ _ _ args => (((argsMarks_sublist args).cons _).cons_cons _).cons _
  | .newArray _ _ _ _ size _ =>
    (((size.marks_sublist.trans (List.sublist_append_left _ _)).cons _).cons_cons _).cons _
  | .not _ operand => operand.marks_sublist.cons_cons _
  | .paren _ e _ => (e.marks_sublist.trans (List.sublist_append_left _ _)).cons _

theorem Expr.marks_sublist : {n : Nat} → (e : Expr n) → e.tree.marks.Sublist e.tokens
  | _, .primary d => d.marks_sublist
  | _, .binary _ _ _ lhs rhs => lhs.marks_sublist.append (rhs.marks_sublist.cons_cons _)

theorem Path.marks_sublist : (p : Path) → p.tree.marks.Sublist p.tokens
  | .root _ index => index.marks_sublist.cons_cons _
  | .field base _ _ index => base.marks_sublist.append ((index.marks_sublist.cons_cons _).cons _)

theorem Index.marks_sublist : (index : Index) → (indexMarks index.tree).Sublist index.tokens
  | .none => .refl _
  | .some _ e _ => (e.marks_sublist.trans (List.sublist_append_left _ _)).cons _

theorem argsMarks_sublist : (args : Listing (Expr 0)) →
    (argsMarks (argsTree args)).Sublist (argsTokens args)
  | .empty _ => List.nil_sublist _
  | .items first rest => first.marks_sublist.append (argsRestMarks_sublist rest)

theorem argsRestMarks_sublist : (rest : Items (Expr 0)) →
    (argsMarks (argsRestTree rest)).Sublist (argsRestTokens rest)
  | .close _ => List.nil_sublist _
  | .comma _ e rest => (e.marks_sublist.append (argsRestMarks_sublist rest)).cons _

end

/-! ## Types and lists -/

theorem DataType.mark_sublist (d : DataType) : [d.tree.mark].Sublist d.tokens := by
  cases d with
  | plain => exact .refl _
  | array => exact (List.nil_sublist _).cons_cons _

theorem Field.marks_sublist (d : Field) : d.tree.marks.Sublist d.tokens :=
  (d.type.mark_sublist.cons _).cons_cons _

theorem itemsMarks_sublist {close : Punct} : (rest : Items Field) →
    ((rest.toList.map Field.tree).flatMap VarDef.marks).Sublist (rest.tokens close Field.tokens)
  | .close _ => List.nil_sublist _
  | .comma _ d rest => (d.marks_sublist.append (itemsMarks_sublist rest)).cons _

theorem fieldsMarks_sublist {close : Punct} (l : Listing Field) :
    ((l.toList.map Field.tree).flatMap VarDef.marks).Sublist (l.tokens close Field.tokens) := by
  cases l with
  | empty => exact List.nil_sublist _
  | items first rest => exact first.marks_sublist.append (itemsMarks_sublist rest)

/-! ## Statements -/

theorem VarInit.marks_sublist (x : Name) (init : VarInit) :
    (init.tree x).marks.Sublist (x.lexeme :: init.tokens) := by
  cases init with
  | value _ e => exact (e.marks_sublist.cons _).cons_cons _
  | typed _ type => exact (type.mark_sublist.cons _).cons_cons _
  | both _ type _ e =>
    exact ((type.mark_sublist.append (e.marks_sublist.cons _)).cons _).cons_cons _

mutual

theorem Stmt.marks_sublist : (s : Stmt) → s.tree.marks.Sublist s.tokens
  | .var _ x init => (init.marks_sublist x).cons _
  | .assign target _ value => target.marks_sublist.append (value.marks_sublist.cons _)
  | .ret _ value => value.marks_sublist.cons_cons _
  | .whileLoop _ cond body => (cond.marks_sublist.append body.marks_sublist).cons _
  | .forLoop _ _ _ first _ last body =>
    (((first.marks_sublist.append
      ((last.marks_sublist.append body.marks_sublist).cons _)).cons _).cons_cons _).cons _
  | .ifElse (.mk _ cond body other) =>
    (cond.marks_sublist.append (body.marks_sublist.append other.marks_sublist)).cons _
  | .call _ _ args => ((argsMarks_sublist args).cons _).cons_cons _

theorem Else.marks_sublist : (other : Else) → other.tree.marks.Sublist other.tokens
  | .none => .refl _
  | .block _ body => body.marks_sublist.cons _
  | .elseIf _ (.mk _ cond body other) =>
    ((cond.marks_sublist.append (body.marks_sublist.append other.marks_sublist)).cons _).cons _

theorem Block.marks_sublist : (b : Block) → (stmtsMarks b.tree).Sublist b.tokens
  | .mk _ ss _ => ((stmtsMarks_sublist ss).trans (List.sublist_append_left _ _)).cons _

theorem stmtsMarks_sublist : (ss : List Stmt) → (stmtsMarks (stmtsTree ss)).Sublist (stmtsTokens ss)
  | [] => .refl _
  | s :: ss => s.marks_sublist.append (stmtsMarks_sublist ss)

end

/-! ## Definitions -/

theorem Struct.marks_sublist (d : Struct) : d.tree.marks.Sublist d.tokens :=
  (((fieldsMarks_sublist d.fields).cons _).cons_cons _).cons _

theorem Function.marks_sublist (d : Function) : d.tree.marks.Sublist d.tokens := by
  have htype : [d.returnType.tree.mark].Sublist d.returnType.tokens := by
    cases d.returnType with
    | void => exact .refl _
    | value type => exact type.mark_sublist
  exact htype.append
    ((((fieldsMarks_sublist d.params).append d.body.marks_sublist).cons _).cons_cons _)

/-- What definitions contribute to a list comes in order from their tokens. -/
theorem filterMap_sublist {α : Type} {f : Definition → Option α} {marks : α → List Lexeme}
    (hf : ∀ d a, f d = some a → (marks a).Sublist d.tokens) (ds : List Definition) :
    ((ds.filterMap f).flatMap marks).Sublist (ds.flatMap Definition.tokens) := by
  induction ds with
  | nil => exact .refl _
  | cons d ds ih =>
    rw [List.filterMap_cons, List.flatMap_cons]
    split
    · exact ih.trans (List.sublist_append_right _ _)
    · next a ha =>
      rw [List.flatMap_cons]
      exact (hf d a ha).append ih

theorem Program.structMarks_sublist (d : Program) :
    (d.tree.structs.flatMap StructDef.marks).Sublist d.tokens := by
  refine filterMap_sublist (fun x a ha ↦ ?_) d.definitions
  cases x <;> cases ha
  exact Struct.marks_sublist _

theorem Program.functionMarks_sublist (d : Program) :
    (d.tree.functions.flatMap FunDef.marks).Sublist d.tokens := by
  refine filterMap_sublist (fun x a ha ↦ ?_) d.definitions
  cases x <;> cases ha
  exact Function.marks_sublist _

end Derivation

end Pebble
