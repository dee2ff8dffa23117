import Mathlib.Tactic.Common
import Pebble.Proofs.Expressions
import Pebble.Proofs.PrintedTokens

/-!
# Printed trees have derivations

Whatever places the tokens of a printed tree have, they are the tokens of a derivation, and its tree
is the printed one up to the places, with numbers below zero spelled out. The parentheses of the
printer stand just where a derivation needs them: an operand that binds less tightly than its place
asks for is printed as a primary, and so is a number below zero.

Reading back gives a tree with other places, so trees are compared after all places have been
removed. How deep the derivation nests does not depend on places either: `printedDepth` counts it
along the printed tree, parentheses included.
-/

namespace Pebble

/-! ## Trees without places -/

def Name.unplaced (x : Name) : Name :=
  ⟨x.text, .start⟩

def TypeRef.unplaced (t : TypeRef) : TypeRef :=
  { t with pos := .start }

mutual

/-- An expression with all its parts at one place. -/
def Expr.unplaced : Expr → Expr
  | .lit value _ => .lit value .start
  | .path p => .path p.unplaced
  | .call callee args => .call callee.unplaced (argsUnplaced args)
  | .newStruct name args => .newStruct name.unplaced (argsUnplaced args)
  | .newArray elem size => .newArray elem.unplaced size.unplaced
  | .not _ operand => .not .start operand.unplaced
  | .binary op _ lhs rhs => .binary op .start lhs.unplaced rhs.unplaced

def Path.unplaced : Path → Path
  | .root name index => .root name.unplaced (indexUnplaced index)
  | .field base name index => .field base.unplaced name.unplaced (indexUnplaced index)

def indexUnplaced : Option Expr → Option Expr
  | none => none
  | some e => some e.unplaced

def argsUnplaced : List Expr → List Expr
  | [] => []
  | e :: es => e.unplaced :: argsUnplaced es

end

mutual

/-- A statement with all its parts at one place. -/
def Stmt.unplaced : Stmt → Stmt
  | .var name type init =>
    .var name.unplaced (type.map TypeRef.unplaced) (init.map Expr.unplaced)
  | .assign target value => .assign target.unplaced value.unplaced
  | .ret _ value => .ret .start value.unplaced
  | .whileLoop cond body => .whileLoop cond.unplaced (stmtsUnplaced body)
  | .forLoop var first last body =>
    .forLoop var.unplaced first.unplaced last.unplaced (stmtsUnplaced body)
  | .ifElse cond body other => .ifElse cond.unplaced (stmtsUnplaced body) other.unplaced
  | .call callee args => .call callee.unplaced (argsUnplaced args)

def Else.unplaced : Else → Else
  | .none => .none
  | .block body => .block (stmtsUnplaced body)
  | .elseIf cond body other => .elseIf cond.unplaced (stmtsUnplaced body) other.unplaced

def stmtsUnplaced : List Stmt → List Stmt
  | [] => []
  | s :: ss => s.unplaced :: stmtsUnplaced ss

end

def VarDef.unplaced (v : VarDef) : VarDef :=
  ⟨v.name.unplaced, v.type.unplaced⟩

def StructDef.unplaced (s : StructDef) : StructDef :=
  ⟨s.name.unplaced, s.fields.map VarDef.unplaced⟩

def FunDef.unplaced (f : FunDef) : FunDef :=
  ⟨f.name.unplaced, f.returnType.unplaced, f.params.map VarDef.unplaced, stmtsUnplaced f.body⟩

/-- A program with all its parts at one place: two programs with the same one differ in nothing but
places. -/
def Program.unplaced (p : Program) : Program :=
  ⟨p.structs.map StructDef.unplaced, p.functions.map FunDef.unplaced⟩

theorem argsUnplaced_eq : (es : List Expr) → argsUnplaced es = es.map Expr.unplaced
  | [] => rfl
  | e :: es => by rw [argsUnplaced, argsUnplaced_eq es, List.map_cons]

/-! ## Trees with numbers spelled out -/

/-- The expression that a printed literal is read as. -/
def Literal.spelled (v : Literal) (pos : Pos) : Expr :=
  match v.spelling with
  | .plain => .lit v pos
  | .difference a b => .binary .sub pos (.lit a pos) (.lit b pos)
  | .differences a b c => .binary .sub pos (.binary .sub pos (.lit a pos) (.lit b pos)) (.lit c pos)
  | .quotient a b => .binary .div pos (.lit a pos) (.lit b pos)

mutual

/-- An expression whose numbers below zero are spelled out. -/
def Expr.spelled : Expr → Expr
  | .lit value pos => value.spelled pos
  | .path p => .path p.spelled
  | .call callee args => .call callee (argsSpelled args)
  | .newStruct name args => .newStruct name (argsSpelled args)
  | .newArray elem size => .newArray elem size.spelled
  | .not pos operand => .not pos operand.spelled
  | .binary op pos lhs rhs => .binary op pos lhs.spelled rhs.spelled

def Path.spelled : Path → Path
  | .root name index => .root name (indexSpelled index)
  | .field base name index => .field base.spelled name (indexSpelled index)

def indexSpelled : Option Expr → Option Expr
  | none => none
  | some index => some index.spelled

def argsSpelled : List Expr → List Expr
  | [] => []
  | arg :: args => arg.spelled :: argsSpelled args

end

/-- A program whose numbers below zero are spelled out. -/
def Program.spelled (p : Program) : Program := p.mapExprs Expr.spelled

theorem argsSpelled_eq : (args : List Expr) → argsSpelled args = args.map Expr.spelled
  | [] => rfl
  | arg :: args => by rw [argsSpelled, argsSpelled_eq args, List.map_cons]

theorem Path.spelled_eq : (path : Path) → path.spelled = path.mapIndices Expr.spelled
  | .root name index => by cases index <;> rfl
  | .field base name index => by
    rw [Path.spelled, mapIndices, base.spelled_eq]
    cases index <;> rfl

/-! ## How deep printed trees nest -/

/-- The depth of what nests `n` deep, in parentheses if asked for. -/
def parenthesizedDepth (yes : Bool) (n : Nat) : Nat :=
  if yes then n + 1 else n

/-- How deep a printed literal nests: parentheses are a level. -/
def Literal.printedDepth (v : Literal) : Nat :=
  match v.spelling with
  | .plain => 1
  | .difference _ _ | .differences _ _ _ | .quotient _ _ => 2

mutual

/-- How deep a printed expression nests. -/
def Expr.printedDepth : Expr → Nat
  | .lit value _ => value.printedDepth
  | .path p => p.printedDepth + 1
  | .call _ args => argsPrintedDepth args + 1
  | .newStruct _ args => argsPrintedDepth args + 1
  | .newArray _ size => size.printedDepth + 1
  | .not _ operand => parenthesizedDepth operand.isOperation operand.printedDepth + 1
  | .binary op _ lhs rhs =>
    max (parenthesizedDepth (lhs.isLooserThan op.precedence) lhs.printedDepth)
      (parenthesizedDepth (rhs.isLooserThan (op.precedence + 1)) rhs.printedDepth)

def Path.printedDepth : Path → Nat
  | .root _ index => indexPrintedDepth index
  | .field base _ index => max base.printedDepth (indexPrintedDepth index)

def indexPrintedDepth : Option Expr → Nat
  | none => 0
  | some index => index.printedDepth

def argsPrintedDepth : List Expr → Nat
  | [] => 0
  | arg :: args => max arg.printedDepth (argsPrintedDepth args)

end

mutual

/-- How deep a printed statement nests. -/
def Stmt.printedDepth : Stmt → Nat
  | .var _ _ init => indexPrintedDepth init
  | .assign target value => max target.printedDepth value.printedDepth
  | .ret _ value => value.printedDepth
  | .whileLoop cond body => max cond.printedDepth (stmtsPrintedDepth body + 1)
  | .forLoop _ first last body =>
    max first.printedDepth (max last.printedDepth (stmtsPrintedDepth body + 1))
  | .ifElse cond body other =>
    max cond.printedDepth (max (stmtsPrintedDepth body + 1) other.printedDepth)
  | .call _ args => argsPrintedDepth args

def Else.printedDepth : Else → Nat
  | .none => 0
  | .block body => stmtsPrintedDepth body + 1
  | .elseIf cond body other =>
    max cond.printedDepth (max (stmtsPrintedDepth body + 1) other.printedDepth)

def stmtsPrintedDepth : List Stmt → Nat
  | [] => 0
  | s :: ss => max s.printedDepth (stmtsPrintedDepth ss)

end

def FunDef.printedDepth (f : FunDef) : Nat := stmtsPrintedDepth f.body + 1

/-- How deep a printed program nests. -/
def Program.printedDepth (p : Program) : Nat :=
  (p.functions.map FunDef.printedDepth).foldr max 0

theorem argsPrintedDepth_eq : (args : List Expr) →
    argsPrintedDepth args = (args.map Expr.printedDepth).foldr max 0
  | [] => rfl
  | arg :: args => by
    rw [argsPrintedDepth, argsPrintedDepth_eq args, List.map_cons, List.foldr_cons]

/-! ## Tokens with places -/

section
variable {t : Token} {ts : List Token} {ls : List Lexeme}

theorem map_token_eq_cons (h : ls.map Lexeme.token = t :: ts) :
    ∃ pos ls', ls = ⟨t, pos⟩ :: ls' ∧ ls'.map Lexeme.token = ts := by
  obtain ⟨⟨_, pos⟩, ls', rfl, rfl, hls'⟩ := List.map_eq_cons_iff.mp h
  exact ⟨pos, ls', rfl, hls'⟩

theorem map_token_eq_singleton (h : ls.map Lexeme.token = [t]) : ∃ pos, ls = [⟨t, pos⟩] := by
  obtain ⟨pos, ls', rfl, hls'⟩ := map_token_eq_cons h
  exact ⟨pos, by rw [List.map_eq_nil_iff.mp hls']⟩

/-- Tokens followed by one more. -/
theorem map_token_eq_concat (h : ls.map Lexeme.token = ts ++ [t]) :
    ∃ ls' pos, ls = ls' ++ [⟨t, pos⟩] ∧ ls'.map Lexeme.token = ts := by
  obtain ⟨ls', last, rfl, hls', hlast⟩ := List.map_eq_append_iff.mp h
  obtain ⟨pos, rfl⟩ := map_token_eq_singleton hlast
  exact ⟨ls', pos, rfl, hls'⟩

end

namespace Derivation

/-- Items with commas between them and a closing sign behind are a list of what the items are
derived from. -/
theorem exists_listing {α β δ : Type} {close : Punct} {printed : α → List Token}
    {ofItem : δ → List Lexeme} {ofTree : α → β} (tree : δ → β) (pos : Pos) (xs : List α)
    (hxs : ∀ x ∈ xs, ∀ ls, ls.map Lexeme.token = printed x → ∃ d, ofItem d = ls ∧ tree d = ofTree x)
    (ls : List Lexeme) (h : ls.map Lexeme.token = [.punct .comma].intercalate (xs.map printed)) :
    ∃ d : Listing δ, d.tokens close ofItem = ls ++ [⟨.punct close, pos⟩] ∧
      d.toList.map tree = xs.map ofTree := by
  induction xs generalizing ls with
  | nil =>
    rw [List.map_eq_nil_iff.mp h]
    exact ⟨.empty pos, rfl, rfl⟩
  | cons x xs ih =>
    obtain ⟨hx, hxs⟩ := List.forall_mem_cons.mp hxs
    cases xs with
    | nil =>
      rw [List.map_singleton, List.intercalate_singleton] at h
      obtain ⟨d, rfl, hd⟩ := hx ls h
      exact ⟨.items d (.close pos), rfl, congrArg (· :: []) hd⟩
    | cons x' xs =>
      rw [List.map_cons, List.map_cons, List.intercalate_cons_cons, List.append_assoc] at h
      obtain ⟨ls₁, ls₂, rfl, h₁, h₂⟩ := List.map_eq_append_iff.mp h
      obtain ⟨comma, ls₃, rfl, h₃⟩ := map_token_eq_cons h₂
      obtain ⟨d, rfl, hd⟩ := hx ls₁ h₁
      obtain ⟨ds, htokens, htree⟩ := ih hxs ls₃ h₃
      cases ds with
      | empty => cases htree
      | items first rest =>
        refine ⟨.items d (.comma comma first rest), ?_, ?_⟩
        · rw [Listing.tokens] at htokens
          rw [Listing.tokens, Items.tokens, htokens, List.append_assoc, List.cons_append]
        · exact congrArg₂ List.cons hd htree

end Derivation

theorem TypeName.IsLegible.ne_void {name : TypeName} (h : name.IsLegible) : name ≠ .void := by
  rintro rfl
  exact h

/-! ## Expressions -/

/-- The tokens of the printed expression are derived wherever it may stand without parentheses. -/
def Expr.Derivable (e : Expr) : Prop :=
  ∀ n, e.isLooserThan n = false → ∀ ls, ls.map Lexeme.token = e.printed →
    ∃ d : Derivation.Expr n, d.tokens = ls ∧ d.tree.unplaced = e.spelled.unplaced ∧
      d.depth = e.printedDepth

namespace Expr.Derivable

variable {e : Expr} {ls : List Lexeme}

theorem of_primary (h : ∀ ls, ls.map Lexeme.token = e.printed →
    ∃ d : Derivation.Primary, d.tokens = ls ∧ d.tree.unplaced = e.spelled.unplaced ∧
      d.depth = e.printedDepth) :
    e.Derivable := by
  intro n _ ls hls
  obtain ⟨d, htokens, htree, hdepth⟩ := h ls hls
  exact ⟨.primary d, htokens, htree, hdepth⟩

/-- Anything may stand where no operator is too loose. -/
theorem whole (he : e.Derivable) (hls : ls.map Lexeme.token = e.printed) :
    ∃ d : Derivation.Expr 0, d.tokens = ls ∧ d.tree.unplaced = e.spelled.unplaced ∧
      d.depth = e.printedDepth :=
  he 0 (by cases e <;> rfl) ls hls

theorem parenthesized (he : e.Derivable)
    (hls : ls.map Lexeme.token = parenthesizedTokens true e.printed) :
    ∃ d : Derivation.Primary, d.tokens = ls ∧ d.tree.unplaced = e.spelled.unplaced ∧
      d.depth = parenthesizedDepth true e.printedDepth := by
  obtain ⟨lparen, ls₁, rfl, h₁⟩ := map_token_eq_cons hls
  obtain ⟨ls₂, rparen, rfl, h₂⟩ := map_token_eq_concat h₁
  obtain ⟨d, rfl, htree, hdepth⟩ := he.whole h₂
  exact ⟨.paren lparen d rparen, rfl, htree, congrArg (· + 1) hdepth⟩

/-- An operand of a binary operator, with parentheses where it needs them. -/
theorem operand (he : e.Derivable) {n : Nat}
    (hls : ls.map Lexeme.token = parenthesizedTokens (e.isLooserThan n) e.printed) :
    ∃ d : Derivation.Expr n, d.tokens = ls ∧ d.tree.unplaced = e.spelled.unplaced ∧
      d.depth = parenthesizedDepth (e.isLooserThan n) e.printedDepth := by
  cases hlooser : e.isLooserThan n with
  | false =>
    rw [hlooser] at hls
    exact he n hlooser ls hls
  | true =>
    rw [hlooser] at hls
    obtain ⟨d, htokens, htree, hdepth⟩ := he.parenthesized hls
    exact ⟨.primary d, htokens, htree, hdepth⟩

/-- What `not` is applied to. -/
theorem negated (he : e.Derivable)
    (hls : ls.map Lexeme.token = parenthesizedTokens e.isOperation e.printed) :
    ∃ d : Derivation.Primary, d.tokens = ls ∧ d.tree.unplaced = e.spelled.unplaced ∧
      d.depth = parenthesizedDepth e.isOperation e.printedDepth := by
  cases hoperation : e.isOperation with
  | false =>
    -- no operator binds tighter than the tightest, so this is a primary
    have hlooser : e.isLooserThan (BinOp.maxPrecedence + 1) = false := by
      cases e <;> first | rfl | cases hoperation
    rw [hoperation] at hls
    obtain ⟨d, htokens, htree, hdepth⟩ := he _ hlooser ls hls
    cases d with
    | primary d => exact ⟨d, htokens, htree, hdepth⟩
    | binary op h =>
      have : op.precedence ≤ BinOp.maxPrecedence := by cases op <;> decide
      omega
  | true =>
    rw [hoperation] at hls
    exact he.parenthesized hls

end Expr.Derivable

/-- Arguments and the parenthesis behind them. -/
theorem exists_args {args : List Expr} (hargs : ∀ e ∈ args, e.Derivable) {ls : List Lexeme}
    (hls : ls.map Lexeme.token = argsPrinted args ++ [.punct .rparen]) :
    ∃ d : Derivation.Listing (Derivation.Expr 0), Derivation.argsTokens d = ls ∧
      argsUnplaced (Derivation.argsTree d) = argsUnplaced (argsSpelled args) ∧
      Derivation.argsDepth d = argsPrintedDepth args := by
  obtain ⟨ls', rparen, rfl, hls'⟩ := map_token_eq_concat hls
  rw [argsPrinted_eq] at hls'
  have hitem : ∀ e ∈ args, ∀ ls, ls.map Lexeme.token = e.printed → ∃ d : Derivation.Expr 0,
      d.tokens = ls ∧ (d.tree.unplaced, d.depth) = (e.spelled.unplaced, e.printedDepth) := by
    intro e he ls hls
    obtain ⟨d, htokens, htree, hdepth⟩ := (hargs e he).whole hls
    exact ⟨d, htokens, Prod.ext htree hdepth⟩
  obtain ⟨d, htokens, hpairs⟩ := Derivation.exists_listing _ rparen args hitem ls' hls'
  have htree := congrArg (List.map Prod.fst) hpairs
  have hdepth := congrArg (List.map Prod.snd) hpairs
  rw [List.map_map, List.map_map] at htree hdepth
  refine ⟨d, (Derivation.argsTokens_eq d).trans htokens, ?_, ?_⟩
  · rw [Derivation.argsTree_eq, argsUnplaced_eq, argsUnplaced_eq, argsSpelled_eq, List.map_map,
      List.map_map]
    exact htree
  · rw [Derivation.argsDepth_eq, argsPrintedDepth_eq]
    exact congrArg (List.foldr max 0) hdepth

/-- A literal is read as a literal, or as a difference or a quotient in parentheses. -/
theorem Literal.derivable (v : Literal) (pos : Pos) : (Expr.lit v pos).Derivable := by
  refine .of_primary fun ls hls ↦ ?_
  rw [Expr.printed, Literal.printed] at hls
  rw [Expr.spelled, Literal.spelled, Expr.printedDepth, Literal.printedDepth]
  cases hv : v.spelling with
  | plain =>
    rw [hv] at hls
    obtain ⟨pos, rfl⟩ := map_token_eq_singleton hls
    exact ⟨.lit v pos, rfl, rfl, rfl⟩
  | difference a b =>
    rw [hv] at hls
    obtain ⟨lparen, ls₁, rfl, h₁⟩ := map_token_eq_cons hls
    obtain ⟨posA, ls₂, rfl, h₂⟩ := map_token_eq_cons h₁
    obtain ⟨minus, ls₃, rfl, h₃⟩ := map_token_eq_cons h₂
    obtain ⟨posB, ls₄, rfl, h₄⟩ := map_token_eq_cons h₃
    obtain ⟨rparen, rfl⟩ := map_token_eq_singleton h₄
    exact ⟨.paren lparen (.binary .sub (Nat.zero_le _) minus (.primary (.lit a posA))
      (.primary (.lit b posB))) rparen, rfl, rfl, rfl⟩
  | differences a b c =>
    rw [hv] at hls
    obtain ⟨lparen, ls₁, rfl, h₁⟩ := map_token_eq_cons hls
    obtain ⟨posA, ls₂, rfl, h₂⟩ := map_token_eq_cons h₁
    obtain ⟨minus, ls₃, rfl, h₃⟩ := map_token_eq_cons h₂
    obtain ⟨posB, ls₄, rfl, h₄⟩ := map_token_eq_cons h₃
    obtain ⟨minus', ls₅, rfl, h₅⟩ := map_token_eq_cons h₄
    obtain ⟨posC, ls₆, rfl, h₆⟩ := map_token_eq_cons h₅
    obtain ⟨rparen, rfl⟩ := map_token_eq_singleton h₆
    exact ⟨.paren lparen (.binary .sub (Nat.zero_le _) minus'
      (.binary .sub (Nat.le_refl _) minus (.primary (.lit a posA)) (.primary (.lit b posB)))
      (.primary (.lit c posC))) rparen, rfl, rfl, rfl⟩
  | quotient a b =>
    rw [hv] at hls
    obtain ⟨lparen, ls₁, rfl, h₁⟩ := map_token_eq_cons hls
    obtain ⟨posA, ls₂, rfl, h₂⟩ := map_token_eq_cons h₁
    obtain ⟨slash, ls₃, rfl, h₃⟩ := map_token_eq_cons h₂
    obtain ⟨posB, ls₄, rfl, h₄⟩ := map_token_eq_cons h₃
    obtain ⟨rparen, rfl⟩ := map_token_eq_singleton h₄
    exact ⟨.paren lparen (.binary .div (Nat.zero_le _) slash (.primary (.lit a posA))
      (.primary (.lit b posB))) rparen, rfl, rfl, rfl⟩

section
variable {ok : Literal → Prop}

mutual

theorem Expr.derivable : (e : Expr) → e.IsLegible ok → e.Derivable
  | .lit value pos, _ => value.derivable pos
  | .path p, h => .of_primary fun ls hls ↦ by
    obtain ⟨d, htokens, htree, hdepth⟩ := p.derivable h ls hls
    exact ⟨.path d, htokens, congrArg Expr.path htree, congrArg (· + 1) hdepth⟩
  | .call callee args, h => .of_primary fun ls hls ↦ by
    obtain ⟨pos, ls₁, rfl, h₁⟩ := map_token_eq_cons hls
    obtain ⟨lparen, ls₂, rfl, h₂⟩ := map_token_eq_cons h₁
    obtain ⟨d, rfl, htree, hdepth⟩ := exists_args (args_derivable args h.2) h₂
    exact ⟨.call ⟨callee.text, pos⟩ lparen d, rfl, congrArg (Expr.call callee.unplaced) htree,
      congrArg (· + 1) hdepth⟩
  | .newStruct name args, h => .of_primary fun ls hls ↦ by
    obtain ⟨kw, ls₁, rfl, h₁⟩ := map_token_eq_cons hls
    obtain ⟨pos, ls₂, rfl, h₂⟩ := map_token_eq_cons h₁
    obtain ⟨lparen, ls₃, rfl, h₃⟩ := map_token_eq_cons h₂
    obtain ⟨d, rfl, htree, hdepth⟩ := exists_args (args_derivable args h.2) h₃
    exact ⟨.newStruct kw ⟨name.text, pos⟩ lparen d, rfl,
      congrArg (Expr.newStruct name.unplaced) htree, congrArg (· + 1) hdepth⟩
  | .newArray elem size, h => .of_primary fun ls hls ↦ by
    obtain ⟨helem, harray, hsize⟩ := h
    obtain ⟨kw, ls₁, rfl, h₁⟩ := map_token_eq_cons hls
    obtain ⟨pos, ls₂, rfl, h₂⟩ := map_token_eq_cons h₁
    obtain ⟨lbracket, ls₃, rfl, h₃⟩ := map_token_eq_cons h₂
    obtain ⟨ls₄, rbracket, rfl, h₄⟩ := map_token_eq_concat h₃
    obtain ⟨d, rfl, htree, hdepth⟩ := (size.derivable hsize).whole h₄
    refine ⟨.newArray kw ⟨elem.name, helem.ne_void⟩ pos lbracket d rbracket, rfl, ?_,
      congrArg (· + 1) hdepth⟩
    rw [Derivation.Primary.tree, Expr.spelled, Expr.unplaced, Expr.unplaced, htree,
      TypeRef.unplaced, TypeRef.unplaced, harray]
  | .not _ operand, h => .of_primary fun ls hls ↦ by
    obtain ⟨kw, ls₁, rfl, h₁⟩ := map_token_eq_cons hls
    obtain ⟨d, rfl, htree, hdepth⟩ := (operand.derivable h).negated h₁
    exact ⟨.not kw d, rfl, congrArg (Expr.not .start) htree, congrArg (· + 1) hdepth⟩
  | .binary op _ lhs rhs, h => fun n hlooser ls hls ↦ by
    have hprecedence : n ≤ op.precedence := Nat.not_lt.mp (of_decide_eq_false hlooser)
    obtain ⟨ls₁, ls₂, rfl, h₁, h₂⟩ := List.map_eq_append_iff.mp hls
    obtain ⟨pos, ls₃, rfl, h₃⟩ := map_token_eq_cons h₂
    obtain ⟨dl, rfl, hleft, hleftDepth⟩ := (lhs.derivable h.1).operand h₁
    obtain ⟨dr, rfl, hright, hrightDepth⟩ := (rhs.derivable h.2).operand h₃
    exact ⟨.binary op hprecedence pos dl dr, rfl, congrArg₂ (Expr.binary op .start) hleft hright,
      congrArg₂ max hleftDepth hrightDepth⟩

theorem Path.derivable : (p : Path) → p.IsLegible ok → ∀ ls, ls.map Lexeme.token = p.printed →
    ∃ d : Derivation.Path, d.tokens = ls ∧ d.tree.unplaced = p.spelled.unplaced ∧
      d.depth = p.printedDepth
  | .root name index, h, ls, hls => by
    obtain ⟨pos, ls₁, rfl, h₁⟩ := map_token_eq_cons hls
    obtain ⟨d, rfl, htree, hdepth⟩ := index_derivable index h.2 ls₁ h₁
    exact ⟨.root ⟨name.text, pos⟩ d, rfl, congrArg (Path.root name.unplaced) htree, hdepth⟩
  | .field base name index, h, ls, hls => by
    obtain ⟨ls₁, ls₂, rfl, h₁, h₂⟩ := List.map_eq_append_iff.mp hls
    obtain ⟨dot, ls₃, rfl, h₃⟩ := map_token_eq_cons h₂
    obtain ⟨pos, ls₄, rfl, h₄⟩ := map_token_eq_cons h₃
    obtain ⟨db, rfl, hbase, hbaseDepth⟩ := base.derivable h.1 ls₁ h₁
    obtain ⟨di, rfl, hindex, hindexDepth⟩ := index_derivable index h.2.2 ls₄ h₄
    exact ⟨.field db dot ⟨name.text, pos⟩ di, rfl,
      congrArg₂ (Path.field · name.unplaced ·) hbase hindex, congrArg₂ max hbaseDepth hindexDepth⟩

theorem index_derivable : (index : Option Expr) → indexLegible ok index →
    ∀ ls, ls.map Lexeme.token = indexPrinted index →
      ∃ d : Derivation.Index, d.tokens = ls ∧
        indexUnplaced d.tree = indexUnplaced (indexSpelled index) ∧
          d.depth = indexPrintedDepth index
  | none, _, ls, hls => ⟨.none, (List.map_eq_nil_iff.mp hls).symm, rfl, rfl⟩
  | some e, h, ls, hls => by
    obtain ⟨lbracket, ls₁, rfl, h₁⟩ := map_token_eq_cons hls
    obtain ⟨ls₂, rbracket, rfl, h₂⟩ := map_token_eq_concat h₁
    obtain ⟨d, rfl, htree, hdepth⟩ := (e.derivable h).whole h₂
    exact ⟨.some lbracket d rbracket, rfl, congrArg some htree, hdepth⟩

theorem args_derivable : (args : List Expr) → argsLegible ok args → ∀ e ∈ args, e.Derivable
  | [], _ => List.forall_mem_nil _
  | e :: es, h => List.forall_mem_cons.mpr ⟨e.derivable h.1, args_derivable es h.2⟩

end

end

/-! ## Statements -/

theorem TypeRef.derivable {t : TypeRef} (h : t.name.IsLegible) {ls : List Lexeme}
    (hls : ls.map Lexeme.token = t.printed) :
    ∃ d : Derivation.DataType, d.tokens = ls ∧ d.tree.unplaced = t.unplaced := by
  obtain ⟨name, isArray, pos⟩ := t
  cases isArray with
  | false =>
    obtain ⟨pos, rfl⟩ := map_token_eq_singleton hls
    exact ⟨.plain ⟨name, h.ne_void⟩ pos, rfl, rfl⟩
  | true =>
    obtain ⟨lbracket, ls₁, rfl, h₁⟩ := map_token_eq_cons hls
    obtain ⟨pos, ls₂, rfl, h₂⟩ := map_token_eq_cons h₁
    obtain ⟨rbracket, rfl⟩ := map_token_eq_singleton h₂
    exact ⟨.array lbracket ⟨name, h.ne_void⟩ pos rbracket, rfl, rfl⟩

theorem var_derivable {ok : Literal → Prop} {name : Name} {type : Option TypeRef}
    {init : Option Expr} (h : (Stmt.var name type init).IsLegible ok) {ls : List Lexeme}
    (hls : ls.map Lexeme.token = (Stmt.var name type init).printed) :
    ∃ d : Derivation.Stmt, d.tokens = ls ∧
      d.tree.unplaced = ((Stmt.var name type init).mapExprs Expr.spelled).unplaced ∧
      d.depth = (Stmt.var name type init).printedDepth := by
  obtain ⟨-, htype, hinit, hsome⟩ := h
  obtain ⟨kw, ls₁, rfl, h₁⟩ := map_token_eq_cons hls
  obtain ⟨pos, ls₂, rfl, h₂⟩ := map_token_eq_cons h₁
  cases type with
  | none =>
    cases init with
    | none => exact absurd hsome (by decide)
    | some e =>
      obtain ⟨sign, ls₃, rfl, h₃⟩ := map_token_eq_cons h₂
      obtain ⟨d, rfl, htree, hdepth⟩ := (e.derivable (hinit e rfl)).whole h₃
      exact ⟨.var kw ⟨name.text, pos⟩ (.value sign d), rfl,
        congrArg (fun e ↦ Stmt.var name.unplaced none (some e)) htree, hdepth⟩
  | some t =>
    have htype := htype t rfl
    obtain ⟨colon, ls₃, rfl, h₃⟩ := map_token_eq_cons h₂
    cases init with
    | none =>
      obtain ⟨d, rfl, htree⟩ := TypeRef.derivable htype (h₃.trans (List.append_nil _))
      exact ⟨.var kw ⟨name.text, pos⟩ (.typed colon d), rfl,
        congrArg (fun t ↦ Stmt.var name.unplaced (some t) none) htree, rfl⟩
    | some e =>
      obtain ⟨ls₄, ls₅, rfl, h₄, h₅⟩ := List.map_eq_append_iff.mp h₃
      obtain ⟨sign, ls₆, rfl, h₆⟩ := map_token_eq_cons h₅
      obtain ⟨dt, rfl, ht⟩ := TypeRef.derivable htype h₄
      obtain ⟨de, rfl, he, hdepth⟩ := (e.derivable (hinit e rfl)).whole h₆
      exact ⟨.var kw ⟨name.text, pos⟩ (.both colon dt sign de), rfl,
        congrArg₂ (fun t e ↦ Stmt.var name.unplaced (some t) (some e)) ht he, hdepth⟩

section
variable {body : List Stmt} {ls : List Lexeme} {ts : List Token}
  (hbody : ∀ ls, ls.map Lexeme.token = stmtsPrinted body →
    ∃ ds : List Derivation.Stmt, Derivation.stmtsTokens ds = ls ∧
      stmtsUnplaced (Derivation.stmtsTree ds) = stmtsUnplaced (stmtsMapExprs Expr.spelled body) ∧
      Derivation.stmtsDepth ds = stmtsPrintedDepth body)
include hbody

/-- The tokens of a printed block in its braces, and what follows it. -/
theorem exists_block_append
    (hls : ls.map Lexeme.token = .punct .lbrace :: (stmtsPrinted body ++ .punct .rbrace :: ts)) :
    ∃ (d : Derivation.Block) (rest : List Lexeme), ls = d.tokens ++ rest ∧
      rest.map Lexeme.token = ts ∧
        stmtsUnplaced d.tree = stmtsUnplaced (stmtsMapExprs Expr.spelled body) ∧
        d.depth = stmtsPrintedDepth body + 1 := by
  obtain ⟨lbrace, ls₁, rfl, h₁⟩ := map_token_eq_cons hls
  obtain ⟨ls₂, ls₃, rfl, h₂, h₃⟩ := List.map_eq_append_iff.mp h₁
  obtain ⟨rbrace, rest, rfl, hrest⟩ := map_token_eq_cons h₃
  obtain ⟨ds, rfl, htree, hdepth⟩ := hbody ls₂ h₂
  refine ⟨.mk lbrace ds rbrace, rest, ?_, hrest, htree, congrArg (· + 1) hdepth⟩
  rw [Derivation.Block.tokens, List.cons_append, List.append_assoc, List.singleton_append]

theorem exists_block
    (hls : ls.map Lexeme.token = .punct .lbrace :: (stmtsPrinted body ++ [.punct .rbrace])) :
    ∃ d : Derivation.Block, d.tokens = ls ∧
      stmtsUnplaced d.tree = stmtsUnplaced (stmtsMapExprs Expr.spelled body) ∧
      d.depth = stmtsPrintedDepth body + 1 := by
  obtain ⟨d, rest, rfl, hrest, htree, hdepth⟩ := exists_block_append hbody hls
  refine ⟨d, ?_, htree, hdepth⟩
  rw [List.map_eq_nil_iff.mp hrest, List.append_nil]

end

section
variable {ok : Literal → Prop}

mutual

theorem Stmt.derivable : (s : Stmt) → s.IsLegible ok → ∀ ls, ls.map Lexeme.token = s.printed →
    ∃ d : Derivation.Stmt, d.tokens = ls ∧ d.tree.unplaced = (s.mapExprs Expr.spelled).unplaced ∧
      d.depth = s.printedDepth
  | .var _ _ _, h, ls, hls => var_derivable h hls
  | .assign target value, h, ls, hls => by
    obtain ⟨ls₁, ls₂, rfl, h₁, h₂⟩ := List.map_eq_append_iff.mp hls
    obtain ⟨sign, ls₃, rfl, h₃⟩ := map_token_eq_cons h₂
    obtain ⟨dt, rfl, htarget, htargetDepth⟩ := target.derivable h.1 ls₁ h₁
    obtain ⟨dv, rfl, hvalue, hvalueDepth⟩ := (value.derivable h.2).whole h₃
    rw [target.spelled_eq] at htarget
    exact ⟨.assign dt sign dv, rfl, congrArg₂ Stmt.assign htarget hvalue,
      congrArg₂ max htargetDepth hvalueDepth⟩
  | .ret _ value, h, ls, hls => by
    obtain ⟨kw, ls₁, rfl, h₁⟩ := map_token_eq_cons hls
    obtain ⟨d, rfl, htree, hdepth⟩ := (value.derivable h).whole h₁
    exact ⟨.ret kw d, rfl, congrArg (Stmt.ret .start) htree, hdepth⟩
  | .whileLoop cond body, h, ls, hls => by
    obtain ⟨kw, ls₁, rfl, h₁⟩ := map_token_eq_cons hls
    obtain ⟨ls₂, ls₃, rfl, h₂, h₃⟩ := List.map_eq_append_iff.mp h₁
    obtain ⟨dc, rfl, hcond, hcondDepth⟩ := (cond.derivable h.1).whole h₂
    obtain ⟨db, rfl, hbody, hbodyDepth⟩ := exists_block (stmts_derivable body h.2) h₃
    exact ⟨.whileLoop kw dc db, rfl, congrArg₂ Stmt.whileLoop hcond hbody,
      congrArg₂ max hcondDepth hbodyDepth⟩
  | .forLoop var first last body, h, ls, hls => by
    obtain ⟨-, hfirst, hlast, hbody⟩ := h
    obtain ⟨kw, ls₁, rfl, h₁⟩ := map_token_eq_cons hls
    obtain ⟨pos, ls₂, rfl, h₂⟩ := map_token_eq_cons h₁
    obtain ⟨fromKw, ls₃, rfl, h₃⟩ := map_token_eq_cons h₂
    obtain ⟨ls₄, ls₅, rfl, h₄, h₅⟩ := List.map_eq_append_iff.mp h₃
    obtain ⟨toKw, ls₆, rfl, h₆⟩ := map_token_eq_cons h₅
    obtain ⟨ls₇, ls₈, rfl, h₇, h₈⟩ := List.map_eq_append_iff.mp h₆
    obtain ⟨df, rfl, hf, hfDepth⟩ := (first.derivable hfirst).whole h₄
    obtain ⟨dl, rfl, hl, hlDepth⟩ := (last.derivable hlast).whole h₇
    obtain ⟨db, rfl, hb, hbDepth⟩ := exists_block (stmts_derivable body hbody) h₈
    refine ⟨.forLoop kw ⟨var.text, pos⟩ fromKw df toKw dl db, rfl, ?_,
      congrArg₂ max hfDepth (congrArg₂ max hlDepth hbDepth)⟩
    rw [Derivation.Stmt.tree, Stmt.mapExprs, Stmt.unplaced, Stmt.unplaced, hf, hl, hb]
    rfl
  | .ifElse cond body other, h, ls, hls => by
    obtain ⟨hcond, hbody, hother⟩ := h
    obtain ⟨kw, ls₁, rfl, h₁⟩ := map_token_eq_cons hls
    obtain ⟨ls₂, ls₃, rfl, h₂, h₃⟩ := List.map_eq_append_iff.mp h₁
    obtain ⟨dc, rfl, hc, hcDepth⟩ := (cond.derivable hcond).whole h₂
    -- What stands behind the closing brace may belong to the other branch.
    obtain ⟨db, ls₄, rfl, h₄, hb, hbDepth⟩ := exists_block_append (stmts_derivable body hbody) h₃
    obtain ⟨rest, rfl, hrest, hrestDepth⟩ := other.derivable hother ls₄ h₄
    refine ⟨.ifElse (.mk kw dc db rest), rfl, ?_,
      congrArg₂ max hcDepth (congrArg₂ max hbDepth hrestDepth)⟩
    rw [Derivation.Stmt.tree, Stmt.mapExprs, Stmt.unplaced, Stmt.unplaced, hc, hb, hrest]
  | .call callee args, h, ls, hls => by
    obtain ⟨pos, ls₁, rfl, h₁⟩ := map_token_eq_cons hls
    obtain ⟨lparen, ls₂, rfl, h₂⟩ := map_token_eq_cons h₁
    obtain ⟨d, rfl, htree, hdepth⟩ := exists_args (args_derivable args h.2) h₂
    rw [argsSpelled_eq] at htree
    exact ⟨.call ⟨callee.text, pos⟩ lparen d, rfl, congrArg (Stmt.call callee.unplaced) htree,
      hdepth⟩

theorem Else.derivable : (other : Else) → other.IsLegible ok →
    ∀ ls, ls.map Lexeme.token = other.printed →
      ∃ d : Derivation.Else, d.tokens = ls ∧
        d.tree.unplaced = (other.mapExprs Expr.spelled).unplaced ∧ d.depth = other.printedDepth
  | .none, _, ls, hls => ⟨.none, (List.map_eq_nil_iff.mp hls).symm, rfl, rfl⟩
  | .block body, h, ls, hls => by
    obtain ⟨kw, ls₁, rfl, h₁⟩ := map_token_eq_cons hls
    obtain ⟨d, rfl, htree, hdepth⟩ := exists_block (stmts_derivable body h) h₁
    exact ⟨.block kw d, rfl, congrArg Else.block htree, hdepth⟩
  | .elseIf cond body other, h, ls, hls => by
    obtain ⟨hcond, hbody, hother⟩ := h
    obtain ⟨kw, ls₁, rfl, h₁⟩ := map_token_eq_cons hls
    obtain ⟨ifKw, ls₂, rfl, h₂⟩ := map_token_eq_cons h₁
    obtain ⟨ls₃, ls₄, rfl, h₃, h₄⟩ := List.map_eq_append_iff.mp h₂
    obtain ⟨dc, rfl, hc, hcDepth⟩ := (cond.derivable hcond).whole h₃
    obtain ⟨db, ls₅, rfl, h₅, hb, hbDepth⟩ := exists_block_append (stmts_derivable body hbody) h₄
    obtain ⟨rest, rfl, hrest, hrestDepth⟩ := other.derivable hother ls₅ h₅
    refine ⟨.elseIf kw (.mk ifKw dc db rest), rfl, ?_,
      congrArg₂ max hcDepth (congrArg₂ max hbDepth hrestDepth)⟩
    rw [Derivation.Else.tree, Else.mapExprs, Else.unplaced, Else.unplaced, hc, hb, hrest]

theorem stmts_derivable : (body : List Stmt) → stmtsLegible ok body →
    ∀ ls, ls.map Lexeme.token = stmtsPrinted body →
      ∃ ds : List Derivation.Stmt, Derivation.stmtsTokens ds = ls ∧
        stmtsUnplaced (Derivation.stmtsTree ds) = stmtsUnplaced (stmtsMapExprs Expr.spelled body) ∧
        Derivation.stmtsDepth ds = stmtsPrintedDepth body
  | [], _, ls, hls => ⟨[], (List.map_eq_nil_iff.mp hls).symm, rfl, rfl⟩
  | s :: ss, h, ls, hls => by
    obtain ⟨ls₁, ls₂, rfl, h₁, h₂⟩ := List.map_eq_append_iff.mp hls
    obtain ⟨d, rfl, htree, hdepth⟩ := s.derivable h.1 ls₁ h₁
    obtain ⟨ds, rfl, htrees, hdepths⟩ := stmts_derivable ss h.2 ls₂ h₂
    exact ⟨d :: ds, rfl, congrArg₂ List.cons htree htrees, congrArg₂ max hdepth hdepths⟩

end

end

/-! ## Definitions -/

theorem VarDef.derivable {v : VarDef} (h : v.IsLegible) (ls : List Lexeme)
    (hls : ls.map Lexeme.token = v.printed) :
    ∃ d : Derivation.Field, d.tokens = ls ∧ d.tree.unplaced = v.unplaced := by
  obtain ⟨pos, ls₁, rfl, h₁⟩ := map_token_eq_cons hls
  obtain ⟨colon, ls₂, rfl, h₂⟩ := map_token_eq_cons h₁
  obtain ⟨d, rfl, htree⟩ := TypeRef.derivable h.2 h₂
  exact ⟨⟨⟨v.name.text, pos⟩, colon, d⟩, rfl, congrArg (VarDef.mk v.name.unplaced) htree⟩

/-- Fields or parameters and the closing sign behind them. -/
theorem exists_fields {vs : List VarDef} (h : ∀ v ∈ vs, v.IsLegible) (close : Punct) (pos : Pos)
    {ls : List Lexeme} (hls : ls.map Lexeme.token = varsPrinted vs) :
    ∃ d : Derivation.Listing Derivation.Field,
      d.tokens close Derivation.Field.tokens = ls ++ [⟨.punct close, pos⟩] ∧
      (d.toList.map Derivation.Field.tree).map VarDef.unplaced = vs.map VarDef.unplaced := by
  obtain ⟨d, htokens, htree⟩ :=
    Derivation.exists_listing (fun d : Derivation.Field ↦ d.tree.unplaced) pos vs
      (fun v hv ls hls ↦ VarDef.derivable (h v hv) ls hls) ls hls
  refine ⟨d, htokens, ?_⟩
  rw [List.map_map]
  exact htree

theorem StructDef.IsLegible.derivable {s : StructDef} (h : s.IsLegible) {ls : List Lexeme}
    (hls : ls.map Lexeme.token = s.printed) :
    ∃ d : Derivation.Struct, d.tokens = ls ∧ d.tree.unplaced = s.unplaced := by
  obtain ⟨kw, ls₁, rfl, h₁⟩ := map_token_eq_cons hls
  obtain ⟨pos, ls₂, rfl, h₂⟩ := map_token_eq_cons h₁
  obtain ⟨lbrace, ls₃, rfl, h₃⟩ := map_token_eq_cons h₂
  obtain ⟨ls₄, rbrace, rfl, h₄⟩ := map_token_eq_concat h₃
  obtain ⟨d, htokens, htree⟩ := exists_fields h.2 .rbrace rbrace h₄
  refine ⟨⟨kw, ⟨s.name.text, pos⟩, lbrace, d⟩, ?_, congrArg (StructDef.mk s.name.unplaced) htree⟩
  rw [Derivation.Struct.tokens, htokens]
  rfl

theorem FunDef.IsLegible.derivable {ok : Literal → Prop} {f : FunDef} (h : f.IsLegible ok)
    {ls : List Lexeme} (hls : ls.map Lexeme.token = f.printed) :
    ∃ d : Derivation.Function, d.tokens = ls ∧
      (d.tree.unplaced, d.body.depth) = ((f.mapExprs Expr.spelled).unplaced, f.printedDepth) := by
  obtain ⟨htype, -, hparams, hbody⟩ := h
  obtain ⟨ls₁, ls₂, rfl, h₁, h₂⟩ := List.map_eq_append_iff.mp hls
  obtain ⟨pos, ls₃, rfl, h₃⟩ := map_token_eq_cons h₂
  obtain ⟨lparen, ls₄, rfl, h₄⟩ := map_token_eq_cons h₃
  obtain ⟨ls₅, ls₆, rfl, h₅, h₆⟩ := List.map_eq_append_iff.mp h₄
  obtain ⟨rparen, ls₇, rfl, h₇⟩ := map_token_eq_cons h₆
  obtain ⟨dt, rfl, ht⟩ : ∃ d : Derivation.ReturnType, d.tokens = ls₁ ∧
      d.tree.unplaced = f.returnType.unplaced := by
    rcases htype with hvalue | ⟨hvoid, harray⟩
    · obtain ⟨d, htokens, htree⟩ := TypeRef.derivable hvalue h₁
      exact ⟨.value d, htokens, htree⟩
    · rw [TypeRef.printed, harray, hvoid] at h₁
      obtain ⟨kw, rfl⟩ := map_token_eq_singleton h₁
      refine ⟨.void kw, rfl, ?_⟩
      rw [Derivation.ReturnType.tree, TypeRef.unplaced, TypeRef.unplaced, hvoid, harray]
  obtain ⟨dp, hptokens, hp⟩ := exists_fields hparams .rparen rparen h₅
  obtain ⟨db, rfl, hb, hdepth⟩ := exists_block (stmts_derivable f.body hbody) h₇
  refine ⟨⟨dt, ⟨f.name.text, pos⟩, lparen, dp, db⟩, ?_, Prod.ext ?_ hdepth⟩
  · rw [Derivation.Function.tokens, hptokens, List.append_assoc]
    rfl
  · rw [Derivation.Function.tree, FunDef.unplaced, FunDef.unplaced, ht, hp, hb]
    rfl

/-- What is printed one after the other is derived one after the other. -/
theorem exists_sequence {α β δ : Type} {printed : α → List Token} {tokens : δ → List Lexeme}
    {ofTree : α → β} (tree : δ → β) (xs : List α)
    (hxs : ∀ x ∈ xs, ∀ {ls}, ls.map Lexeme.token = printed x →
      ∃ d, tokens d = ls ∧ tree d = ofTree x)
    {ls : List Lexeme} (hls : ls.map Lexeme.token = xs.flatMap printed) :
    ∃ ds : List δ, ds.flatMap tokens = ls ∧ ds.map tree = xs.map ofTree := by
  induction xs generalizing ls with
  | nil => exact ⟨[], (List.map_eq_nil_iff.mp hls).symm, rfl⟩
  | cons x xs ih =>
    obtain ⟨hx, hxs⟩ := List.forall_mem_cons.mp hxs
    obtain ⟨ls₁, ls₂, rfl, h₁, h₂⟩ := List.map_eq_append_iff.mp hls
    obtain ⟨d, rfl, hd⟩ := hx h₁
    obtain ⟨ds, rfl, hds⟩ := ih hxs h₂
    exact ⟨d :: ds, rfl, congrArg₂ List.cons hd hds⟩

/-- The tokens of a printed program are derived, and the tree is the printed one with its numbers
below zero spelled out. -/
theorem Program.IsLegible.exists_derivation {ok : Literal → Prop} {p : Program}
    (h : p.IsLegible ok) {ls : List Lexeme} (hls : ls.map Lexeme.token = p.printed) :
    ∃ d : Derivation.Program, d.tokens = ls ∧ d.tree.unplaced = p.spelled.unplaced ∧
      d.depth = p.printedDepth := by
  obtain ⟨ls₁, ls₂, rfl, h₁, h₂⟩ := List.map_eq_append_iff.mp hls
  obtain ⟨ss, rfl, hstructs⟩ := exists_sequence (fun d : Derivation.Struct ↦ d.tree.unplaced)
    p.structs (fun s hs ↦ (h.1 s hs).derivable) h₁
  obtain ⟨fs, rfl, hpairs⟩ := exists_sequence
    (fun d : Derivation.Function ↦ (d.tree.unplaced, d.body.depth)) p.functions
    (fun f hf ↦ (h.2 f hf).derivable) h₂
  have hfunctions := congrArg (List.map Prod.fst) hpairs
  have hdepths := congrArg (List.map Prod.snd) hpairs
  rw [List.map_map, List.map_map] at hfunctions hdepths
  refine ⟨⟨ss.map .struct ++ fs.map .function⟩, ?_, ?_, ?_⟩
  · rw [Derivation.Program.tokens, List.flatMap_append, List.flatMap_map, List.flatMap_map]
    rfl
  · have hstruct : Derivation.Definition.struct? ∘ Derivation.Definition.struct =
        some ∘ Derivation.Struct.tree := rfl
    have hfunction : Derivation.Definition.function? ∘ Derivation.Definition.function =
        some ∘ Derivation.Function.tree := rfl
    have hother : Derivation.Definition.struct? ∘ Derivation.Definition.function =
        fun _ ↦ none := rfl
    have hother' : Derivation.Definition.function? ∘ Derivation.Definition.struct =
        fun _ ↦ none := rfl
    simp only [Derivation.Program.tree, Program.unplaced, Program.spelled, Program.mapExprs,
      List.filterMap_append, List.filterMap_map, hstruct, hfunction, hother, hother',
      List.filterMap_none, List.filterMap_eq_map, List.append_nil, List.nil_append, List.map_map]
    exact congrArg₂ Program.mk hstructs hfunctions
  · -- Structs do not nest.
    have hzero : ((ss.map Derivation.Definition.struct).map Derivation.Definition.depth) =
        List.replicate ss.length 0 := by
      rw [List.map_map]
      exact List.map_const' ..
    have hmax : ∀ n k, (List.replicate n 0).foldr max k = k := by
      intro n k
      induction n with
      | zero => rfl
      | succ n ih => rw [List.replicate_succ, List.foldr_cons, ih, Nat.zero_max]
    rw [Derivation.Program.depth, List.map_append, List.foldr_append, hzero, hmax, List.map_map]
    exact congrArg (List.foldr max 0) hdepths

theorem Program.IsLegible.derivable {ok : Literal → Prop} {p : Program} (h : p.IsLegible ok)
    {ls : List Lexeme} (hls : ls.map Lexeme.token = p.printed) :
    ∃ d : Derivation.Program, d.tokens = ls ∧ d.tree.unplaced = p.spelled.unplaced := by
  obtain ⟨d, htokens, htree, -⟩ := h.exists_derivation hls
  exact ⟨d, htokens, htree⟩

end Pebble
