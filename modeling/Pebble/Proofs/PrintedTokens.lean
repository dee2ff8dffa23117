import Mathlib.Tactic.Common
import Pebble.Proofs.Derivations
import Pebble.Proofs.ScannedTokens
import Pebble.Proofs.Spelling

/-!
# The tokens of a printed tree

A printed tree is scanned without a failure, as long as its names and literals can be written: its
tokens are those of `printed`, which follows the printer and says nothing of blanks and lines. Each
statement says what a text is scanned as in front of any other text that does not continue its last
token.
-/

namespace Pebble

/-! ## What can be written -/

/-- A type of values whose name can be written. -/
def TypeName.IsLegible : TypeName → Prop
  | .void => False
  | .struct s => IsName s
  | _ => True

section
variable (ok : Literal → Prop)

mutual

/-- An expression whose names can be written and whose literals are all `ok`. -/
def Expr.IsLegible : Expr → Prop
  | .lit value _ => ok value
  | .path p => p.IsLegible
  | .call callee args => IsName callee.text ∧ argsLegible args
  | .newStruct name args => IsName name.text ∧ argsLegible args
  | .newArray elem size => elem.name.IsLegible ∧ elem.isArray = false ∧ size.IsLegible
  | .not _ operand => operand.IsLegible
  | .binary _ _ lhs rhs => lhs.IsLegible ∧ rhs.IsLegible

def Path.IsLegible : Path → Prop
  | .root name index => IsName name.text ∧ indexLegible index
  | .field base name index => base.IsLegible ∧ IsName name.text ∧ indexLegible index

def indexLegible : Option Expr → Prop
  | none => True
  | some e => e.IsLegible

def argsLegible : List Expr → Prop
  | [] => True
  | e :: es => e.IsLegible ∧ argsLegible es

end

end

/-! ## Expressions -/

/-- The tokens `ts`, in parentheses if asked for. -/
def parenthesizedTokens (yes : Bool) (ts : List Token) : List Token :=
  if yes then .punct .lparen :: (ts ++ [.punct .rparen]) else ts

/-- The tokens of a printed literal. -/
def Literal.printed (v : Literal) : List Token :=
  match v.spelling with
  | .plain => [.lit v]
  | .difference a b => [.punct .lparen, .lit a, .punct .minus, .lit b, .punct .rparen]
  | .differences a b c =>
    [.punct .lparen, .lit a, .punct .minus, .lit b, .punct .minus, .lit c, .punct .rparen]
  | .quotient a b => [.punct .lparen, .lit a, .punct .slash, .lit b, .punct .rparen]

mutual

/-- The tokens of a printed expression. -/
def Expr.printed : Expr → List Token
  | .lit value _ => value.printed
  | .path p => p.printed
  | .call callee args =>
    .ident callee.text :: .punct .lparen :: (argsPrinted args ++ [.punct .rparen])
  | .newStruct name args =>
    .keyword .newKw :: .ident name.text :: .punct .lparen :: (argsPrinted args ++ [.punct .rparen])
  | .newArray elem size =>
    .keyword .newKw :: elem.name.token :: .punct .lbracket :: (size.printed ++ [.punct .rbracket])
  | .not _ operand =>
    .keyword .notKw :: parenthesizedTokens operand.isOperation operand.printed
  | .binary op _ lhs rhs =>
    parenthesizedTokens (lhs.isLooserThan op.precedence) lhs.printed ++ op.token ::
      parenthesizedTokens (rhs.isLooserThan (op.precedence + 1)) rhs.printed

def Path.printed : Path → List Token
  | .root name index => .ident name.text :: indexPrinted index
  | .field base name index => base.printed ++ .punct .dot :: .ident name.text :: indexPrinted index

def indexPrinted : Option Expr → List Token
  | none => []
  | some index => .punct .lbracket :: (index.printed ++ [.punct .rbracket])

def argsPrinted : List Expr → List Token
  | [] => []
  | [arg] => arg.printed
  | arg :: args => arg.printed ++ .punct .comma :: argsPrinted args

end

theorem argsPrinted_eq : (args : List Expr) →
    argsPrinted args = [.punct .comma].intercalate (args.map Expr.printed)
  | [] => rfl
  | [arg] => by simp [argsPrinted]
  | arg :: arg' :: args => by
    simp [argsPrinted, argsPrinted_eq (arg' :: args), List.intercalate_cons_cons]

section
variable {cs : List Char} {ts : List Token}

theorem Literal.IsUnsigned.lexes {value : Literal} (h : value.IsUnsigned) (hends : EndsOperand cs)
    (hcs : Lexes cs ts) : Lexes (value.sourceText.toList ++ cs) (.lit value :: ts) := by
  cases value with
  | int n => exact .token (scannedAs_int h hends) nofun rfl hcs
  | double d =>
    obtain ⟨bits, hbits, rfl⟩ := h
    exact .token (scannedAs_double hbits hends) nofun rfl hcs
  | bool b =>
    have hword : ∀ b, IsWord (boolText b).toList := by
      intro b
      cases b <;> exact .of_all (by decide) (by decide)
    have hreserved : ∀ b, Token.ofWord (boolText b) = .lit (.bool b) := by decide
    exact .token (hreserved b ▸ (hword b).scannedAs hends.endsWord) nofun rfl hcs
  | str s => exact .token (scannedAs_str s cs) nofun rfl hcs
  | null =>
    have hword : IsWord "null".toList := .of_all (by decide) (by decide)
    exact .token (hword.scannedAs hends.endsWord) nofun rfl hcs

/-- `" - "` and a literal. -/
theorem lexes_minus {value : Literal} (h : value.IsUnsigned) (hends : EndsOperand cs)
    (hcs : Lexes cs ts) :
    Lexes (" - ".toList ++ (value.sourceText.toList ++ cs)) (.punct .minus :: .lit value :: ts) :=
  .blank rfl (.punct .minus (.inl rfl) (.blank rfl (h.lexes hends hcs)))

theorem Literal.lexes {value : Literal} (h : value.IsWritten) (hends : EndsOperand cs)
    (hcs : Lexes cs ts) : Lexes (value.sourceText.toList ++ cs) (value.printed ++ ts) := by
  have hclose : Lexes (")".toList ++ cs) (.punct .rparen :: ts) := .punct .rparen (.inl rfl) hcs
  have hwritten : value.WrittenAs value.spelling := h
  unfold Literal.printed
  generalize value.spelling = s at hwritten
  cases hwritten with
  | spelled hspelled =>
    cases hspelled with
    | plain hv => exact hv.lexes hends hcs
    | difference ha hb htext _ =>
      rw [htext]
      simp only [String.toList_append, List.append_assoc]
      exact .punct .lparen (.inl rfl) (ha.lexes (.cons rfl (by decide))
        (lexes_minus hb (.cons rfl (by decide)) hclose))
    | differences ha hb hc htext _ _ =>
      rw [htext]
      simp only [String.toList_append, List.append_assoc]
      exact .punct .lparen (.inl rfl) (ha.lexes (.cons rfl (by decide))
        (lexes_minus hb (.cons rfl (by decide))
          (lexes_minus hc (.cons rfl (by decide)) hclose)))
  | quotient ha hb htext =>
    rw [htext]
    simp only [String.toList_append, List.append_assoc]
    exact .punct .lparen (.inl rfl) (ha.lexes (.cons rfl (by decide))
      (.blank rfl (.punct .slash (.inl rfl) (.blank rfl
        (hb.lexes (.cons rfl (by decide)) hclose)))))

theorem BinOp.lexes (op : BinOp) (hcs : Lexes cs ts) :
    Lexes (op.symbol.toList ++ (" ".toList ++ cs)) (op.token :: ts) := by
  have hcs : Lexes (" ".toList ++ cs) ts := .blank rfl hcs
  have hnext : (" ".toList ++ cs).head? ≠ some '=' := by simp
  cases op with
  | and => exact .keyword .andKw (.cons rfl) hcs
  | or => exact .keyword .orKw (.cons rfl) hcs
  | add => exact .punct .plus (.inl rfl) hcs
  | sub => exact .punct .minus (.inl rfl) hcs
  | mul => exact .punct .star (.inl rfl) hcs
  | div => exact .punct .slash (.inl rfl) hcs
  | eq => exact .punct .eq (.inl rfl) hcs
  | ne => exact .punct .notEq (.inl rfl) hcs
  | lt => exact .punct .lt (.inr hnext) hcs
  | le => exact .punct .ltEq (.inl rfl) hcs
  | gt => exact .punct .gt (.inr hnext) hcs
  | ge => exact .punct .gtEq (.inl rfl) hcs

theorem TypeName.lexes {name : TypeName} (h : name.IsLegible ∨ name = .void) (hends : EndsWord cs)
    (hcs : Lexes cs ts) : Lexes (name.text.toList ++ cs) (name.token :: ts) := by
  cases name with
  | int => exact .keyword .intKw hends hcs
  | double => exact .keyword .doubleKw hends hcs
  | bool => exact .keyword .boolKw hends hcs
  | string => exact .keyword .stringKw hends hcs
  | void => exact .keyword .voidKw hends hcs
  | struct s =>
    have hname : IsName s := h.resolve_right nofun
    exact .name hname.isWord hname.free hends hcs

/-- Parentheses change neither what an operand is scanned as nor what may follow it. -/
theorem lexes_parenthesized {s : String} {us : List Token} (yes : Bool)
    (hs : ∀ {cs ts}, EndsOperand cs → Lexes cs ts → Lexes (s.toList ++ cs) (us ++ ts))
    (hends : EndsOperand cs) (hcs : Lexes cs ts) :
    Lexes ((parenthesized yes s).toList ++ cs) (parenthesizedTokens yes us ++ ts) := by
  cases yes with
  | false => exact hs hends hcs
  | true =>
    simp only [parenthesized, parenthesizedTokens, if_pos, String.toList_append, List.append_assoc,
      List.cons_append, List.nil_append]
    exact .punct .lparen (.inl rfl)
      (hs (.cons (by decide) (by decide)) (.punct .rparen (.inl rfl) hcs))

mutual

theorem Expr.lexes : (e : Expr) → e.IsLegible Literal.IsWritten → ∀ {cs ts}, EndsOperand cs →
    Lexes cs ts → Lexes (e.text.toList ++ cs) (e.printed ++ ts)
  | .lit value _, h, cs, ts, hends, hcs => value.lexes h hends hcs
  | .path p, h, cs, ts, hends, hcs => p.lexes h hends.endsWord hcs
  | .call callee args, h, cs, ts, hends, hcs => by
    simp only [Expr.text, Expr.printed, String.toList_append, List.append_assoc, List.cons_append,
      List.nil_append]
    exact .name h.1.isWord h.1.free (.cons rfl) (.punct .lparen (.inl rfl)
      (args_lexes args h.2 (.cons rfl (by decide)) (.punct .rparen (.inl rfl) hcs)))
  | .newStruct name args, h, cs, ts, hends, hcs => by
    simp only [Expr.text, Expr.printed, String.toList_append, List.append_assoc, List.cons_append,
      List.nil_append]
    exact .keyword .newKw (.cons rfl) (.blank rfl (.name h.1.isWord h.1.free (.cons rfl)
      (.punct .lparen (.inl rfl)
        (args_lexes args h.2 (.cons rfl (by decide)) (.punct .rparen (.inl rfl) hcs)))))
  | .newArray elem size, h, cs, ts, hends, hcs => by
    simp only [Expr.text, Expr.printed, String.toList_append, List.append_assoc, List.cons_append,
      List.nil_append]
    exact .keyword .newKw (.cons rfl) (.blank rfl (TypeName.lexes (.inl h.1) (.cons rfl)
      (.punct .lbracket (.inl rfl)
        (size.lexes h.2.2 (.cons rfl (by decide)) (.punct .rbracket (.inl rfl) hcs)))))
  | .not _ operand, h, cs, ts, hends, hcs => by
    simp only [Expr.text, Expr.printed, String.toList_append, List.append_assoc, List.cons_append]
    exact .keyword .notKw (.cons rfl)
      (.blank rfl (lexes_parenthesized _ (operand.lexes h) hends hcs))
  | .binary op _ lhs rhs, h, cs, ts, hends, hcs => by
    simp only [Expr.text, Expr.printed, String.toList_append, List.append_assoc, List.cons_append]
    exact lexes_parenthesized _ (lhs.lexes h.1) (.cons rfl (by decide)) (.blank rfl
      (op.lexes (lexes_parenthesized _ (rhs.lexes h.2) hends hcs)))

theorem Path.lexes : (p : Path) → p.IsLegible Literal.IsWritten → ∀ {cs ts}, EndsWord cs →
    Lexes cs ts → Lexes (p.text.toList ++ cs) (p.printed ++ ts)
  | .root name index, h, cs, ts, hends, hcs => by
    simp only [Path.text, Path.printed, String.toList_append, List.append_assoc, List.cons_append]
    exact index_lexes index h.2 h.1 hends hcs
  | .field base name index, h, cs, ts, hends, hcs => by
    simp only [Path.text, Path.printed, String.toList_append, List.append_assoc, List.cons_append]
    exact base.lexes h.1 (.cons rfl)
      (.punct .dot (.inl rfl) (index_lexes index h.2.2 h.2.1 hends hcs))

theorem index_lexes : (index : Option Expr) → indexLegible Literal.IsWritten index →
    ∀ {s : String} {cs ts}, IsName s → EndsWord cs → Lexes cs ts →
    Lexes (s.toList ++ ((indexText index).toList ++ cs)) (.ident s :: (indexPrinted index ++ ts))
  | none, _, s, cs, ts, hs, hends, hcs => .name hs.isWord hs.free hends hcs
  | some e, h, s, cs, ts, hs, hends, hcs => by
    simp only [indexText, indexPrinted, String.toList_append, List.append_assoc, List.cons_append,
      List.nil_append]
    exact .name hs.isWord hs.free (.cons rfl) (.punct .lbracket (.inl rfl)
      (e.lexes h (.cons rfl (by decide)) (.punct .rbracket (.inl rfl) hcs)))

theorem args_lexes : (args : List Expr) → argsLegible Literal.IsWritten args → ∀ {cs ts},
    EndsOperand cs → Lexes cs ts → Lexes ((argsText args).toList ++ cs) (argsPrinted args ++ ts)
  | [], _, cs, ts, _, hcs => hcs
  | [e], h, cs, ts, hends, hcs => e.lexes h.1 hends hcs
  | e :: e' :: es, h, cs, ts, hends, hcs => by
    simp only [argsText, argsPrinted, String.toList_append, List.append_assoc, List.cons_append]
    exact e.lexes h.1 (.cons rfl (by decide))
      (.punct .comma (.inl rfl) (.blank rfl (args_lexes (e' :: es) h.2 hends hcs)))

end

end

/-! ## Statements -/

/-- The tokens of a printed type. -/
def TypeRef.printed (t : TypeRef) : List Token :=
  if t.isArray then [.punct .lbracket, t.name.token, .punct .rbracket] else [t.name.token]

section
variable (ok : Literal → Prop)

mutual

/-- A statement whose names can be written and whose literals are all `ok`. A variable has a type or
a value. -/
def Stmt.IsLegible : Stmt → Prop
  | .var name type init =>
    IsName name.text ∧ (∀ t ∈ type, t.name.IsLegible) ∧ (∀ e ∈ init, e.IsLegible ok) ∧
      (type.isSome ∨ init.isSome)
  | .assign target value => target.IsLegible ok ∧ value.IsLegible ok
  | .ret _ value => value.IsLegible ok
  | .whileLoop cond body => cond.IsLegible ok ∧ stmtsLegible body
  | .forLoop var first last body =>
    IsName var.text ∧ first.IsLegible ok ∧ last.IsLegible ok ∧ stmtsLegible body
  | .ifElse cond body other => cond.IsLegible ok ∧ stmtsLegible body ∧ other.IsLegible
  | .call callee args => IsName callee.text ∧ argsLegible ok args

def Else.IsLegible : Else → Prop
  | .none => True
  | .block body => stmtsLegible body
  | .elseIf cond body other => cond.IsLegible ok ∧ stmtsLegible body ∧ other.IsLegible

def stmtsLegible : List Stmt → Prop
  | [] => True
  | s :: ss => s.IsLegible ∧ stmtsLegible ss

end

end

mutual

/-- The tokens of a printed statement. -/
def Stmt.printed : Stmt → List Token
  | .var name type init =>
    .keyword .varKw :: .ident name.text ::
      (type.elim [] (fun t ↦ .punct .colon :: t.printed) ++
        init.elim [] fun e ↦ .punct .assign :: e.printed)
  | .assign target value => target.printed ++ .punct .assign :: value.printed
  | .ret _ value => .keyword .returnKw :: value.printed
  | .whileLoop cond body =>
    .keyword .whileKw :: (cond.printed ++ .punct .lbrace :: (stmtsPrinted body ++ [.punct .rbrace]))
  | .forLoop var first last body =>
    .keyword .forKw :: .ident var.text :: .keyword .fromKw ::
      (first.printed ++ .keyword .toKw ::
        (last.printed ++ .punct .lbrace :: (stmtsPrinted body ++ [.punct .rbrace])))
  | .ifElse cond body other =>
    .keyword .ifKw ::
      (cond.printed ++ .punct .lbrace :: (stmtsPrinted body ++ .punct .rbrace :: other.printed))
  | .call callee args =>
    .ident callee.text :: .punct .lparen :: (argsPrinted args ++ [.punct .rparen])

/-- The tokens after the closing brace of a branch. -/
def Else.printed : Else → List Token
  | .none => []
  | .block body => .keyword .elseKw :: .punct .lbrace :: (stmtsPrinted body ++ [.punct .rbrace])
  | .elseIf cond body other =>
    .keyword .elseKw :: .keyword .ifKw ::
      (cond.printed ++ .punct .lbrace :: (stmtsPrinted body ++ .punct .rbrace :: other.printed))

def stmtsPrinted : List Stmt → List Token
  | [] => []
  | s :: ss => s.printed ++ stmtsPrinted ss

end

section
variable {cs : List Char} {ts : List Token}

theorem TypeRef.lexes {t : TypeRef} (h : t.name.IsLegible ∨ t.name = .void) (hends : EndsWord cs)
    (hcs : Lexes cs ts) : Lexes (t.text.toList ++ cs) (t.printed ++ ts) := by
  rw [TypeRef.text, TypeRef.printed]
  split
  · simp only [String.toList_append, List.append_assoc, List.cons_append, List.nil_append]
    exact .punct .lbracket (.inl rfl)
      (TypeName.lexes h (.cons rfl) (.punct .rbracket (.inl rfl) hcs))
  · exact TypeName.lexes h hends hcs

/-- A line is scanned as what stands in it in front of its end. -/
theorem lexes_line (depth : Nat) {s : String} (h : Lexes (s.toList ++ ("\n".toList ++ cs)) ts) :
    Lexes ((indentedLine depth s).toList ++ cs) ts := by
  simp only [indentedLine, String.toList_append, String.toList_ofList, List.append_assoc]
  refine .blanks (fun c hc ↦ ?_) h
  rw [List.eq_of_mem_replicate hc]
  rfl

theorem Lexes.assign (hcs : Lexes cs ts) : Lexes ('=' :: ' ' :: cs) (.punct .assign :: ts) :=
  .punct .assign (.inr (by simp)) (.blank rfl hcs)

/-- `" = "` and a value. -/
theorem lexes_assign {e : Expr} (h : e.IsLegible Literal.IsWritten) (hends : EndsOperand cs)
    (hcs : Lexes cs ts) : Lexes (" = ".toList ++ (e.text.toList ++ cs)) (.punct .assign :: (e.printed ++ ts)) :=
  .blank rfl (.assign (e.lexes h hends hcs))

/-- The end of a line that opens a block. -/
theorem lexes_open (hcs : Lexes cs ts) :
    Lexes (" \x7b".toList ++ ("\n".toList ++ cs)) (.punct .lbrace :: ts) :=
  .blank rfl (.punct .lbrace (.inl rfl) (.blank rfl hcs))

/-- The end of a line that opens a block, the block and a line with its closing brace. -/
theorem lexes_body {depth : Nat} {body : String} {us : List Token}
    (hbody : ∀ {cs ts}, Lexes cs ts → Lexes (body.toList ++ cs) (us ++ ts)) (hcs : Lexes cs ts) :
    Lexes (" \x7b".toList ++
        ("\n".toList ++ (body.toList ++ ((indentedLine depth "\x7d").toList ++ cs))))
      (.punct .lbrace :: (us ++ .punct .rbrace :: ts)) :=
  lexes_open (hbody (lexes_line depth (.punct .rbrace (.inl rfl) (.blank rfl hcs))))

theorem lexes_var {name : Name} {type : Option TypeRef} {init : Option Expr}
    (h : (Stmt.var name type init).IsLegible Literal.IsWritten) (hends : EndsOperand cs) (hcs : Lexes cs ts) :
    Lexes ((varText name type init).toList ++ cs) ((Stmt.var name type init).printed ++ ts) := by
  obtain ⟨hname, htype, hinit, hsome⟩ := h
  simp only [varText, Stmt.printed, String.toList_append, List.append_assoc, List.cons_append]
  refine .keyword .varKw (.cons rfl) (.blank rfl ?_)
  cases type with
  | none =>
    cases init with
    | none => exact absurd hsome (by decide)
    | some e =>
      simp only [Option.elim, List.cons_append, List.nil_append, String.toList_append,
        List.append_assoc]
      exact .name hname.isWord hname.free (.cons rfl) (lexes_assign (hinit e rfl) hends hcs)
  | some t =>
    have htype := htype t rfl
    cases init with
    | none =>
      simp only [Option.elim, List.cons_append, String.toList_append, List.append_assoc]
      exact .name hname.isWord hname.free (.cons rfl) (.punct .colon (.inl rfl) (.blank rfl
        (t.lexes (.inl htype) hends.endsWord hcs)))
    | some e =>
      simp only [Option.elim, List.cons_append, String.toList_append, List.append_assoc]
      exact .name hname.isWord hname.free (.cons rfl) (.punct .colon (.inl rfl) (.blank rfl
        (t.lexes (.inl htype) (.cons rfl) (lexes_assign (hinit e rfl) hends hcs))))

mutual

theorem Stmt.lexes : (s : Stmt) → s.IsLegible Literal.IsWritten → ∀ {depth cs ts}, Lexes cs ts →
    Lexes ((s.textAt depth).toList ++ cs) (s.printed ++ ts)
  | .var name type init, h, depth, cs, ts, hcs =>
    lexes_line depth (lexes_var h (.cons rfl (by decide)) (.blank rfl hcs))
  | .assign target value, h, depth, cs, ts, hcs => by
    -- The line feed behind a line also ends its last token.
    simp only [Stmt.textAt, Stmt.printed, List.append_assoc, List.cons_append]
    refine lexes_line depth ?_
    simp only [String.toList_append, List.append_assoc]
    exact target.lexes h.1 (.cons rfl) (lexes_assign h.2 (.cons rfl (by decide)) (.blank rfl hcs))
  | .ret _ value, h, depth, cs, ts, hcs => by
    simp only [Stmt.textAt, Stmt.printed, List.cons_append]
    refine lexes_line depth ?_
    simp only [String.toList_append, List.append_assoc]
    exact .keyword .returnKw (.cons rfl) (.blank rfl
      (value.lexes h (.cons rfl (by decide)) (.blank rfl hcs)))
  | .whileLoop cond body, h, depth, cs, ts, hcs => by
    simp only [Stmt.textAt, Stmt.printed, String.toList_append, List.append_assoc, List.cons_append,
      List.nil_append]
    refine lexes_line depth ?_
    simp only [String.toList_append, List.append_assoc]
    exact .keyword .whileKw (.cons rfl) (.blank rfl (cond.lexes h.1 (.cons rfl (by decide))
      (lexes_body (block_lexes body h.2) hcs)))
  | .forLoop var first last body, h, depth, cs, ts, hcs => by
    obtain ⟨hvar, hfirst, hlast, hbody⟩ := h
    simp only [Stmt.textAt, Stmt.printed, String.toList_append, List.append_assoc, List.cons_append,
      List.nil_append]
    refine lexes_line depth ?_
    simp only [String.toList_append, List.append_assoc]
    exact .keyword .forKw (.cons rfl) (.blank rfl (.name hvar.isWord hvar.free (.cons rfl)
      (.blank rfl (.keyword .fromKw (.cons rfl) (.blank rfl
        (first.lexes hfirst (.cons rfl (by decide)) (.blank rfl (.keyword .toKw (.cons rfl)
          (.blank rfl (last.lexes hlast (.cons rfl (by decide))
            (lexes_body (block_lexes body hbody) hcs)))))))))))
  | .ifElse cond body other, h, depth, cs, ts, hcs => by
    obtain ⟨hcond, hbody, hother⟩ := h
    simp only [Stmt.textAt, Stmt.printed, String.toList_append, List.append_assoc, List.cons_append]
    refine lexes_line depth ?_
    simp only [String.toList_append, List.append_assoc]
    exact .keyword .ifKw (.cons rfl) (.blank rfl (cond.lexes hcond (.cons rfl (by decide))
      (lexes_open (block_lexes body hbody (other.lexes hother hcs)))))
  | .call callee args, h, depth, cs, ts, hcs => by
    simp only [Stmt.textAt, Stmt.printed, List.append_assoc, List.cons_append, List.nil_append]
    refine lexes_line depth ?_
    simp only [String.toList_append, List.append_assoc]
    exact .name h.1.isWord h.1.free (.cons rfl) (.punct .lparen (.inl rfl)
      (args_lexes args h.2 (.cons rfl (by decide))
        (.punct .rparen (.inl rfl) (.blank rfl hcs))))

theorem Else.lexes : (other : Else) → other.IsLegible Literal.IsWritten → ∀ {depth cs ts}, Lexes cs ts →
    Lexes ((other.textAt depth).toList ++ cs) (.punct .rbrace :: (other.printed ++ ts))
  | .none, h, depth, cs, ts, hcs => lexes_line depth (.punct .rbrace (.inl rfl) (.blank rfl hcs))
  | .block body, h, depth, cs, ts, hcs => by
    simp only [Else.textAt, Else.printed, String.toList_append, List.append_assoc, List.cons_append,
      List.nil_append]
    refine lexes_line depth ?_
    exact .punct .rbrace (.inl rfl) (.blank rfl (.keyword .elseKw (.cons rfl)
      (lexes_body (block_lexes body h) hcs)))
  | .elseIf cond body other, h, depth, cs, ts, hcs => by
    obtain ⟨hcond, hbody, hother⟩ := h
    simp only [Else.textAt, Else.printed, String.toList_append, List.append_assoc, List.cons_append]
    refine lexes_line depth ?_
    simp only [String.toList_append, List.append_assoc]
    exact .punct .rbrace (.inl rfl) (.blank rfl (.keyword .elseKw (.cons rfl) (.blank rfl
      (.keyword .ifKw (.cons rfl) (.blank rfl (cond.lexes hcond (.cons rfl (by decide))
        (lexes_open (block_lexes body hbody (other.lexes hother hcs)))))))))

theorem block_lexes : (body : List Stmt) → stmtsLegible Literal.IsWritten body →
    ∀ {depth cs ts}, Lexes cs ts → Lexes ((blockTextAt depth body).toList ++ cs) (stmtsPrinted body ++ ts)
  | [], _, depth, cs, ts, hcs => hcs
  | s :: ss, h, depth, cs, ts, hcs => by
    simp only [blockTextAt, stmtsPrinted, String.toList_append, List.append_assoc]
    exact s.lexes h.1 (block_lexes ss h.2 hcs)

end

end

/-! ## Definitions -/

/-- A field or parameter whose name and type can be written. -/
def VarDef.IsLegible (v : VarDef) : Prop :=
  IsName v.name.text ∧ v.type.name.IsLegible

def StructDef.IsLegible (s : StructDef) : Prop :=
  IsName s.name.text ∧ ∀ v ∈ s.fields, v.IsLegible

/-- A function whose names and types can be written and whose literals are all `ok`. It may return
nothing, but no array of that. -/
def FunDef.IsLegible (ok : Literal → Prop) (f : FunDef) : Prop :=
  (f.returnType.name.IsLegible ∨ f.returnType.name = .void ∧ f.returnType.isArray = false) ∧
    IsName f.name.text ∧ (∀ v ∈ f.params, v.IsLegible) ∧ stmtsLegible ok f.body

/-- A program whose names and types can be written and whose literals are all `ok`. -/
def Program.IsLegible (ok : Literal → Prop) (p : Program) : Prop :=
  (∀ s ∈ p.structs, s.IsLegible) ∧ ∀ f ∈ p.functions, f.IsLegible ok

def VarDef.printed (v : VarDef) : List Token :=
  .ident v.name.text :: .punct .colon :: v.type.printed

/-- Fields or parameters with commas between them. -/
def varsPrinted (vs : List VarDef) : List Token :=
  [.punct .comma].intercalate (vs.map VarDef.printed)

def StructDef.printed (s : StructDef) : List Token :=
  .keyword .structKw :: .ident s.name.text :: .punct .lbrace ::
    (varsPrinted s.fields ++ [.punct .rbrace])

def FunDef.printed (f : FunDef) : List Token :=
  f.returnType.printed ++ .ident f.name.text :: .punct .lparen ::
    (varsPrinted f.params ++ .punct .rparen :: .punct .lbrace ::
      (stmtsPrinted f.body ++ [.punct .rbrace]))

/-- The tokens of a printed program. -/
def Program.printed (p : Program) : List Token :=
  p.structs.flatMap StructDef.printed ++ p.functions.flatMap FunDef.printed

section
variable {cs : List Char} {ts : List Token}

theorem VarDef.lexes {v : VarDef} (h : v.IsLegible) (hends : EndsWord cs) (hcs : Lexes cs ts) :
    Lexes (v.text.toList ++ cs) (v.printed ++ ts) := by
  simp only [VarDef.text, VarDef.printed, String.toList_append, List.append_assoc, List.cons_append]
  exact .name h.1.isWord h.1.free (.cons rfl) (.punct .colon (.inl rfl) (.blank rfl
    (v.type.lexes (.inl h.2) hends hcs)))

theorem varsPrinted_cons_cons (v v' : VarDef) (vs : List VarDef) :
    varsPrinted (v :: v' :: vs) = v.printed ++ .punct .comma :: varsPrinted (v' :: vs) := by
  simp [varsPrinted, List.intercalate_cons_cons]

theorem fields_lexes : (vs : List VarDef) → (∀ v ∈ vs, v.IsLegible) → Lexes cs ts →
    Lexes ((fieldsText vs).toList ++ cs) (varsPrinted vs ++ ts)
  | [], _, hcs => hcs
  | [v], h, hcs => by
    simp only [varsPrinted, List.map_cons, List.map_nil, List.intercalate_singleton]
    exact lexes_line 1 (v.lexes (h v List.mem_cons_self) (.cons rfl) (.blank rfl hcs))
  | v :: v' :: vs, h, hcs => by
    obtain ⟨hv, hvs⟩ := List.forall_mem_cons.mp h
    simp only [fieldsText, varsPrinted_cons_cons, String.toList_append, List.append_assoc,
      List.cons_append]
    refine lexes_line 1 ?_
    simp only [String.toList_append, List.append_assoc]
    exact v.lexes hv (.cons rfl) (.punct .comma (.inl rfl) (.blank rfl
      (fields_lexes (v' :: vs) hvs hcs)))

theorem params_lexes (hends : EndsWord cs) : (vs : List VarDef) → (∀ v ∈ vs, v.IsLegible) →
    Lexes cs ts →
    Lexes ((", ".intercalate (vs.map VarDef.text)).toList ++ cs) (varsPrinted vs ++ ts)
  | [], _, hcs => by simpa [varsPrinted] using hcs
  | [v], h, hcs => by
    simp only [varsPrinted, List.map_cons, List.map_nil, List.intercalate_singleton,
      String.intercalate_singleton]
    exact v.lexes (h v List.mem_cons_self) hends hcs
  | v :: v' :: vs, h, hcs => by
    obtain ⟨hv, hvs⟩ := List.forall_mem_cons.mp h
    simp only [List.map_cons, String.intercalate_cons_cons, varsPrinted_cons_cons,
      String.toList_append, List.append_assoc, List.cons_append]
    exact v.lexes hv (.cons rfl) (.punct .comma (.inl rfl) (.blank rfl
      (params_lexes hends (v' :: vs) hvs hcs)))

theorem StructDef.IsLegible.lexes {s : StructDef} (h : s.IsLegible) (hcs : Lexes cs ts) :
    Lexes (s.text.toList ++ cs) (s.printed ++ ts) := by
  simp only [StructDef.text, StructDef.printed, String.toList_append, List.append_assoc,
    List.cons_append, List.nil_append]
  refine lexes_line 0 ?_
  simp only [String.toList_append, List.append_assoc]
  exact .keyword .structKw (.cons rfl) (.blank rfl (.name h.1.isWord h.1.free (.cons rfl)
    (lexes_body (fields_lexes s.fields h.2) hcs)))

theorem FunDef.IsLegible.lexes {f : FunDef} (h : f.IsLegible Literal.IsWritten) (hcs : Lexes cs ts) :
    Lexes (f.text.toList ++ cs) (f.printed ++ ts) := by
  obtain ⟨htype, hname, hparams, hbody⟩ := h
  simp only [FunDef.text, FunDef.printed, String.toList_append, List.append_assoc, List.cons_append,
    List.nil_append]
  refine lexes_line 0 ?_
  simp only [String.toList_append, List.append_assoc]
  exact f.returnType.lexes (htype.imp_right And.left) (.cons rfl) (.blank rfl
    (.name hname.isWord hname.free (.cons rfl) (.punct .lparen (.inl rfl)
      (params_lexes (.cons rfl) f.params hparams (.punct .rparen (.inl rfl)
        (lexes_body (block_lexes f.body hbody) hcs))))))

/-- Texts one after the other, with empty lines between them. -/
theorem lexes_definitions (ds : List (String × List Token))
    (h : ∀ d ∈ ds, ∀ {cs ts}, Lexes cs ts → Lexes (d.1.toList ++ cs) (d.2 ++ ts)) :
    Lexes ("\n".intercalate (ds.map Prod.fst)).toList (ds.flatMap Prod.snd) := by
  induction ds with
  | nil => exact .nil
  | cons d ds ih =>
    obtain ⟨hd, hds⟩ := List.forall_mem_cons.mp h
    cases ds with
    | nil =>
      have hlast := hd .nil
      rw [List.append_nil] at hlast
      rw [List.map_singleton, String.intercalate_singleton]
      exact hlast
    | cons d' ds =>
      simp only [List.map_cons, String.intercalate_cons_cons, String.toList_append,
        List.append_assoc]
      exact hd (.blank rfl (ih hds))

/-- A printed program is scanned without a failure. -/
theorem Program.lexes {p : Program} (h : p.IsLegible Literal.IsWritten) :
    Lexes p.text.toList p.printed := by
  have hlexes := lexes_definitions (p.structs.map (fun s ↦ (s.text, s.printed)) ++
      p.functions.map fun f ↦ (f.text, f.printed)) <| by
    intro d hd
    rcases List.mem_append.mp hd with hd | hd
    · obtain ⟨s, hs, rfl⟩ := List.mem_map.mp hd
      exact (h.1 s hs).lexes
    · obtain ⟨f, hf, rfl⟩ := List.mem_map.mp hd
      exact (h.2 f hf).lexes
  rw [List.map_append, List.map_map, List.map_map, List.flatMap_append, List.flatMap_map,
    List.flatMap_map] at hlexes
  exact hlexes

end

end Pebble
