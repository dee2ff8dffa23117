import Pebble.Proofs.NormalForms
import Pebble.Proofs.RoundTrip

/-!
# Printing what was folded

The text of a folded program is read as a program that folds to it again. It is not read as the
folded program itself: a number below zero is printed as a difference in parentheses, and that is
what comes back.

Three facts make up the argument. Spelling out the numbers of an expression in normal form and
folding it gives the expression back, since the differences fold to the numbers and nothing else
folds then. Folding does not look at places, so it may be done after they have been removed. And
folding keeps names and types, so that what was read from a text can still be written.
-/

namespace Pebble

/-! ## What was folded can be written -/

mutual

theorem Expr.isLegible_folded : (e : Expr) → e.IsLegible Literal.IsAny →
    e.folded.IsLegible Literal.IsAny
  | .lit _ _, _ => trivial
  | .path p, h => p.isLegible_folded h
  | .call _ args, h => ⟨h.1, argsLegible_folded args h.2⟩
  | .newStruct _ args, h => ⟨h.1, argsLegible_folded args h.2⟩
  | .newArray _ size, h => ⟨h.1, h.2.1, size.isLegible_folded h.2.2⟩
  | .not _ operand, h => by
    have hoperand := operand.isLegible_folded h
    rw [Expr.folded]
    unfold Expr.foldedNot
    split
    · trivial
    · exact hoperand
  | .binary _ _ lhs rhs, h => by
    have hoperands := And.intro (lhs.isLegible_folded h.1) (rhs.isLegible_folded h.2)
    rw [Expr.folded]
    unfold Expr.foldedBinary
    split
    · split
      · trivial
      · exact hoperands
    · exact hoperands

theorem Path.isLegible_folded : (path : Path) → path.IsLegible Literal.IsAny →
    path.folded.IsLegible Literal.IsAny
  | .root _ index, h => ⟨h.1, indexLegible_folded index h.2⟩
  | .field base _ index, h =>
    ⟨base.isLegible_folded h.1, h.2.1, indexLegible_folded index h.2.2⟩

theorem indexLegible_folded : (index : Option Expr) → indexLegible Literal.IsAny index →
    indexLegible Literal.IsAny (foldedIndex index)
  | none, _ => trivial
  | some e, h => e.isLegible_folded h

theorem argsLegible_folded : (args : List Expr) → argsLegible Literal.IsAny args →
    argsLegible Literal.IsAny (foldedArgs args)
  | [], _ => trivial
  | e :: es, h => ⟨e.isLegible_folded h.1, argsLegible_folded es h.2⟩

end

theorem Program.IsLegible.folded {p : Program} (h : p.IsLegible Literal.IsAny) :
    p.folded.IsLegible Literal.IsAny := by
  obtain ⟨houtline, hexprs⟩ := p.isLegible_iff.mp h
  rw [p.folded_eq_mapExprs, Program.isLegible_iff, p.outline_mapExprs, p.exprs_mapExprs]
  refine ⟨houtline, fun e he ↦ ?_⟩
  obtain ⟨e, hmem, rfl⟩ := List.mem_map.mp he
  exact e.isLegible_folded (hexprs e hmem)

/-! ## Folding what was spelled out -/

theorem Expr.foldedBinary_of_some {op : BinOp} {l r v : Literal} {pos at_ at_' : Pos}
    (h : foldBinary? op l r = some v) :
    foldedBinary op pos (.lit l at_) (.lit r at_') = .lit v at_ := by
  simp only [foldedBinary, literal?, h]
  rfl

theorem Literal.folded_spelled {v : Literal} (h : v.IsLegible) (pos : Pos) :
    (v.spelled pos).folded = .lit v pos := by
  have hspelled := h.spelledAs
  rw [spelled]
  generalize v.spelling = s at hspelled
  cases hspelled with
  | plain _ => rfl
  | difference _ _ _ hfold => exact Expr.foldedBinary_of_some hfold
  | differences _ _ _ _ hfirst hfold =>
    simp only [Expr.folded]
    rw [Expr.foldedBinary_of_some hfirst, Expr.foldedBinary_of_some hfold]

mutual

/-- In a normal form the numbers that were spelled out are all that folds. -/
theorem Expr.folded_spelled : (e : Expr) → e.IsNormal → e.IsLegible Literal.IsLegible →
    e.spelled.folded = e
  | .lit value pos, _, h => value.folded_spelled h pos
  | .path p, hn, h => by
    rw [Expr.spelled, Expr.folded, p.folded_spelled (List.forall_mem_cons.mp hn).2 h]
  | .call callee args, hn, h => by
    rw [Expr.spelled, Expr.folded, foldedArgs_spelled args (List.forall_mem_cons.mp hn).2 h.2]
  | .newStruct name args, hn, h => by
    rw [Expr.spelled, Expr.folded, foldedArgs_spelled args (List.forall_mem_cons.mp hn).2 h.2]
  | .newArray elem size, hn, h => by
    rw [Expr.spelled, Expr.folded, size.folded_spelled (List.forall_mem_cons.mp hn).2 h.2.2]
  | .not pos operand, hn, h => by
    obtain ⟨hredex, hoperand⟩ := Expr.isNormal_not.mp hn
    rw [Expr.spelled, Expr.folded, operand.folded_spelled hoperand h,
      Expr.foldedNot_eq_self hredex]
  | .binary op pos lhs rhs, hn, h => by
    obtain ⟨hredex, hl, hr⟩ := Expr.isNormal_binary.mp hn
    rw [Expr.spelled, Expr.folded, lhs.folded_spelled hl h.1, rhs.folded_spelled hr h.2,
      Expr.foldedBinary_eq_self hredex]

theorem Path.folded_spelled : (path : Path) → (∀ s ∈ path.parts, s.isRedex = false) →
    path.IsLegible Literal.IsLegible → path.spelled.folded = path
  | .root name index, hn, h => by
    rw [Path.spelled, Path.folded, foldedIndex_spelled index hn h.2]
  | .field base name index, hn, h => by
    obtain ⟨hbase, hindex⟩ := List.forall_mem_append.mp hn
    rw [Path.spelled, Path.folded, base.folded_spelled hbase h.1,
      foldedIndex_spelled index hindex h.2.2]

theorem foldedIndex_spelled : (index : Option Expr) →
    (∀ s ∈ indexParts index, s.isRedex = false) → indexLegible Literal.IsLegible index →
    foldedIndex (indexSpelled index) = index
  | none, _, _ => rfl
  | some e, hn, h => by rw [indexSpelled, foldedIndex, e.folded_spelled hn h]

theorem foldedArgs_spelled : (args : List Expr) → (∀ s ∈ argsParts args, s.isRedex = false) →
    argsLegible Literal.IsLegible args → foldedArgs (argsSpelled args) = args
  | [], _, _ => rfl
  | e :: es, hn, h => by
    obtain ⟨he, hes⟩ := List.forall_mem_append.mp hn
    rw [argsSpelled, foldedArgs, e.folded_spelled he h.1, foldedArgs_spelled es hes h.2]

end

theorem Program.folded_spelled {p : Program} (hnormal : ∀ e ∈ p.exprs, e.IsNormal)
    (h : p.IsLegible Literal.IsLegible) : p.spelled.folded = p := by
  rw [spelled, folded_eq_mapExprs, mapExprs_mapExprs]
  exact mapExprs_eq_self fun e he ↦
    e.folded_spelled (hnormal e he) ((p.isLegible_iff.mp h).2 e he)

/-! ## Folding without places -/

section
variable {f g : Expr → Expr}

theorem index_map_unplaced (hfg : ∀ e, (f e).unplaced = g e.unplaced) (index : Option Expr) :
    indexUnplaced (index.map f) = (indexUnplaced index).map g := by
  cases index with
  | none => rfl
  | some e => exact congrArg some (hfg e)

theorem args_map_unplaced (hfg : ∀ e, (f e).unplaced = g e.unplaced) (args : List Expr) :
    argsUnplaced (args.map f) = (argsUnplaced args).map g := by
  rw [argsUnplaced_eq, argsUnplaced_eq, List.map_map, List.map_map]
  exact List.map_congr_left fun e _ ↦ hfg e

theorem Path.unplaced_mapIndices (hfg : ∀ e, (f e).unplaced = g e.unplaced) (path : Path) :
    (path.mapIndices f).unplaced = path.unplaced.mapIndices g := by
  cases path with
  | root name index =>
    rw [mapIndices, Path.unplaced, Path.unplaced, mapIndices, index_map_unplaced hfg]
  | field base name index =>
    rw [mapIndices, Path.unplaced, Path.unplaced, mapIndices, index_map_unplaced hfg,
      base.unplaced_mapIndices hfg]

mutual

theorem Stmt.unplaced_mapExprs (hfg : ∀ e, (f e).unplaced = g e.unplaced) :
    (s : Stmt) → (s.mapExprs f).unplaced = s.unplaced.mapExprs g
  | .var name type init => by
    cases init with
    | none => rfl
    | some e => exact congrArg (fun e ↦ Stmt.var name.unplaced _ (some e)) (hfg e)
  | .assign target value => by
    simp only [Stmt.mapExprs, Stmt.unplaced, target.unplaced_mapIndices hfg, hfg]
  | .ret pos value => by simp only [Stmt.mapExprs, Stmt.unplaced, hfg]
  | .whileLoop cond body => by
    simp only [Stmt.mapExprs, Stmt.unplaced, hfg, stmtsUnplaced_mapExprs hfg body]
  | .forLoop var first last body => by
    simp only [Stmt.mapExprs, Stmt.unplaced, hfg, stmtsUnplaced_mapExprs hfg body]
  | .ifElse cond body other => by
    simp only [Stmt.mapExprs, Stmt.unplaced, hfg, stmtsUnplaced_mapExprs hfg body,
      other.unplaced_mapExprs hfg]
  | .call callee args => by simp only [Stmt.mapExprs, Stmt.unplaced, args_map_unplaced hfg]

theorem Else.unplaced_mapExprs (hfg : ∀ e, (f e).unplaced = g e.unplaced) :
    (other : Else) → (other.mapExprs f).unplaced = other.unplaced.mapExprs g
  | .none => rfl
  | .block body => by simp only [Else.mapExprs, Else.unplaced, stmtsUnplaced_mapExprs hfg body]
  | .elseIf cond body other => by
    simp only [Else.mapExprs, Else.unplaced, hfg, stmtsUnplaced_mapExprs hfg body,
      other.unplaced_mapExprs hfg]

theorem stmtsUnplaced_mapExprs (hfg : ∀ e, (f e).unplaced = g e.unplaced) :
    (body : List Stmt) → stmtsUnplaced (stmtsMapExprs f body) = stmtsMapExprs g (stmtsUnplaced body)
  | [] => rfl
  | s :: ss => by
    simp only [stmtsMapExprs, stmtsUnplaced, s.unplaced_mapExprs hfg, stmtsUnplaced_mapExprs hfg ss]

end

/-- A pass over expressions that has a counterpart without places. -/
theorem Program.unplaced_mapExprs (hfg : ∀ e, (f e).unplaced = g e.unplaced) (p : Program) :
    (p.mapExprs f).unplaced = p.unplaced.mapExprs g := by
  have hfn : FunDef.unplaced ∘ FunDef.mapExprs f = FunDef.mapExprs g ∘ FunDef.unplaced := by
    funext fn
    simp only [Function.comp_apply, FunDef.mapExprs, FunDef.unplaced,
      stmtsUnplaced_mapExprs hfg fn.body]
  simp only [mapExprs, unplaced, List.map_map, hfn]

end

theorem Expr.literal?_unplaced (e : Expr) : e.unplaced.literal? = e.literal? := by
  cases e <;> rfl

theorem Expr.foldedNot_unplaced (pos : Pos) (e : Expr) :
    (foldedNot pos e).unplaced = foldedNot .start e.unplaced := by
  unfold foldedNot
  split
  · rfl
  · next hne =>
    split
    · next b at_ heq =>
      cases e <;> cases heq
      exact absurd rfl (hne _ _)
    · rfl

theorem Expr.foldedBinary_unplaced (op : BinOp) (pos : Pos) (lhs rhs : Expr) :
    (foldedBinary op pos lhs rhs).unplaced =
      foldedBinary op .start lhs.unplaced rhs.unplaced := by
  simp only [foldedBinary, literal?_unplaced]
  split
  · next hl _ =>
    obtain ⟨at_, rfl⟩ := literal?_eq_some hl
    split <;> rfl
  · rfl

mutual

/-- Folding does not look at places. -/
theorem Expr.folded_unplaced : (e : Expr) → e.folded.unplaced = e.unplaced.folded
  | .lit value pos => rfl
  | .path p => by rw [Expr.folded, Expr.unplaced, Expr.unplaced, Expr.folded, p.folded_unplaced]
  | .call callee args => by
    rw [Expr.folded, Expr.unplaced, Expr.unplaced, Expr.folded, foldedArgs_unplaced args]
  | .newStruct name args => by
    rw [Expr.folded, Expr.unplaced, Expr.unplaced, Expr.folded, foldedArgs_unplaced args]
  | .newArray elem size => by
    rw [Expr.folded, Expr.unplaced, Expr.unplaced, Expr.folded, size.folded_unplaced]
  | .not pos operand => by
    rw [Expr.folded, Expr.unplaced, Expr.folded, Expr.foldedNot_unplaced, operand.folded_unplaced]
  | .binary op pos lhs rhs => by
    rw [Expr.folded, Expr.unplaced, Expr.folded, Expr.foldedBinary_unplaced, lhs.folded_unplaced,
      rhs.folded_unplaced]

theorem Path.folded_unplaced : (path : Path) → path.folded.unplaced = path.unplaced.folded
  | .root name index => by
    rw [Path.folded, Path.unplaced, Path.unplaced, Path.folded, foldedIndex_unplaced index]
  | .field base name index => by
    rw [Path.folded, Path.unplaced, Path.unplaced, Path.folded, base.folded_unplaced,
      foldedIndex_unplaced index]

theorem foldedIndex_unplaced :
    (index : Option Expr) → indexUnplaced (foldedIndex index) = foldedIndex (indexUnplaced index)
  | none => rfl
  | some e => congrArg some e.folded_unplaced

theorem foldedArgs_unplaced :
    (args : List Expr) → argsUnplaced (foldedArgs args) = foldedArgs (argsUnplaced args)
  | [] => rfl
  | e :: es => congrArg₂ List.cons e.folded_unplaced (foldedArgs_unplaced es)

end

theorem Program.folded_unplaced (p : Program) : p.folded.unplaced = p.unplaced.folded := by
  rw [folded_eq_mapExprs, folded_eq_mapExprs, unplaced_mapExprs Expr.folded_unplaced]

/-! ## Printing without places -/

theorem Expr.isLooserThan_unplaced (n : Nat) (e : Expr) :
    e.unplaced.isLooserThan n = e.isLooserThan n := by
  cases e <;> rfl

theorem Expr.isOperation_unplaced (e : Expr) : e.unplaced.isOperation = e.isOperation := by
  cases e <;> rfl

mutual

/-- Printing does not look at places. -/
theorem Expr.text_unplaced : (e : Expr) → e.unplaced.text = e.text
  | .lit value pos => rfl
  | .path p => p.text_unplaced
  | .call callee args => by
    rw [Expr.unplaced, Expr.text, Expr.text, argsText_unplaced args]
    rfl
  | .newStruct name args => by
    rw [Expr.unplaced, Expr.text, Expr.text, argsText_unplaced args]
    rfl
  | .newArray elem size => by
    rw [Expr.unplaced, Expr.text, Expr.text, size.text_unplaced]
    rfl
  | .not pos operand => by
    rw [Expr.unplaced, Expr.text, Expr.text, operand.text_unplaced, operand.isOperation_unplaced]
  | .binary op pos lhs rhs => by
    rw [Expr.unplaced, Expr.text, Expr.text, lhs.text_unplaced, rhs.text_unplaced,
      lhs.isLooserThan_unplaced, rhs.isLooserThan_unplaced]

theorem Path.text_unplaced : (path : Path) → path.unplaced.text = path.text
  | .root name index => by
    rw [Path.unplaced, Path.text, Path.text, indexText_unplaced index]
    rfl
  | .field base name index => by
    rw [Path.unplaced, Path.text, Path.text, base.text_unplaced, indexText_unplaced index]
    rfl

theorem indexText_unplaced :
    (index : Option Expr) → indexText (indexUnplaced index) = indexText index
  | none => rfl
  | some e => by rw [indexUnplaced, indexText, indexText, e.text_unplaced]

theorem argsText_unplaced : (args : List Expr) → argsText (argsUnplaced args) = argsText args
  | [] => rfl
  | [e] => e.text_unplaced
  | e :: e' :: es => by
    have hcons : argsText (argsUnplaced (e :: e' :: es)) =
        e.unplaced.text ++ ", " ++ argsText (argsUnplaced (e' :: es)) := rfl
    rw [hcons, e.text_unplaced, argsText_unplaced (e' :: es)]
    rfl

end

theorem TypeRef.text_unplaced (t : TypeRef) : t.unplaced.text = t.text := rfl

theorem varText_unplaced (name : Name) (type : Option TypeRef) (init : Option Expr) :
    varText name.unplaced (type.map TypeRef.unplaced) (init.map Expr.unplaced) =
      varText name type init := by
  cases type <;> cases init <;> simp only [varText, Option.map, Expr.text_unplaced] <;> rfl

mutual

theorem Stmt.textAt_unplaced (depth : Nat) : (s : Stmt) → s.unplaced.textAt depth = s.textAt depth
  | .var name type init => by rw [Stmt.unplaced, Stmt.textAt, Stmt.textAt, varText_unplaced]
  | .assign target value => by
    rw [Stmt.unplaced, Stmt.textAt, Stmt.textAt, target.text_unplaced, value.text_unplaced]
  | .ret pos value => by rw [Stmt.unplaced, Stmt.textAt, Stmt.textAt, value.text_unplaced]
  | .whileLoop cond body => by
    rw [Stmt.unplaced, Stmt.textAt, Stmt.textAt, cond.text_unplaced, blockTextAt_unplaced _ body]
  | .forLoop var first last body => by
    rw [Stmt.unplaced, Stmt.textAt, Stmt.textAt, first.text_unplaced, last.text_unplaced,
      blockTextAt_unplaced _ body]
    rfl
  | .ifElse cond body other => by
    rw [Stmt.unplaced, Stmt.textAt, Stmt.textAt, cond.text_unplaced, blockTextAt_unplaced _ body,
      other.textAt_unplaced depth]
  | .call callee args => by
    rw [Stmt.unplaced, Stmt.textAt, Stmt.textAt, argsText_unplaced]
    rfl

theorem Else.textAt_unplaced (depth : Nat) :
    (other : Else) → other.unplaced.textAt depth = other.textAt depth
  | .none => rfl
  | .block body => by
    rw [Else.unplaced, Else.textAt, Else.textAt, blockTextAt_unplaced _ body]
  | .elseIf cond body other => by
    rw [Else.unplaced, Else.textAt, Else.textAt, cond.text_unplaced, blockTextAt_unplaced _ body,
      other.textAt_unplaced depth]

theorem blockTextAt_unplaced (depth : Nat) :
    (body : List Stmt) → blockTextAt depth (stmtsUnplaced body) = blockTextAt depth body
  | [] => rfl
  | s :: ss => by
    rw [stmtsUnplaced, blockTextAt, blockTextAt, s.textAt_unplaced depth,
      blockTextAt_unplaced depth ss]

end

theorem fieldsText_unplaced :
    (vs : List VarDef) → fieldsText (vs.map VarDef.unplaced) = fieldsText vs
  | [] => rfl
  | [v] => rfl
  | v :: v' :: vs => by
    have hrest := fieldsText_unplaced (v' :: vs)
    exact congrArg (indentedLine 1 (v.text ++ ",") ++ ·) hrest

theorem Program.text_unplaced (p : Program) : p.unplaced.text = p.text := by
  have hstruct : StructDef.text ∘ StructDef.unplaced = StructDef.text := by
    funext s
    exact congrArg (fun fields ↦ indentedLine 0 ("struct " ++ s.name.text ++ " \x7b") ++ fields ++
      indentedLine 0 "\x7d") (fieldsText_unplaced s.fields)
  have hparams : VarDef.text ∘ VarDef.unplaced = VarDef.text := rfl
  have hfunction : FunDef.text ∘ FunDef.unplaced = FunDef.text := by
    funext fn
    simp only [Function.comp_apply, FunDef.text, FunDef.unplaced, List.map_map, hparams,
      blockTextAt_unplaced, TypeRef.text_unplaced, Name.unplaced]
  rw [text, text, unplaced, List.map_map, List.map_map, hstruct, hfunction]

/-! ## Reading what was folded -/

/-- The text of a folded program whose doubles are finite and not negative zero is scanned without a
failure. Parsing its tokens fails only because they nest too deep, and otherwise gives a program that
folds to the same program in other places, with the same text. -/
theorem parse_tokenize_text_folded (source : String) (p : Program)
    (h : parseSource source = .ok p)
    (hdoubles : ∀ d, .double d ∈ p.folded.literals → d.isFinite = true ∧ d ≠ -0.0) :
    ∃ ls, tokenize p.folded.text = .ok ls ∧
      ((∃ pos, parse ls = .error ⟨pos, .nestingTooDeep⟩) ∨
        ∃ p', parse ls = .ok p' ∧ p'.folded.unplaced = p.folded.unplaced ∧
          p'.folded.text = p.folded.text) := by
  have hnames : p.IsLegible Literal.IsAny := (isScanned_of_parseSource h).mono fun _ _ ↦ trivial
  have hlegible : p.folded.IsLegible Literal.IsLegible := by
    refine hnames.folded.of_literals fun v hv _ ↦ ?_
    cases v with
    | double d => exact hdoubles d hv
    | int | bool | str | null => trivial
  obtain ⟨ls, last, htokens, hplain, hscan⟩ := hlegible.lexes.tokenize
  obtain ⟨d, rfl, htree⟩ := hlegible.derivable htokens
  obtain ⟨hok, hdeep⟩ := parse_tokens d hplain last
  refine ⟨_, hscan, ?_⟩
  by_cases hdepth : d.depth ≤ maxNesting
  · refine .inr ⟨d.tree, hok hdepth, ?_⟩
    -- What is read has the numbers spelled out; folding puts them together again.
    have hfolded : d.tree.folded.unplaced = p.folded.unplaced := by
      rw [Program.folded_unplaced, htree, ← Program.folded_unplaced,
        Program.folded_spelled Program.isNormal_of_mem_folded hlegible]
    refine ⟨hfolded, ?_⟩
    rw [← Program.text_unplaced, hfolded, Program.text_unplaced]
  · exact .inl (hdeep hdepth)

/-- An index, a value and the least word, all of them below zero. -/
def signsSource : String :=
  "double f(a: [double]) \x7b a[0 - 5] = 0.0 - 2.5 return a[0 - 2147483647 - 1] \x7d"

/-- Folded, the program has signs, and its text is read back. -/
theorem parse_tokenize_text_folded_signs :
    ∃ p, parseSource signsSource = .ok p ∧
      p.folded.text = "double f(a: [double]) \x7b\n  a[(0 - 5)] = (0.0 - 2.5)\n" ++
        "  return a[(0 - 2147483647 - 1)]\n\x7d\n" ∧
      (∀ d, .double d ∈ p.folded.literals → d.isFinite = true ∧ d ≠ -0.0) ∧
      ∃ ls p', tokenize p.folded.text = .ok ls ∧ parse ls = .ok p' ∧
        p'.folded.unplaced = p.folded.unplaced ∧ p'.folded.text = p.folded.text := by
  have hok : (parseSource signsSource).toOption.any (fun p ↦
      p.folded.text = "double f(a: [double]) \x7b\n  a[(0 - 5)] = (0.0 - 2.5)\n" ++
        "  return a[(0 - 2147483647 - 1)]\n\x7d\n" &&
          decide (∀ v ∈ p.folded.literals, v.IsLegible)) = true := by
    decide +kernel
  obtain ⟨p, hp, h⟩ := eq_ok_of_any hok
  rw [Bool.and_eq_true, decide_eq_true_eq, decide_eq_true_eq] at h
  obtain ⟨htext, hliterals⟩ := h
  have hdoubles : ∀ d, .double d ∈ p.folded.literals → d.isFinite = true ∧ d ≠ -0.0 :=
    fun d hd ↦ hliterals _ hd
  obtain ⟨ls, hscan, hparse⟩ := parse_tokenize_text_folded signsSource p hp hdoubles
  refine ⟨p, hp, htext, hdoubles, ?_⟩
  obtain ⟨q, hq⟩ := parse_of_parseSource_isOk (by rw [htext]; decide +kernel) hscan
  rcases hparse with ⟨pos, hdeep⟩ | ⟨p', hp', hsame⟩
  · cases hdeep.symm.trans hq
  · exact ⟨ls, p', hscan, hp', hsame⟩

end Pebble
