import Mathlib.Order.MinMax
import Pebble.Proofs.NormalForms
import Pebble.Proofs.RoundTrip

/-!
# Printing and the nesting limit

The printer puts parentheses where the tree would otherwise be read differently, and nearly all of
them stand in every text of the same tree. There are two exceptions. An operand `not` of `not` gets
parentheses it does not need, and a double literal too large for any double is printed as a quotient
in parentheses. Each adds a level of nesting that the text which was read may not have had, so a
program near the limit may be printed as a text beyond it.

Nothing else does: `Derivation.Expr.printedDepth_le` compares the depth of what is printed with that
of any derivation of the same tree. An operator that binds too loosely for its place stands in
parentheses there as well, so that the comparison goes through with these parentheses counted on
both sides.
-/

namespace Pebble

/-- Printing adds parentheses that the tree does not ask for: the operand of `not` is another `not`,
or the literal is infinite. -/
def Expr.deepens : Expr → Bool
  | .not _ (.not _ _) => true
  | .lit (.double d) _ => !d.isFinite
  | _ => false

/-- Nothing in these expressions gets parentheses that the tree does not ask for. -/
def StaysFlat (parts : List Expr) : Prop :=
  ∀ x ∈ parts, x.deepens = false

namespace StaysFlat

variable {e : Expr} {es es' : List Expr}

theorem cons_iff : StaysFlat (e :: es) ↔ e.deepens = false ∧ StaysFlat es :=
  List.forall_mem_cons

theorem append_iff : StaysFlat (es ++ es') ↔ StaysFlat es ∧ StaysFlat es' :=
  List.forall_mem_append

end StaysFlat

/-! ## Parentheses as depth -/

section
variable {yes yes' : Bool} {n : Nat}

theorem le_parenthesizedDepth : n ≤ parenthesizedDepth yes n := by
  cases yes with
  | false => exact Nat.le_refl n
  | true => exact Nat.le_succ n

theorem parenthesizedDepth_le : parenthesizedDepth yes n ≤ n + 1 := by
  cases yes with
  | false => exact Nat.le_succ n
  | true => exact Nat.le_refl _

theorem parenthesizedDepth_mono (h : yes = true → yes' = true) :
    parenthesizedDepth yes n ≤ parenthesizedDepth yes' n := by
  cases yes with
  | false => exact le_parenthesizedDepth
  | true => rw [h rfl]

end

namespace Expr

variable {e : Expr} {n : Nat}

/-- What is too loose somewhere is too loose for a primary. -/
theorem isLooserThan_tightest (h : e.isLooserThan n = true) :
    e.isLooserThan (BinOp.maxPrecedence + 1) = true := by
  cases e with
  | binary op =>
    have htight : op.precedence < BinOp.maxPrecedence + 1 := by cases op <;> decide
    exact decide_eq_true htight
  | lit | path | call | newStruct | newArray | not => cases h

/-- Unless it is a `not` itself, an operand of `not` gets parentheses as a primary does. -/
theorem isOperation_le {pos : Pos} (h : (Expr.not pos e).deepens = false)
    (hoperation : e.isOperation = true) : e.isLooserThan (BinOp.maxPrecedence + 1) = true := by
  cases e with
  | not => cases h
  | binary op =>
    have htight : op.precedence < BinOp.maxPrecedence + 1 := by cases op <;> decide
    exact decide_eq_true htight
  | lit | path | call | newStruct | newArray => cases hoperation

end Expr

/-- A scanned literal that is not infinite has a token of its own. -/
theorem Literal.IsScanned.printedDepth_eq {v : Literal} {pos : Pos} (h : v.IsScanned)
    (hflat : (Expr.lit v pos).deepens = false) : v.printedDepth = 1 := by
  have hunsigned : v.IsUnsigned := by
    refine h.isUnsigned ?_
    rintro d rfl
    exact (Bool.not_eq_false' _).mp hflat
  rw [printedDepth, hunsigned.spelling_eq]

theorem Literal.IsScanned.isWritten {v : Literal} (h : v.IsScanned) : v.IsWritten := by
  by_cases hfinite : ∀ d, v = .double d → d.isFinite = true
  · exact (h.isUnsigned hfinite).isLegible.isWritten
  · obtain ⟨d, rfl, hinfinite⟩ : ∃ d, v = .double d ∧ d.isFinite ≠ true := by
      simpa only [not_forall, exists_prop] using hfinite
    obtain ⟨bits, hle, rfl⟩ := h
    -- Of the magnitudes a text can have only one is not finite.
    rcases Nat.lt_or_eq_of_le hle with hlt | rfl
    · exact absurd (Binary64.isFinite_ofMagnitude hlt) hinfinite
    · exact isWritten_infinity

/-! ## Expressions -/

namespace Derivation

mutual

theorem Primary.printedDepth_le : (d : Primary) → d.tree.IsLegible Literal.IsScanned →
    StaysFlat d.tree.parts →
    parenthesizedDepth (d.tree.isLooserThan (BinOp.maxPrecedence + 1)) d.tree.printedDepth ≤ d.depth
  | .lit v pos, h, hflat => by
    rw [Primary.tree, Expr.parts, StaysFlat.cons_iff] at hflat
    exact Nat.le_of_eq (Literal.IsScanned.printedDepth_eq h hflat.1)
  | .path p, h, hflat => by
    rw [Primary.tree, Expr.parts, StaysFlat.cons_iff] at hflat
    exact Nat.succ_le_succ (p.printedDepth_le h hflat.2)
  | .call _ _ args, h, hflat => by
    rw [Primary.tree, Expr.parts, StaysFlat.cons_iff] at hflat
    exact Nat.succ_le_succ (argsPrintedDepth_le args h.2 hflat.2)
  | .newStruct _ _ _ args, h, hflat => by
    rw [Primary.tree, Expr.parts, StaysFlat.cons_iff] at hflat
    exact Nat.succ_le_succ (argsPrintedDepth_le args h.2 hflat.2)
  | .newArray _ _ _ _ size _, h, hflat => by
    rw [Primary.tree, Expr.parts, StaysFlat.cons_iff] at hflat
    exact Nat.succ_le_succ
      (Nat.le_trans le_parenthesizedDepth (size.printedDepth_le h.2.2 hflat.2))
  | .not _ operand, h, hflat => by
    rw [Primary.tree, Expr.parts, StaysFlat.cons_iff] at hflat
    exact Nat.succ_le_succ (Nat.le_trans (parenthesizedDepth_mono (Expr.isOperation_le hflat.1))
      (operand.printedDepth_le h hflat.2))
  | .paren _ e _, h, hflat => by
    have hdepth := Nat.le_trans le_parenthesizedDepth (e.printedDepth_le h hflat)
    exact Nat.le_trans parenthesizedDepth_le (Nat.succ_le_succ hdepth)

/-- What is printed for an expression in its place, with parentheses if it binds too loosely for it,
nests no deeper than the text it was read from. -/
theorem Expr.printedDepth_le : {n : Nat} → (e : Expr n) → e.tree.IsLegible Literal.IsScanned →
    StaysFlat e.tree.parts →
    parenthesizedDepth (e.tree.isLooserThan n) e.tree.printedDepth ≤ e.depth
  | _, .primary d, h, hflat =>
    Nat.le_trans (parenthesizedDepth_mono Expr.isLooserThan_tightest) (d.printedDepth_le h hflat)
  | n, .binary op hop pos lhs rhs, h, hflat => by
    rw [Expr.tree, Expr.parts, StaysFlat.cons_iff, StaysFlat.append_iff] at hflat
    have htight : (Pebble.Expr.binary op pos lhs.tree rhs.tree).isLooserThan n = false :=
      decide_eq_false (Nat.not_lt.mpr hop)
    have hmax := max_le_max (lhs.printedDepth_le h.1 hflat.2.1)
      (rhs.printedDepth_le h.2 hflat.2.2)
    rw [Expr.tree, htight]
    exact hmax

theorem Path.printedDepth_le : (p : Path) → p.tree.IsLegible Literal.IsScanned →
    StaysFlat p.tree.parts → p.tree.printedDepth ≤ p.depth
  | .root _ index, h, hflat => index.printedDepth_le h.2 hflat
  | .field base _ _ index, h, hflat => by
    rw [Path.tree, Path.parts, StaysFlat.append_iff] at hflat
    exact max_le_max (base.printedDepth_le h.1 hflat.1) (index.printedDepth_le h.2.2 hflat.2)

theorem Index.printedDepth_le : (index : Index) → indexLegible Literal.IsScanned index.tree →
    StaysFlat (indexParts index.tree) → indexPrintedDepth index.tree ≤ index.depth
  | .none, _, _ => Nat.le_refl 0
  | .some _ e _, h, hflat => Nat.le_trans le_parenthesizedDepth (e.printedDepth_le h hflat)

theorem argsPrintedDepth_le : (args : Listing (Expr 0)) →
    argsLegible Literal.IsScanned (argsTree args) → StaysFlat (argsParts (argsTree args)) →
    argsPrintedDepth (argsTree args) ≤ argsDepth args
  | .empty _, _, _ => Nat.le_refl 0
  | .items first rest, h, hflat => by
    rw [argsTree, argsParts, StaysFlat.append_iff] at hflat
    exact max_le_max (Nat.le_trans le_parenthesizedDepth (first.printedDepth_le h.1 hflat.1))
      (argsRestPrintedDepth_le rest h.2 hflat.2)

theorem argsRestPrintedDepth_le : (rest : Items (Expr 0)) →
    argsLegible Literal.IsScanned (argsRestTree rest) →
    StaysFlat (argsParts (argsRestTree rest)) →
    argsPrintedDepth (argsRestTree rest) ≤ argsRestDepth rest
  | .close _, _, _ => Nat.le_refl 0
  | .comma _ e rest, h, hflat => by
    rw [argsRestTree, argsParts, StaysFlat.append_iff] at hflat
    exact max_le_max (Nat.le_trans le_parenthesizedDepth (e.printedDepth_le h.1 hflat.1))
      (argsRestPrintedDepth_le rest h.2 hflat.2)

end

/-! ## Statements -/

/-- However the expression was written, it is printed nesting no deeper. -/
def KeepsDepth (e : Pebble.Expr) : Prop :=
  ∀ d : Expr 0, d.tree = e → e.printedDepth ≤ d.depth

theorem Index.printedDepth_le_of_keeps (index : Index)
    (h : ∀ e ∈ index.tree.toList, KeepsDepth e) : indexPrintedDepth index.tree ≤ index.depth := by
  cases index with
  | none => exact Nat.le_refl 0
  | some _ e _ => exact h e.tree List.mem_cons_self e rfl

theorem Path.printedDepth_le_of_keeps : (p : Path) → (∀ e ∈ p.tree.indices, KeepsDepth e) →
    p.tree.printedDepth ≤ p.depth
  | .root _ index, h => index.printedDepth_le_of_keeps h
  | .field base _ _ index, h => by
    obtain ⟨hbase, hindex⟩ := List.forall_mem_append.mp h
    exact max_le_max (base.printedDepth_le_of_keeps hbase) (index.printedDepth_le_of_keeps hindex)

theorem args_printedDepth_le_of_keeps (args : Listing (Expr 0))
    (h : ∀ e ∈ argsTree args, KeepsDepth e) : argsPrintedDepth (argsTree args) ≤ argsDepth args := by
  rw [argsTree_eq] at h
  rw [argsTree_eq, argsPrintedDepth_eq, argsDepth_eq, List.map_map]
  generalize args.toList = ds at h
  induction ds with
  | nil => exact Nat.le_refl 0
  | cons d ds ih =>
    obtain ⟨hd, hds⟩ := List.forall_mem_cons.mp h
    exact max_le_max (hd d rfl) (ih hds)

mutual

theorem Stmt.printedDepth_le : (d : Stmt) → (∀ e ∈ d.tree.exprs, KeepsDepth e) →
    d.tree.printedDepth ≤ d.depth
  | .var _ _ (.value _ e), h => h e.tree List.mem_cons_self e rfl
  | .var _ _ (.typed _ _), _ => Nat.le_refl 0
  | .var _ _ (.both _ _ _ e), h => h e.tree List.mem_cons_self e rfl
  | .assign target _ value, h => by
    obtain ⟨htarget, hvalue⟩ := List.forall_mem_append.mp h
    exact max_le_max (target.printedDepth_le_of_keeps htarget)
      (hvalue value.tree List.mem_cons_self value rfl)
  | .ret _ value, h => h value.tree List.mem_cons_self value rfl
  | .whileLoop _ cond body, h => by
    obtain ⟨hcond, hbody⟩ := List.forall_mem_cons.mp h
    exact max_le_max (hcond cond rfl) (body.printedDepth_le hbody)
  | .forLoop _ _ _ first _ last body, h => by
    obtain ⟨hfirst, hrest⟩ := List.forall_mem_cons.mp h
    obtain ⟨hlast, hbody⟩ := List.forall_mem_cons.mp hrest
    exact max_le_max (hfirst first rfl) (max_le_max (hlast last rfl) (body.printedDepth_le hbody))
  | .ifElse (.mk _ cond body other), h => by
    obtain ⟨hcond, hrest⟩ := List.forall_mem_cons.mp h
    obtain ⟨hbody, hother⟩ := List.forall_mem_append.mp hrest
    exact max_le_max (hcond cond rfl)
      (max_le_max (body.printedDepth_le hbody) (other.printedDepth_le hother))
  | .call _ _ args, h => args_printedDepth_le_of_keeps args h

theorem Else.printedDepth_le : (d : Else) → (∀ e ∈ d.tree.exprs, KeepsDepth e) →
    d.tree.printedDepth ≤ d.depth
  | .none, _ => Nat.le_refl 0
  | .block _ body, h => body.printedDepth_le h
  | .elseIf _ (.mk _ cond body other), h => by
    obtain ⟨hcond, hrest⟩ := List.forall_mem_cons.mp h
    obtain ⟨hbody, hother⟩ := List.forall_mem_append.mp hrest
    exact max_le_max (hcond cond rfl)
      (max_le_max (body.printedDepth_le hbody) (other.printedDepth_le hother))

theorem Block.printedDepth_le : (d : Block) → (∀ e ∈ stmtsExprs d.tree, KeepsDepth e) →
    stmtsPrintedDepth d.tree + 1 ≤ d.depth
  | .mk _ stmts _, h => Nat.succ_le_succ (stmtsPrintedDepth_le stmts h)

theorem stmtsPrintedDepth_le : (ds : List Stmt) →
    (∀ e ∈ stmtsExprs (stmtsTree ds), KeepsDepth e) →
    stmtsPrintedDepth (stmtsTree ds) ≤ stmtsDepth ds
  | [], _ => Nat.le_refl 0
  | d :: ds, h => by
    obtain ⟨hd, hds⟩ := List.forall_mem_append.mp h
    exact max_le_max (d.printedDepth_le hd) (stmtsPrintedDepth_le ds hds)

end

theorem Program.printedDepth_le (d : Program) (h : ∀ e ∈ d.tree.exprs, KeepsDepth e) :
    d.tree.printedDepth ≤ d.depth := by
  obtain ⟨ds⟩ := d
  induction ds with
  | nil => exact Nat.le_refl 0
  | cons x ds ih =>
    cases x with
    | struct => exact Nat.le_trans (ih h) (Nat.le_max_right ..)
    | function f =>
      obtain ⟨hf, hds⟩ := List.forall_mem_append.mp h
      exact max_le_max (f.body.printedDepth_le hf) (ih hds)

end Derivation

/-! ## Reading what was printed -/

/-- What is printed is scanned without a failure, and then accepted if it does not nest too deep. -/
theorem Program.reads_printed {p : Program} (h : p.IsLegible Literal.IsScanned) :
    ∃ ls, tokenize p.text = .ok ls ∧
      (p.printedDepth ≤ maxNesting → ∃ p', parse ls = .ok p' ∧
        p'.unplaced = p.spelled.unplaced) ∧
      (maxNesting < p.printedDepth → ∃ pos, parse ls = .error ⟨pos, .nestingTooDeep⟩) := by
  have hwritten := h.mono fun _ ↦ Literal.IsScanned.isWritten
  obtain ⟨ls, last, htokens, hplain, hscan⟩ := (Program.lexes hwritten).tokenize
  obtain ⟨d, rfl, htree, hdepth⟩ := h.exists_derivation htokens
  obtain ⟨hok, hdeep⟩ := parse_tokens d hplain last
  rw [hdepth] at hok hdeep
  exact ⟨_, hscan, fun hle ↦ ⟨d.tree, hok hle, htree⟩, fun hlt ↦ hdeep (Nat.not_le.mpr hlt)⟩

/-- The text of a program that was read is scanned without a failure, and parsed again exactly if it
nests at most 128 deep with the parentheses that printing adds. That is so for every program without
`not` applied to `not` and without infinite doubles. -/
theorem printed_text_accepted (source : String) (p : Program)
    (h : parseSource source = .ok p) :
    ∃ ls, tokenize p.text = .ok ls ∧
      (p.printedDepth ≤ maxNesting → ∃ p', parse ls = .ok p' ∧
        p'.unplaced = p.spelled.unplaced) ∧
      (maxNesting < p.printedDepth → ∃ pos, parse ls = .error ⟨pos, .nestingTooDeep⟩) ∧
      ((∀ e ∈ p.exprs, ∀ x ∈ e.parts, x.deepens = false) → p.printedDepth ≤ maxNesting) := by
  have hscanned := isScanned_of_parseSource h
  obtain ⟨ls, hls, hok, hdeep⟩ := Program.reads_printed hscanned
  refine ⟨ls, hls, hok, hdeep, fun hflat ↦ ?_⟩
  obtain ⟨ls', -, hparse⟩ := bind_eq_ok.mp h
  obtain ⟨d, hdepth, rfl⟩ := derivation_of_parse (mapError_eq_ok.mp hparse)
  refine Nat.le_trans (d.printedDepth_le ?_) hdepth
  rintro _ he e rfl
  have hlegible := (d.tree.isLegible_iff.mp hscanned).2 e.tree he
  exact Nat.le_trans le_parenthesizedDepth (e.printedDepth_le hlegible (hflat e.tree he))

/-- A product of differences is printed without parentheses it does not need. -/
theorem printed_text_accepted_differences :
    parseSource differencesSource = .ok differencesProgram ∧
    (∀ e ∈ differencesProgram.exprs, ∀ x ∈ e.parts, x.deepens = false) ∧
    ∃ ls, tokenize differencesProgram.text = .ok ls ∧ ∃ p', parse ls = .ok p' := by
  have hflat : ∀ e ∈ differencesProgram.exprs, ∀ x ∈ e.parts, x.deepens = false := by
    decide +kernel
  obtain ⟨ls, hls, hok, -, hdepth⟩ :=
    printed_text_accepted differencesSource differencesProgram parseSource_differencesSource
  obtain ⟨p', hp', -⟩ := hok (hdepth hflat)
  exact ⟨parseSource_differencesSource, hflat, ls, hls, p', hp'⟩

/-! ## Many times `not` -/

/-- `bool f(a: bool) { return not … not a }`. -/
def notsSource (n : Nat) : String :=
  String.ofList ("bool f(a: bool) \x7b return ".toList ++
    ((List.replicate n "not ".toList).flatten ++ "a \x7d".toList))

/-- The tokens of that text. -/
def notsTokens (n : Nat) : List Token :=
  ([.keyword .boolKw, .ident "f", .punct .lparen, .ident "a", .punct .colon, .keyword .boolKw,
    .punct .rparen, .punct .lbrace, .keyword .returnKw] : List Token) ++
    (List.replicate n (Token.keyword .notKw) ++ ([.ident "a", .punct .rbrace] : List Token))

theorem lexes_nots (n : Nat) : Lexes (notsSource n).toList (notsTokens n) := by
  have hname : ∀ s : String, s ∈ ["a", "f"] → IsName s := by
    intro s hs
    rcases List.mem_pair.mp hs with rfl | rfl
    · exact ⟨.of_all (by decide) (by decide), by decide⟩
    · exact ⟨.of_all (by decide) (by decide), by decide⟩
  have ha := hname "a" (by decide)
  have hf := hname "f" (by decide)
  have hoperand : Lexes ((List.replicate n "not ".toList).flatten ++ "a \x7d".toList)
      (List.replicate n (Token.keyword .notKw) ++ [.ident "a", .punct .rbrace]) := by
    induction n with
    | zero => exact .name ha.isWord ha.free (.cons rfl) (.blank rfl (.punct .rbrace (.inl rfl) .nil))
    | succ n ih => exact .keyword .notKw (.cons rfl) (.blank rfl ih)
  have hfront : "bool f(a: bool) \x7b return ".toList =
      "bool".toList ++ (" ".toList ++ ("f".toList ++ ("(".toList ++ ("a".toList ++ (":".toList ++
        (" ".toList ++ ("bool".toList ++ (")".toList ++ (" ".toList ++ ("\x7b".toList ++
          (" ".toList ++ ("return".toList ++ " ".toList)))))))))))) := by decide
  have htext : (notsSource n).toList = "bool f(a: bool) \x7b return ".toList ++
      ((List.replicate n "not ".toList).flatten ++ "a \x7d".toList) := String.toList_ofList
  rw [htext.trans (congrArg (· ++ _) hfront)]
  simp only [notsTokens, List.append_assoc, List.cons_append, List.nil_append]
  exact .keyword .boolKw (.cons rfl) (.blank rfl (.name hf.isWord hf.free (.cons rfl)
    (.punct .lparen (.inl rfl) (.name ha.isWord ha.free (.cons rfl) (.punct .colon (.inl rfl)
      (.blank rfl (.keyword .boolKw (.cons rfl) (.punct .rparen (.inl rfl) (.blank rfl
        (.punct .lbrace (.inl rfl) (.blank rfl (.keyword .returnKw (.cons rfl)
          (.blank rfl hoperand)))))))))))))

/-- Each `not` is one level where it is read and two where it is printed. -/
theorem exists_nots (n : Nat) (ls : List Lexeme)
    (h : ls.map Lexeme.token = List.replicate n (Token.keyword .notKw) ++ [.ident "a"]) :
    ∃ d : Derivation.Primary, d.tokens = ls ∧ d.depth = n + 1 ∧
      parenthesizedDepth d.tree.isOperation d.tree.printedDepth = 2 * n + 1 := by
  induction n generalizing ls with
  | zero =>
    obtain ⟨pos, rfl⟩ := map_token_eq_singleton h
    exact ⟨.path (.root ⟨"a", pos⟩ .none), rfl, rfl, rfl⟩
  | succ n ih =>
    obtain ⟨kw, ls', rfl, h'⟩ := map_token_eq_cons h
    obtain ⟨d, rfl, hdepth, hprinted⟩ := ih ls' h'
    refine ⟨.not kw d, rfl, congrArg (· + 1) hdepth, ?_⟩
    have hnot : parenthesizedDepth (Derivation.Primary.not kw d).tree.isOperation
        (Derivation.Primary.not kw d).tree.printedDepth =
          parenthesizedDepth d.tree.isOperation d.tree.printedDepth + 1 + 1 := rfl
    rw [hnot, hprinted]
    omega

/-- The program is read if the nesting limit lets it, and printed nesting nearly twice as deep. -/
theorem exists_parseSource_nots (n : Nat) (h : n + 3 ≤ maxNesting) :
    ∃ p, parseSource (notsSource (n + 1)) = .ok p ∧ p.printedDepth = 2 * n + 3 := by
  obtain ⟨ls, last, htokens, hplain, hscan⟩ := (lexes_nots (n + 1)).tokenize
  obtain ⟨typePos, ls₁, rfl, h₁⟩ := map_token_eq_cons htokens
  obtain ⟨namePos, ls₂, rfl, h₂⟩ := map_token_eq_cons h₁
  obtain ⟨lparen, ls₃, rfl, h₃⟩ := map_token_eq_cons h₂
  obtain ⟨paramPos, ls₄, rfl, h₄⟩ := map_token_eq_cons h₃
  obtain ⟨colon, ls₅, rfl, h₅⟩ := map_token_eq_cons h₄
  obtain ⟨paramType, ls₆, rfl, h₆⟩ := map_token_eq_cons h₅
  obtain ⟨rparen, ls₇, rfl, h₇⟩ := map_token_eq_cons h₆
  obtain ⟨lbrace, ls₈, rfl, h₈⟩ := map_token_eq_cons h₇
  obtain ⟨ret, ls₉, rfl, h₉⟩ := map_token_eq_cons h₈
  obtain ⟨kw, ls', rfl, h'⟩ := map_token_eq_cons h₉
  have hlast : List.replicate n (Token.keyword .notKw) ++ [.ident "a", .punct .rbrace] =
      List.replicate n (Token.keyword .notKw) ++ [.ident "a"] ++ [.punct .rbrace] := by
    rw [List.append_assoc]
    rfl
  obtain ⟨operand, rbrace, rfl, hoperand⟩ := map_token_eq_concat (h'.trans hlast)
  obtain ⟨d, rfl, hdepth, hprinted⟩ := exists_nots n operand hoperand
  -- The derivation of the program, around that of the operand.
  let program : Derivation.Program :=
    ⟨[.function ⟨.value (.plain ⟨.bool, nofun⟩ typePos), ⟨"f", namePos⟩, lparen,
      .items ⟨⟨"a", paramPos⟩, colon, .plain ⟨.bool, nofun⟩ paramType⟩ (.close rparen),
      .mk lbrace [.ret ret (.primary (.not kw d))] rbrace⟩]⟩
  have hlexemes : ⟨.keyword .boolKw, typePos⟩ :: ⟨.ident "f", namePos⟩ :: ⟨.punct .lparen, lparen⟩ ::
      ⟨.ident "a", paramPos⟩ :: ⟨.punct .colon, colon⟩ :: ⟨.keyword .boolKw, paramType⟩ ::
      ⟨.punct .rparen, rparen⟩ :: ⟨.punct .lbrace, lbrace⟩ :: ⟨.keyword .returnKw, ret⟩ ::
      ⟨.keyword .notKw, kw⟩ :: (d.tokens ++ [⟨.punct .rbrace, rbrace⟩]) = program.tokens := by
    simp [program, Derivation.Program.tokens, Derivation.Definition.tokens,
      Derivation.Function.tokens, Derivation.Block.tokens, Derivation.stmtsTokens,
      Derivation.Stmt.tokens, Derivation.Expr.tokens, Derivation.Primary.tokens,
      Derivation.ReturnType.tokens, Derivation.DataType.tokens, Derivation.Listing.tokens,
      Derivation.Items.tokens, Derivation.Field.tokens, Name.lexeme, TypeName.token]
  have hlimit : program.depth ≤ maxNesting := by
    have hprogram : program.depth = max (max (d.depth + 1) 0 + 1) 0 := rfl
    rw [hprogram, hdepth]
    omega
  rw [hlexemes] at hplain hscan
  refine ⟨program.tree, ?_, ?_⟩
  · exact bind_eq_ok.mpr ⟨_, mapError_eq_ok.mpr hscan,
      mapError_eq_ok.mpr ((parse_tokens program hplain last).1 hlimit)⟩
  · have hprogram : program.tree.printedDepth =
        max (max (parenthesizedDepth d.tree.isOperation d.tree.printedDepth + 1) 0 + 1) 0 := rfl
    rw [hprogram, hprinted]
    omega

/-- With 64 times `not` the text is accepted and what is printed for it is not. -/
theorem printed_text_rejected_nots :
    ∃ p, parseSource (notsSource 64) = .ok p ∧
      ∃ ls pos, tokenize p.text = .ok ls ∧ parse ls = .error ⟨pos, .nestingTooDeep⟩ := by
  obtain ⟨p, hp, hdepth⟩ := exists_parseSource_nots 63 (by decide)
  obtain ⟨ls, hls, -, hdeep⟩ := Program.reads_printed (isScanned_of_parseSource hp)
  obtain ⟨pos, hpos⟩ := hdeep (by rw [hdepth]; decide)
  exact ⟨p, hp, ls, pos, hls, hpos⟩

end Pebble
