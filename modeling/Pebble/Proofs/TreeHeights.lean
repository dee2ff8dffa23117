import Pebble.Proofs.NormalForms
import Pebble.Proofs.ParserCorrectness

/-!
# Nesting and the height of trees

The parser limits how deep primaries and blocks nest. Everything that walks over a tree afterwards
needs as many levels as the tree is high, and these are two different numbers: operators of one
precedence associate to the left, so a sum of many terms, which nests no deeper than one of them, is
as high as it is long. Nothing limits the length of such a run.

All other growth is limited. A run of operators at one precedence is as high as it is long, and its
right operands bind tighter; so an expression is made of one run for each precedence, with primaries
below the tightest, and the expressions in a primary nest one level deeper. If no run is longer than
`s`, every level of nesting adds at most `heightBound s 1` levels to the tree.
-/

namespace Pebble

/-! ## Heights and runs -/

mutual

/-- How many expressions stand inside each other at most. A path is one expression, with its
indices inside. -/
def Expr.height : Expr → Nat
  | .lit _ _ => 1
  | .path p => p.height + 1
  | .call _ args => argsHeight args + 1
  | .newStruct _ args => argsHeight args + 1
  | .newArray _ size => size.height + 1
  | .not _ operand => operand.height + 1
  | .binary _ _ lhs rhs => max lhs.height rhs.height + 1

def Path.height : Path → Nat
  | .root _ index => indexHeight index
  | .field base _ index => max base.height (indexHeight index)

def indexHeight : Option Expr → Nat
  | none => 0
  | some index => index.height

def argsHeight : List Expr → Nat
  | [] => 0
  | arg :: args => max arg.height (argsHeight args)

end

/-- The number of operators on the way down along left operands. -/
def Expr.leftRun : Expr → Nat
  | .binary _ _ lhs _ => lhs.leftRun + 1
  | _ => 0

/-- No run of left operands in these expressions is longer than `s`. -/
def RunsWithin (s : Nat) (parts : List Expr) : Prop :=
  ∀ e ∈ parts, e.leftRun ≤ s

namespace RunsWithin

variable {s : Nat} {e : Expr} {es es' : List Expr}

theorem cons_iff : RunsWithin s (e :: es) ↔ e.leftRun ≤ s ∧ RunsWithin s es :=
  List.forall_mem_cons

theorem append_iff : RunsWithin s (es ++ es') ↔ RunsWithin s es ∧ RunsWithin s es' :=
  List.forall_mem_append

end RunsWithin

/-- The height that nesting of depth `n` can reach if no run is longer than `s`. -/
def heightBound (s n : Nat) : Nat :=
  ((BinOp.maxPrecedence + 1) * s + 1) * n

theorem heightBound_succ (s n : Nat) :
    heightBound s (n + 1) = heightBound s n + (BinOp.maxPrecedence + 1) * s + 1 := by
  rw [heightBound, Nat.mul_succ]
  rfl

theorem heightBound_mono {s m n : Nat} (h : m ≤ n) : heightBound s m ≤ heightBound s n :=
  Nat.mul_le_mul_left _ h

theorem Expr.leftRun_lt_height : (e : Expr) → e.leftRun < e.height
  | .binary _ _ lhs rhs => by
    have := lhs.leftRun_lt_height
    rw [leftRun, height]
    omega
  | .lit .. | .path .. | .call .. | .newStruct .. | .newArray .. | .not .. => by
    rw [height]
    exact Nat.succ_pos _

mutual

/-- Nothing in an expression is higher than the expression. -/
theorem Expr.height_le_of_mem_parts : (e : Expr) → ∀ x ∈ e.parts, x.height ≤ e.height
  | .lit .. => by
    rw [Expr.parts]
    exact List.forall_mem_singleton.mpr (Nat.le_refl _)
  | .path p => by
    rw [Expr.parts, List.forall_mem_cons]
    exact ⟨Nat.le_refl _, fun x hx ↦ Nat.le_succ_of_le (p.height_le_of_mem_parts x hx)⟩
  | .call _ args | .newStruct _ args => by
    rw [Expr.parts, List.forall_mem_cons]
    exact ⟨Nat.le_refl _, fun x hx ↦ Nat.le_succ_of_le (argsHeight_le_of_mem args x hx)⟩
  | .newArray _ operand | .not _ operand => by
    rw [Expr.parts, List.forall_mem_cons]
    exact ⟨Nat.le_refl _, fun x hx ↦ Nat.le_succ_of_le (operand.height_le_of_mem_parts x hx)⟩
  | .binary _ _ lhs rhs => by
    rw [Expr.parts, List.forall_mem_cons, List.forall_mem_append, Expr.height]
    refine ⟨Nat.le_refl _, fun x hx ↦ ?_, fun x hx ↦ ?_⟩
    · have := lhs.height_le_of_mem_parts x hx
      omega
    · have := rhs.height_le_of_mem_parts x hx
      omega

theorem Path.height_le_of_mem_parts : (p : Path) → ∀ x ∈ p.parts, x.height ≤ p.height
  | .root _ index => indexHeight_le_of_mem index
  | .field base _ index => by
    rw [Path.parts, List.forall_mem_append, Path.height]
    exact ⟨fun x hx ↦ Nat.le_trans (base.height_le_of_mem_parts x hx) (Nat.le_max_left ..),
      fun x hx ↦ Nat.le_trans (indexHeight_le_of_mem index x hx) (Nat.le_max_right ..)⟩

theorem indexHeight_le_of_mem : (index : Option Expr) → ∀ x ∈ indexParts index,
    x.height ≤ indexHeight index
  | none => List.forall_mem_nil _
  | some index => index.height_le_of_mem_parts

theorem argsHeight_le_of_mem : (args : List Expr) → ∀ x ∈ argsParts args,
    x.height ≤ argsHeight args
  | [] => List.forall_mem_nil _
  | arg :: args => by
    rw [argsParts, List.forall_mem_append, argsHeight]
    exact ⟨fun x hx ↦ Nat.le_trans (arg.height_le_of_mem_parts x hx) (Nat.le_max_left ..),
      fun x hx ↦ Nat.le_trans (argsHeight_le_of_mem args x hx) (Nat.le_max_right ..)⟩

end

/-! ## The height of what is derived -/

namespace Derivation

variable {s : Nat}

mutual

/-- A primary leaves room for the runs of operators at all precedences above it. -/
theorem Primary.height_le : (d : Primary) → RunsWithin s d.tree.parts →
    d.tree.height + (BinOp.maxPrecedence + 1) * s ≤ heightBound s d.depth
  | .lit .., _ => by
    rw [Primary.depth, heightBound_succ, Primary.tree, Expr.height]
    omega
  | .path p, h => by
    rw [Primary.tree, Expr.parts, RunsWithin.cons_iff] at h
    have := p.height_le h.2
    rw [Primary.depth, heightBound_succ, Primary.tree, Expr.height]
    omega
  | .call _ _ args, h => by
    rw [Primary.tree, Expr.parts, RunsWithin.cons_iff] at h
    have := argsHeight_le args h.2
    rw [Primary.depth, heightBound_succ, Primary.tree, Expr.height]
    omega
  | .newStruct _ _ _ args, h => by
    rw [Primary.tree, Expr.parts, RunsWithin.cons_iff] at h
    have := argsHeight_le args h.2
    rw [Primary.depth, heightBound_succ, Primary.tree, Expr.height]
    omega
  | .newArray _ _ _ _ size _, h => by
    rw [Primary.tree, Expr.parts, RunsWithin.cons_iff] at h
    have := (size.height_le h.2).1 (Nat.zero_le _)
    rw [Primary.depth, heightBound_succ, Primary.tree, Expr.height]
    omega
  | .not _ operand, h => by
    rw [Primary.tree, Expr.parts, RunsWithin.cons_iff] at h
    have := operand.height_le h.2
    rw [Primary.depth, heightBound_succ, Primary.tree, Expr.height]
    omega
  | .paren _ e _, h => by
    rw [Primary.tree] at h
    have := (e.height_le h).1 (Nat.zero_le _)
    rw [Primary.depth, heightBound_succ, Primary.tree]
    omega

/-- An expression leaves room for the runs of operators that bind looser than it. Its own run is
part of it: without that, there is room for one run more. -/
theorem Expr.height_le : {n : Nat} → (e : Expr n) → RunsWithin s e.tree.parts →
    (n ≤ BinOp.maxPrecedence + 1 → e.tree.height + n * s ≤ heightBound s e.depth) ∧
    (n ≤ BinOp.maxPrecedence →
      e.tree.height + (n + 1) * s ≤ e.tree.leftRun + heightBound s e.depth)
  | n, .primary d, h => by
    rw [Expr.tree] at h
    have hheight := d.height_le h
    rw [Expr.tree, Expr.depth]
    refine ⟨fun hn ↦ ?_, fun hn ↦ ?_⟩
    · have := Nat.mul_le_mul_right s hn
      omega
    · have := Nat.mul_le_mul_right s (Nat.add_le_add_right hn 1)
      omega
  | n, .binary op hop _ lhs rhs, h => by
    rw [Expr.tree, Expr.parts, RunsWithin.cons_iff, RunsWithin.append_iff] at h
    obtain ⟨hrun, hlhs, hrhs⟩ := h
    have hl := (lhs.height_le hlhs).2 op.precedence_le
    have hr := (rhs.height_le hrhs).1 (Nat.succ_le_succ op.precedence_le)
    have hldepth : heightBound s lhs.depth ≤ heightBound s (max lhs.depth rhs.depth) :=
      heightBound_mono (Nat.le_max_left ..)
    have hrdepth : heightBound s rhs.depth ≤ heightBound s (max lhs.depth rhs.depth) :=
      heightBound_mono (Nat.le_max_right ..)
    -- The run grows by one operator here, and so does the height.
    have hown : max lhs.tree.height rhs.tree.height + 1 + (op.precedence + 1) * s ≤
        lhs.tree.leftRun + 1 + heightBound s (max lhs.depth rhs.depth) := by
      omega
    have hlooser := Nat.mul_le_mul_right s hop
    rw [Expr.tree, Expr.depth, Expr.height, Expr.leftRun]
    rw [Expr.leftRun] at hrun
    rw [Nat.succ_mul] at hown ⊢
    refine ⟨fun _ ↦ ?_, fun _ ↦ ?_⟩
    · omega
    · omega

theorem Path.height_le : (p : Path) → RunsWithin s p.tree.parts →
    p.tree.height ≤ heightBound s p.depth
  | .root _ index, h => index.height_le h
  | .field base _ _ index, h => by
    rw [Path.tree, Path.parts, RunsWithin.append_iff] at h
    rw [Path.tree, Path.height, Path.depth]
    exact Nat.max_le.mpr
      ⟨Nat.le_trans (base.height_le h.1) (heightBound_mono (Nat.le_max_left ..)),
        Nat.le_trans (index.height_le h.2) (heightBound_mono (Nat.le_max_right ..))⟩

theorem Index.height_le : (index : Index) → RunsWithin s (indexParts index.tree) →
    indexHeight index.tree ≤ heightBound s index.depth
  | .none, _ => Nat.zero_le _
  | .some _ e _, h => by
    have := (e.height_le h).1 (Nat.zero_le _)
    rw [Index.tree, indexHeight, Index.depth]
    omega

theorem argsHeight_le : (args : Listing (Expr 0)) → RunsWithin s (argsParts (argsTree args)) →
    argsHeight (argsTree args) ≤ heightBound s (argsDepth args)
  | .empty _, _ => Nat.zero_le _
  | .items first rest, h => by
    rw [argsTree, argsParts, RunsWithin.append_iff] at h
    have hfirst := (first.height_le h.1).1 (Nat.zero_le _)
    rw [argsTree, argsHeight, argsDepth]
    exact Nat.max_le.mpr
      ⟨Nat.le_trans (Nat.le_trans (Nat.le_add_right ..) hfirst) (heightBound_mono (Nat.le_max_left ..)),
        Nat.le_trans (argsRestHeight_le rest h.2) (heightBound_mono (Nat.le_max_right ..))⟩

theorem argsRestHeight_le : (rest : Items (Expr 0)) →
    RunsWithin s (argsParts (argsRestTree rest)) →
    argsHeight (argsRestTree rest) ≤ heightBound s (argsRestDepth rest)
  | .close _, _ => Nat.zero_le _
  | .comma _ e rest, h => by
    rw [argsRestTree, argsParts, RunsWithin.append_iff] at h
    have he := (e.height_le h.1).1 (Nat.zero_le _)
    rw [argsRestTree, argsHeight, argsRestDepth]
    exact Nat.max_le.mpr
      ⟨Nat.le_trans (Nat.le_trans (Nat.le_add_right ..) he) (heightBound_mono (Nat.le_max_left ..)),
        Nat.le_trans (argsRestHeight_le rest h.2) (heightBound_mono (Nat.le_max_right ..))⟩

end

/-! ## The expressions of a program -/

/-- `e` is derived, with nesting of depth `n` at most. -/
def DerivedWithin (n : Nat) (e : Pebble.Expr) : Prop :=
  ∃ d : Expr 0, d.tree = e ∧ d.depth ≤ n

variable {n : Nat}

theorem Expr.derivedWithin (e : Expr 0) (h : e.depth ≤ n) : DerivedWithin n e.tree :=
  ⟨e, rfl, h⟩

theorem Index.derivedWithin (index : Index) (h : index.depth ≤ n) :
    ∀ e ∈ index.tree.toList, DerivedWithin n e := by
  cases index with
  | none => exact List.forall_mem_nil _
  | some _ e _ => exact List.forall_mem_singleton.mpr (e.derivedWithin h)

theorem Path.derivedWithin : (p : Path) → p.depth ≤ n → ∀ e ∈ p.tree.indices, DerivedWithin n e
  | .root _ index, h => index.derivedWithin h
  | .field base _ _ index, h => by
    rw [depth, Nat.max_le] at h
    exact List.forall_mem_append.mpr ⟨base.derivedWithin h.1, index.derivedWithin h.2⟩

theorem args_derivedWithin (args : Listing (Expr 0)) (h : argsDepth args ≤ n) :
    ∀ e ∈ argsTree args, DerivedWithin n e := by
  intro e he
  rw [argsTree_eq] at he
  obtain ⟨d, hd, rfl⟩ := List.mem_map.mp he
  exact d.derivedWithin ((argsDepth_le_iff args).mp h d hd)

mutual

theorem Stmt.derivedWithin : (d : Stmt) → d.depth ≤ n → ∀ e ∈ d.tree.exprs, DerivedWithin n e
  | .var _ _ (.value _ e), h => List.forall_mem_singleton.mpr (e.derivedWithin h)
  | .var _ _ (.typed _ _), _ => List.forall_mem_nil _
  | .var _ _ (.both _ _ _ e), h => List.forall_mem_singleton.mpr (e.derivedWithin h)
  | .assign target _ value, h => by
    rw [Stmt.depth, Nat.max_le] at h
    exact List.forall_mem_append.mpr
      ⟨target.derivedWithin h.1, List.forall_mem_singleton.mpr (value.derivedWithin h.2)⟩
  | .ret _ value, h => List.forall_mem_singleton.mpr (value.derivedWithin h)
  | .whileLoop _ cond body, h => by
    rw [Stmt.depth, Nat.max_le] at h
    exact List.forall_mem_cons.mpr ⟨cond.derivedWithin h.1, body.derivedWithin h.2⟩
  | .forLoop _ _ _ first _ last body, h => by
    rw [Stmt.depth, Nat.max_le, Nat.max_le] at h
    exact List.forall_mem_cons.mpr ⟨first.derivedWithin h.1,
      List.forall_mem_cons.mpr ⟨last.derivedWithin h.2.1, body.derivedWithin h.2.2⟩⟩
  | .ifElse (.mk _ cond body other), h => by
    rw [Stmt.depth, If.depth, Nat.max_le, Nat.max_le] at h
    exact List.forall_mem_cons.mpr ⟨cond.derivedWithin h.1,
      List.forall_mem_append.mpr ⟨body.derivedWithin h.2.1, other.derivedWithin h.2.2⟩⟩
  | .call _ _ args, h => args_derivedWithin args h

theorem Else.derivedWithin : (d : Else) → d.depth ≤ n → ∀ e ∈ d.tree.exprs, DerivedWithin n e
  | .none, _ => List.forall_mem_nil _
  | .block _ body, h => body.derivedWithin h
  | .elseIf _ (.mk _ cond body other), h => by
    rw [Else.depth, If.depth, Nat.max_le, Nat.max_le] at h
    exact List.forall_mem_cons.mpr ⟨cond.derivedWithin h.1,
      List.forall_mem_append.mpr ⟨body.derivedWithin h.2.1, other.derivedWithin h.2.2⟩⟩

theorem Block.derivedWithin : (d : Block) → d.depth ≤ n →
    ∀ e ∈ stmtsExprs d.tree, DerivedWithin n e
  | .mk _ stmts _, h => stmts_derivedWithin stmts (Nat.le_of_succ_le h)

theorem stmts_derivedWithin : (ds : List Stmt) → stmtsDepth ds ≤ n →
    ∀ e ∈ stmtsExprs (stmtsTree ds), DerivedWithin n e
  | [], _ => List.forall_mem_nil _
  | d :: ds, h => by
    rw [stmtsDepth, Nat.max_le] at h
    rw [stmtsTree, stmtsExprs]
    exact List.forall_mem_append.mpr ⟨d.derivedWithin h.1, stmts_derivedWithin ds h.2⟩

end

/-- Every expression of a program is derived where the program is. -/
theorem Program.derivedWithin (d : Program) (h : d.depth ≤ n) :
    ∀ e ∈ d.tree.exprs, DerivedWithin n e := by
  intro e he
  obtain ⟨fn, hfn, he⟩ := List.mem_flatMap.mp he
  obtain ⟨x, hx, htree⟩ := List.mem_filterMap.mp hfn
  have hdepth := depth_le_iff.mp h x hx
  cases x with
  | struct => cases htree
  | function d =>
    cases htree
    exact d.body.derivedWithin hdepth e he

end Derivation

/-! ## Long sums -/

/-- `1 + 1 + … + 1` with `n` operators. -/
def onesSum : Nat → Derivation.Expr BinOp.add.precedence
  | 0 => .primary (.lit (.int 1) .start)
  | n + 1 => .binary .add (Nat.le_refl _) .start (onesSum n) (.primary (.lit (.int 1) .start))

theorem TypeName.int_ne_void : TypeName.int ≠ .void := nofun

/-- A function that returns such a sum. -/
def onesProgram (n : Nat) : Derivation.Program :=
  ⟨[.function ⟨.value (.plain ⟨.int, TypeName.int_ne_void⟩ .start), ⟨"f", .start⟩, .start, .empty .start,
    .mk .start [.ret .start ((onesSum n).weaken (Nat.zero_le _))] .start⟩]⟩

theorem onesSum_height (n : Nat) : (onesSum n).tree.height = n + 1 := by
  induction n with
  | zero => rfl
  | succ n ih =>
    rw [onesSum, Derivation.Expr.tree, Expr.height, ih]
    exact congrArg (· + 1) (Nat.max_eq_left (Nat.succ_le_succ (Nat.zero_le n)))

theorem onesSum_depth (n : Nat) : (onesSum n).depth = 1 := by
  induction n with
  | zero => rfl
  | succ n ih =>
    rw [onesSum, Derivation.Expr.depth, ih]
    rfl

theorem onesSum_plain (n : Nat) : Plain (onesSum n).tokens := by
  induction n with
  | zero => decide
  | succ n ih =>
    have hadded : Plain [⟨.punct .plus, .start⟩, ⟨.lit (.int 1), .start⟩] := by decide
    exact List.forall_mem_append.mpr ⟨ih, hadded⟩

theorem onesProgram_exprs (n : Nat) : (onesProgram n).tree.exprs = [(onesSum n).tree] := by
  have hexprs : (onesProgram n).tree.exprs = [((onesSum n).weaken (Nat.zero_le _)).tree] := rfl
  rw [hexprs, Derivation.Expr.tree_weaken]

/-- Every such function is accepted. -/
theorem parse_onesProgram (n : Nat) :
    parse ((onesProgram n).tokens ++ [⟨.eof, .start⟩]) = .ok (onesProgram n).tree := by
  have htokens : (onesProgram n).tokens =
      [⟨.keyword .intKw, .start⟩, ⟨.ident "f", .start⟩, ⟨.punct .lparen, .start⟩,
        ⟨.punct .rparen, .start⟩, ⟨.punct .lbrace, .start⟩, ⟨.keyword .returnKw, .start⟩] ++
      ((onesSum n).tokens ++ [⟨.punct .rbrace, .start⟩]) := by
    rw [← Derivation.Expr.tokens_weaken (h := Nat.zero_le _), Derivation.Program.tokens]
    simp [onesProgram, Derivation.Definition.tokens, Derivation.Function.tokens,
      Derivation.Block.tokens, Derivation.stmtsTokens, Derivation.Stmt.tokens,
      Derivation.ReturnType.tokens, Derivation.DataType.tokens, Derivation.Listing.tokens,
      Name.lexeme, TypeName.token]
  have hplain : Plain (onesProgram n).tokens := by
    rw [htokens]
    exact List.forall_mem_append.mpr ⟨by decide, List.forall_mem_append.mpr
      ⟨onesSum_plain n, by decide⟩⟩
  have hdepth : (onesProgram n).depth ≤ maxNesting := by
    refine Derivation.Program.depth_le_iff.mpr (List.forall_mem_singleton.mpr ?_)
    have hbody : Derivation.stmtsDepth
        [.ret .start ((onesSum n).weaken (Nat.zero_le _))] = max 1 0 := by
      rw [Derivation.stmtsDepth, Derivation.Stmt.depth, Derivation.Expr.depth_weaken, onesSum_depth]
      rfl
    rw [Derivation.Definition.depth, Derivation.Block.depth, hbody]
    decide
  exact (parse_tokens _ hplain .start).1 hdepth

/-- The height of an expression in an accepted program is limited by the longest run of left
operands in it together with the nesting limit, and limits that run. -/
theorem parsed_height_bounds (ls : List Lexeme) (p : Program) (h : parse ls = .ok p) :
    ∀ e ∈ p.exprs, ∀ s,
      ((∀ x ∈ e.parts, x.leftRun ≤ s) →
        e.height ≤ ((BinOp.maxPrecedence + 1) * s + 1) * maxNesting) ∧
      (e.height ≤ s → ∀ x ∈ e.parts, x.leftRun < s) := by
  intro e he s
  refine ⟨fun hruns ↦ ?_, fun hheight x hx ↦ ?_⟩
  · obtain ⟨d, hlimit, rfl⟩ := derivation_of_parse h
    obtain ⟨d, rfl, hdepth⟩ := d.derivedWithin hlimit e he
    have hheight := (d.height_le hruns).1 (Nat.zero_le _)
    rw [Nat.zero_mul, Nat.add_zero] at hheight
    exact Nat.le_trans hheight (heightBound_mono hdepth)
  · exact Nat.lt_of_lt_of_le x.leftRun_lt_height
      (Nat.le_trans (e.height_le_of_mem_parts x hx) hheight)

/-- A sum of a thousand terms. -/
theorem parsed_height_bounds_sum :
    parse ((onesProgram 999).tokens ++ [⟨.eof, .start⟩]) = .ok (onesProgram 999).tree ∧
      ∀ e ∈ (onesProgram 999).tree.exprs, e.height = 1000 ∧ e.height ≤ 4996 * 128 := by
  refine ⟨parse_onesProgram 999, fun e he ↦ ?_⟩
  have hbounds := parsed_height_bounds _ _ (parse_onesProgram 999) e he
  rw [onesProgram_exprs, List.mem_singleton] at he
  subst he
  have hheight := onesSum_height 999
  refine ⟨hheight, (hbounds 999).1 fun x hx ↦ ?_⟩
  exact Nat.le_of_lt_succ ((hbounds 1000).2 (Nat.le_of_eq hheight) x hx)

/-- The nesting limit alone limits no heights: sums are accepted however long they are. -/
theorem parsed_heights_unbounded :
    ¬∃ B, ∀ ls p, parse ls = .ok p → ∀ e ∈ p.exprs, e.height ≤ B := by
  rintro ⟨B, hB⟩
  have hheight := hB _ _ (parse_onesProgram B) (onesSum B).tree
    (by rw [onesProgram_exprs]; exact List.mem_singleton_self _)
  rw [onesSum_height] at hheight
  exact Nat.not_succ_le_self B hheight

end Pebble
