import Mathlib.Tactic.Common
import Pebble.Proofs.Derivations

/-!
# Derivations are read

On the tokens of a derivation, followed by tokens that it cannot go on with, a reader answers the
derivation's tree if the derivation nests no deeper than the reader may go, and reports that the
nesting is too deep if it does. Both outcomes are one judgement, `Parser.Reads`, which composes
along `do` blocks: what is read fits if its parts fit, and the first part that does not is where the
reader stops.

Reading goes down one level of nesting for a block or a primary, so the induction is on the levels
allowed. Within one level the lists follow the derivation: from the left along the loops, and for
operators and paths, whose derivations associate to the left, with the rest of the loop as what is
to be read after a derivation (`Parser.Loops`).
-/

namespace Pebble

open Pebble.Derivation (Items Listing DataType Field Ends StmtEnds front)

namespace Parser

/-- The reader goes from `input` to `rest` with the answer `a` if the condition holds, and finds the
nesting too deep otherwise. -/
def Reads {α : Type} (x : Parser α) (input : List Lexeme) (fits : Prop) (a : α)
    (rest : List Lexeme) : Prop :=
  ∀ last, (fits → ∃ last', x.run ⟨input, last⟩ = .ok (a, ⟨rest, last'⟩)) ∧
    (¬fits → ∃ pos, x.run ⟨input, last⟩ = .error ⟨pos, .nestingTooDeep⟩)

namespace Reads

variable {α β σ : Type} {x : Parser α} {y z : Parser β} {f : α → Parser β} {a : α} {b : β}
  {P Q : Prop} {input mid rest : List Lexeme}

theorem pure (a : α) (input : List Lexeme) : Reads (pure a) input True a input :=
  fun last ↦ ⟨fun _ ↦ ⟨last, rfl⟩, fun h ↦ absurd trivial h⟩

theorem bind (hx : Reads x input P a mid) (hf : Reads (f a) mid Q b rest) :
    Reads (x >>= f) input (P ∧ Q) b rest := by
  intro last
  rw [StateT.run_bind]
  by_cases hP : P
  · obtain ⟨last', hrun⟩ := (hx last).1 hP
    rw [hrun]
    refine ⟨fun h ↦ (hf last').1 h.2, fun h ↦ (hf last').2 fun hQ ↦ h ⟨hP, hQ⟩⟩
  · obtain ⟨pos, hrun⟩ := (hx last).2 hP
    rw [hrun]
    exact ⟨fun h ↦ absurd h.1 hP, fun _ ↦ ⟨pos, rfl⟩⟩

theorem of_iff (h : Reads x input P a rest) (hPQ : P ↔ Q) : Reads x input Q a rest :=
  propext hPQ ▸ h

/-- Behind what always fits, what follows decides. -/
theorem bind_true (hx : Reads x input True a mid) (hf : Reads (f a) mid Q b rest) :
    Reads (x >>= f) input Q b rest :=
  (hx.bind hf).of_iff (iff_of_eq (true_and Q))

/-- Before what always fits, what comes first decides. -/
theorem bind_pure {g : α → β} (hx : Reads x input P a rest) :
    Reads (x >>= fun a ↦ Pure.pure (g a)) input P (g a) rest :=
  (hx.bind (pure (g a) rest)).of_iff (iff_of_eq (and_true P))

theorem peek {f : Option Token → Parser β} (h : Reads (f (front input)) input P b rest) :
    Reads (peek >>= f) input P b rest :=
  h

theorem here {f : Pos → Parser β} {l : Lexeme} (h : Reads (f l.pos) (l :: mid) P b rest) :
    Reads (here >>= f) (l :: mid) P b rest :=
  h

theorem advance {f : Unit → Parser β} {l : Lexeme} (h : Reads (f ()) mid P b rest) :
    Reads (advance >>= f) (l :: mid) P b rest :=
  fun _ ↦ h (some l.pos)

theorem ifSees_pos {t : Token} (ht : front input = some t) (h : Reads y input P b rest) :
    Reads (sees t >>= fun b ↦ if b = true then y else z) input P b rest := by
  show Reads (if decide (front input = some t) = true then y else z) input P b rest
  rwa [if_pos (decide_eq_true ht)]

theorem ifSees_neg {t : Token} (ht : front input ≠ some t) (h : Reads z input P b rest) :
    Reads (sees t >>= fun b ↦ if b = true then y else z) input P b rest := by
  show Reads (if decide (front input = some t) = true then y else z) input P b rest
  rwa [decide_eq_false ht, if_neg Bool.false_ne_true]

theorem expect {t : Token} {pos : Pos} {f : Pos → Parser β} (h : Reads (f pos) mid P b rest) :
    Reads (expect t >>= f) (⟨t, pos⟩ :: mid) P b rest := by
  have hexpect : Reads (Parser.expect t) (⟨t, pos⟩ :: mid) True pos mid :=
    ifSees_pos rfl (here (advance (pure pos mid)))
  exact hexpect.bind_true h

theorem expectPunct {p : Punct} {pos : Pos} {f : Unit → Parser β} (h : Reads (f ()) mid P b rest) :
    Reads (expectPunct p >>= f) (⟨.punct p, pos⟩ :: mid) P b rest :=
  bind_true (expect (pure () mid)) h

theorem name {wanted : Expectation} {x : Name} {f : Name → Parser β}
    (h : Reads (f x) mid P b rest) : Reads (name wanted >>= f) (x.lexeme :: mid) P b rest := by
  have hname : Reads (Parser.name wanted) (x.lexeme :: mid) True x mid :=
    peek (here (advance (pure x mid)))
  exact hname.bind_true h

end Reads

/-- A loop that has enough rounds left for its tokens goes from `input` to `rest` with the state
`s'` if the condition holds. -/
def Loops {σ : Type} (more : σ → Option Token → Bool) (step : σ → Parser σ) (s : σ)
    (input : List Lexeme) (fits : Prop) (s' : σ) (rest : List Lexeme) : Prop :=
  ∀ rounds, input.length < rounds → Reads (loopFor more step rounds s) input fits s' rest

namespace Loops

variable {σ : Type} {more : σ → Option Token → Bool} {step : σ → Parser σ} {s s' s'' : σ}
  {P Q : Prop} {input mid rest : List Lexeme}

theorem reads (h : Loops more step s input P s' rest) :
    Reads (loop more step s) input P s' rest :=
  h (input.length + 1) (Nat.lt_succ_self _)

theorem of_iff (h : Loops more step s input P s' rest) (hPQ : P ↔ Q) :
    Loops more step s input Q s' rest :=
  propext hPQ ▸ h

theorem stop (hmore : more s (front input) = false) : Loops more step s input True s input := by
  intro rounds hrounds
  obtain _ | rounds := rounds
  · exact absurd hrounds (Nat.not_lt_zero _)
  · refine .peek ?_
    rw [hmore]
    exact .pure s input

theorem round (hmore : more s (front input) = true) (hstep : Reads (step s) input P s' mid)
    (hshorter : mid.length < input.length) (hrest : Loops more step s' mid Q s'' rest) :
    Loops more step s input (P ∧ Q) s'' rest := by
  intro rounds hrounds
  obtain _ | rounds := rounds
  · exact absurd hrounds (Nat.not_lt_zero _)
  · refine .peek ?_
    rw [if_pos hmore]
    exact hstep.bind (hrest rounds (by omega))

end Loops

/-- What is left when tokens have been taken off the front. -/
theorem length_lt (l : Lexeme) (ls mid : List Lexeme) :
    mid.length < (l :: (ls ++ mid)).length := by
  rw [List.length_cons, List.length_append]
  omega

section
variable {rest : List Lexeme}

/-! ## Lists -/

section
variable {α δ : Type} {close : Punct} {item : Parser α} {ofItem : δ → List Lexeme} {tree : δ → α}
  {fits : δ → Prop}

/-- The item is read before a comma and before the closing sign. -/
def ReadsItem (close : Punct) (item : Parser α) (ofItem : δ → List Lexeme) (tree : δ → α)
    (fits : δ → Prop) (d : δ) : Prop :=
  ∀ rest, front rest = some (.punct .comma) ∨ front rest = some (.punct close) →
    Reads item (ofItem d ++ rest) (fits d) (tree d) rest

theorem front_items (items : Items δ) :
    front (items.tokens close ofItem ++ rest) = some (.punct .comma) ∨
      front (items.tokens close ofItem ++ rest) = some (.punct close) := by
  cases items with
  | close pos => exact .inr rfl
  | comma pos d items => exact .inl rfl

theorem loops_items (hclose : close ≠ .comma) (items : Items δ)
    (hitem : ∀ d ∈ items.toList, ReadsItem close item ofItem tree fits d) (read : List α)
    (rest : List Lexeme) :
    Loops (fun _ t ↦ t = some (.punct .comma))
      (fun items ↦ advance >>= fun _ ↦ item >>= fun a ↦ pure (a :: items)) read
      (items.tokens close ofItem ++ rest) (∀ d ∈ items.toList, fits d)
      ((items.toList.map tree).reverse ++ read) (⟨.punct close, items.last⟩ :: rest) := by
  induction items generalizing read with
  | close pos =>
    have hstop : decide (some (Token.punct close) = some (.punct .comma)) = false := by
      simpa using hclose
    exact Loops.of_iff (.stop hstop) (by simp [Items.toList])
  | comma pos d items ih =>
    obtain ⟨hd, hitems⟩ := List.forall_mem_cons.mp hitem
    simp only [Items.tokens, List.cons_append, List.append_assoc, Items.toList, List.map_cons,
      List.reverse_cons, List.nil_append, Items.last, List.forall_mem_cons]
    exact .round (decide_eq_true rfl) (.advance (.bind_pure (hd _ (front_items items))))
      (length_lt _ _ _) (ih hitems (tree d :: read))

theorem reads_commaList (hclose : close ≠ .comma) (l : Listing δ)
    (hitem : ∀ d ∈ l.toList, ReadsItem close item ofItem tree fits d)
    (hfront : ∀ d rest, front (ofItem d ++ rest) ≠ some (.punct close)) :
    Reads (commaList close item) (l.tokens close ofItem ++ rest) (∀ d ∈ l.toList, fits d)
      (l.toList.map tree) rest := by
  cases l with
  | empty pos =>
    exact Reads.of_iff (.ifSees_pos rfl (.advance (.pure _ rest))) (by simp [Listing.toList])
  | items first items =>
    obtain ⟨hfirst, hitems⟩ := List.forall_mem_cons.mp hitem
    have hloop := loops_items hclose items hitems [tree first] rest
    simp only [Listing.tokens, List.append_assoc, Listing.toList, List.map_cons,
      List.forall_mem_cons]
    refine .ifSees_neg (hfront _ _) (.bind (hfirst _ (front_items items)) ?_)
    have hanswer : tree first :: items.toList.map tree =
      ((items.toList.map tree).reverse ++ [tree first]).reverse := by simp
    rw [hanswer]
    exact Reads.of_iff (.bind hloop.reads (.expectPunct (.pure _ rest))) (iff_of_eq (and_true _))

end

/-! ## Types -/

theorem reads_typeName (t : Derivation.ValueType) {pos : Pos} :
    Reads typeName (⟨t.val.token, pos⟩ :: rest) True t.val rest := by
  obtain ⟨t, hvoid⟩ := t
  cases t with
  | void => exact absurd rfl hvoid
  | int | double | bool | string | struct =>
    exact fun last ↦ ⟨fun _ ↦ ⟨some pos, rfl⟩, fun h ↦ absurd trivial h⟩

theorem reads_typeRef (d : DataType) : Reads typeRef (d.tokens ++ rest) True d.tree rest := by
  cases d with
  | plain name pos =>
    have hfront : front (⟨name.val.token, pos⟩ :: rest) ≠ some (.punct .lbracket) := by
      obtain ⟨name, -⟩ := name
      cases name <;> nofun
    exact .here (.ifSees_neg hfront (.bind_pure (reads_typeName name)))
  | array lbracket elem pos rbracket =>
    exact .here (.ifSees_pos rfl
      (.advance (.bind_true (reads_typeName elem) (.expectPunct (.pure _ rest)))))

theorem reads_varDef (d : Field) : Reads varDef (d.tokens ++ rest) True d.tree rest :=
  .name (.expectPunct (.bind_pure (reads_typeRef d.type)))

theorem reads_fields {close : Punct} (hclose : close ≠ .comma) (l : Listing Field) :
    Reads (commaList close varDef) (l.tokens close Field.tokens ++ rest) True
      (l.toList.map Field.tree) rest := by
  have hitem : ∀ d ∈ l.toList,
      ReadsItem close varDef Field.tokens Field.tree (fun _ ↦ True) d :=
    fun d _ rest _ ↦ reads_varDef d
  exact Reads.of_iff (reads_commaList hclose l hitem fun d rest ↦ nofun) (by simp)

/-! ## Expressions -/

/-- The reader takes every expression whose operators bind at least as tightly as `p`, down to so
many levels. -/
def ReadsExprs (expr : Parser Expr) (levels p : Nat) : Prop :=
  ∀ (e : Derivation.Expr p) (rest : List Lexeme), Ends p rest →
    Reads expr (e.tokens ++ rest) (e.depth ≤ levels) e.tree rest

section
variable {levels : Nat}

/-- A chain goes through an expression to what the loop does after it. -/
theorem reads_chain_then {p : Nat} {operand : Parser Expr}
    (hoperand : ReadsExprs operand levels (p + 1)) :
    {m : Nat} → (e : Derivation.Expr m) → p ≤ m → ∀ {Q : Prop} {a : Expr} {mid rest : List Lexeme},
    Ends (p + 1) mid →
    Loops (fun _ t ↦ (opAt? p t).isSome)
      (fun lhs ↦ peek >>= fun t ↦ match opAt? p t with
        | none => pure lhs
        | some op => here >>= fun pos ↦ advance >>= fun _ ↦ operand >>= fun rhs ↦
          pure (.binary op pos lhs rhs))
      e.tree mid Q a rest →
    Reads (chain p operand) (e.tokens ++ mid) (e.depth ≤ levels ∧ Q) a rest
  | _, .primary d, _, _, _, _, _, hends, hloop =>
    .bind (hoperand (.primary d) _ hends) hloop.reads
  | _, .binary op hop pos lhs rhs, hm, _, _, mid, _, hends, hloop => by
    rcases Nat.eq_or_lt_of_le (Nat.le_trans hm hop) with rfl | htight
    · have hop : opAt? op.precedence (front (⟨op.token, pos⟩ :: (rhs.tokens ++ mid))) = some op :=
        opAt?_eq_some.mpr ⟨rfl, rfl⟩
      have hstep := Loops.round (by rw [hop]; rfl)
        (Reads.peek (by rw [hop]; exact .here (.advance (.bind_pure (hoperand rhs mid hends)))))
        (length_lt _ _ _) hloop
      have hlhs := reads_chain_then hoperand lhs (Nat.le_refl _)
        (Derivation.ends_op (Nat.lt_succ_self _)) hstep
      rw [Derivation.Expr.tokens, List.append_assoc, List.cons_append, Derivation.Expr.depth]
      exact Reads.of_iff hlhs (by rw [Nat.max_le, and_assoc])
    · exact .bind (hoperand (.binary op htight pos lhs rhs) _ hends) hloop.reads

theorem reads_chain {p : Nat} {operand : Parser Expr}
    (hoperand : ReadsExprs operand levels (p + 1)) : ReadsExprs (chain p operand) levels p := by
  intro e rest hends
  have hnone : opAt? p (front rest) = none := by
    rw [Option.eq_none_iff_forall_ne_some]
    intro op hop
    obtain ⟨hfront, rfl⟩ := opAt?_eq_some.mp hop
    exact absurd (hends.looser op hfront) (Nat.lt_irrefl _)
  refine Reads.of_iff (reads_chain_then hoperand e (Nat.le_refl p) (hends.mono (Nat.le_succ p))
    (.stop ?_)) (iff_of_eq (and_true _))
  rw [hnone]
  rfl

theorem reads_expression {primary : Parser Expr}
    (hprimary : ∀ (d : Derivation.Primary) (rest : List Lexeme), Ends 5 rest →
      Reads primary (d.tokens ++ rest) (d.depth ≤ levels) d.tree rest) :
    ReadsExprs (expression primary) levels 0 := by
  have htightest : ReadsExprs primary levels 5 := by
    intro e rest hends
    cases e with
    | primary d => exact hprimary d rest hends
    | binary op h => exact absurd h (by cases op <;> decide)
  exact reads_chain (reads_chain (reads_chain (reads_chain (reads_chain htightest))))

variable {expr : Parser Expr} (hexpr : ReadsExprs expr levels 0)
include hexpr

theorem reads_arguments (lparen : Pos) (args : Listing (Derivation.Expr 0)) :
    Reads (arguments expr) (⟨.punct .lparen, lparen⟩ :: (Derivation.argsTokens args ++ rest))
      (Derivation.argsDepth args ≤ levels) (Derivation.argsTree args) rest := by
  rw [Derivation.argsTokens_eq, Derivation.argsTree_eq, Derivation.argsDepth_le_iff]
  have hclose : Punct.rparen ≠ .comma := nofun
  refine .expectPunct (reads_commaList hclose args ?_ (Derivation.Expr.front_tokens_ne rfl))
  intro e _ rest hrest
  refine hexpr e rest ?_
  rcases hrest with hrest | hrest <;> exact .of_front hrest rfl

theorem reads_bracketed (lbracket : Pos) (e : Derivation.Expr 0) (rbracket : Pos)
    (rest : List Lexeme) :
    Reads (bracketed expr)
      (⟨.punct .lbracket, lbracket⟩ :: (e.tokens ++ ⟨.punct .rbracket, rbracket⟩ :: rest))
      (e.depth ≤ levels) e.tree rest :=
  .expectPunct (.of_iff (.bind (hexpr e _ (.of_front rfl rfl)) (.expectPunct (.pure _ rest)))
    (iff_of_eq (and_true _)))

theorem reads_index? (index : Derivation.Index) (hend : front rest ≠ some (.punct .lbracket)) :
    Reads (index? expr) (index.tokens ++ rest) (index.depth ≤ levels) index.tree rest := by
  cases index with
  | none => exact .ifSees_neg hend (.of_iff (.pure _ rest) (by simp [Derivation.Index.depth]))
  | some lbracket e rbracket =>
    rw [Derivation.Index.tokens, List.cons_append, List.append_assoc]
    exact .ifSees_pos rfl (.bind_pure (reads_bracketed hexpr lbracket e rbracket rest))

/-- Reading goes through a path to what the loop over further fields does after it. -/
theorem reads_pathFrom_then : (p : Derivation.Path) → ∀ {Q : Prop} {a : Path}
    {mid rest : List Lexeme}, front mid ≠ some (.punct .lbracket) →
    Loops (fun _ t ↦ t = some (.punct .dot))
      (fun base ↦ advance >>= fun _ ↦ name .fieldName >>= fun x ↦ index? expr >>= fun index ↦
        pure (.field base x index))
      p.tree mid Q a rest →
    Reads (pathFrom expr p.start) (p.tail ++ mid) (p.depth ≤ levels ∧ Q) a rest
  | .root x index, _, _, _, _, hend, hloop => .bind (reads_index? hexpr index hend) hloop.reads
  | .field base dot x index, _, _, mid, _, hend, hloop => by
    rw [Derivation.Path.start, Derivation.Path.tail, List.append_assoc, List.cons_append,
      List.cons_append, Derivation.Path.depth, Nat.max_le, and_assoc]
    exact reads_pathFrom_then base (by rintro ⟨⟩)
      (.round (decide_eq_true rfl) (.advance (.name (.bind_pure (reads_index? hexpr index hend))))
        (length_lt _ (x.lexeme :: index.tokens) _) hloop)

theorem reads_pathFrom (p : Derivation.Path) (hends : Ends 5 rest) :
    Reads (pathFrom expr p.start) (p.tail ++ rest) (p.depth ≤ levels) p.tree rest :=
  .of_iff (reads_pathFrom_then hexpr p hends.no_lbracket (.stop (decide_eq_false hends.no_dot)))
    (iff_of_eq (and_true _))

theorem reads_newObject_array (elem : Derivation.ValueType) (pos lbracket : Pos)
    (size : Derivation.Expr 0) (rbracket : Pos) :
    Reads (newObject expr) (⟨elem.val.token, pos⟩ :: ⟨.punct .lbracket, lbracket⟩ ::
        (size.tokens ++ ⟨.punct .rbracket, rbracket⟩ :: rest))
      (size.depth ≤ levels) (.newArray ⟨elem.val, false, pos⟩ size.tree) rest := by
  have hsize := reads_bracketed hexpr lbracket size rbracket rest
  obtain ⟨elem, hvoid⟩ := elem
  cases elem with
  | void => exact absurd rfl hvoid
  | struct text =>
    refine .here (.peek ?_)
    exact .name (x := ⟨text, pos⟩) (.ifSees_neg nofun (.ifSees_pos rfl (.bind_pure hsize)))
  | int | double | bool | string =>
    exact .here (.peek (.bind_true (reads_typeName ⟨_, hvoid⟩) (.bind_pure hsize)))

omit hexpr

theorem reads_primaryWithin (levels : Nat) (d : Derivation.Primary) (rest : List Lexeme)
    (hends : Ends 5 rest) :
    Reads (primaryWithin levels) (d.tokens ++ rest) (d.depth ≤ levels) d.tree rest := by
  -- The induction is on the levels that are left: what a primary contains is read with one less.
  induction levels generalizing d rest with
  | zero =>
    have hdeep : ¬d.depth ≤ 0 := by
      cases d <;> simp [Derivation.Primary.depth]
    exact fun last ↦ ⟨fun h ↦ absurd h hdeep, fun _ ↦ ⟨_, rfl⟩⟩
  | succ levels ih =>
    have hexpr := reads_expression ih
    cases d with
    | lit value pos =>
      exact .peek (.here (.peek (.advance (.of_iff (.pure _ rest)
        (by simp [Derivation.Primary.depth])))))
    | path p =>
      rw [Derivation.Primary.tokens, Derivation.Primary.depth, Nat.add_le_add_iff_right,
        p.tokens_eq, List.cons_append]
      exact .peek (.here (.peek (.name (.ifSees_neg (p.front_tail_ne hends.no_lparen)
        (.bind_pure (reads_pathFrom hexpr p hends))))))
    | call callee lparen args =>
      rw [Derivation.Primary.depth, Nat.add_le_add_iff_right]
      exact .peek (.here (.peek (.name (.ifSees_pos rfl
        (.bind_pure (reads_arguments hexpr lparen args))))))
    | newStruct kw name lparen args =>
      rw [Derivation.Primary.depth, Nat.add_le_add_iff_right]
      exact .peek (.here (.peek (.advance (.here (.peek (.name (.ifSees_pos rfl
        (.bind_pure (reads_arguments hexpr lparen args)))))))))
    | newArray kw elem pos lbracket size rbracket =>
      simp only [Derivation.Primary.tokens, List.cons_append, List.append_assoc, List.nil_append,
        Derivation.Primary.depth, Nat.add_le_add_iff_right]
      exact .peek (.here (.peek (.advance
        (reads_newObject_array hexpr elem pos lbracket size rbracket))))
    | not kw operand =>
      rw [Derivation.Primary.depth, Nat.add_le_add_iff_right]
      exact .peek (.here (.advance (.bind_pure (ih operand rest hends))))
    | paren lparen e rparen =>
      simp only [Derivation.Primary.tokens, List.cons_append, List.append_assoc, List.nil_append,
        Derivation.Primary.depth, Nat.add_le_add_iff_right]
      exact .peek (.advance (.of_iff (.bind (hexpr e _ (.of_front rfl rfl))
        (.expectPunct (.pure _ rest))) (iff_of_eq (and_true _))))

theorem reads_exprWithin (levels : Nat) : ReadsExprs (exprWithin levels) levels 0 :=
  reads_expression (reads_primaryWithin levels)

end

/-! ## Statements -/

/-- The reader takes every block, down to so many levels. -/
def ReadsBlocks (block : Parser (List Stmt)) (levels : Nat) : Prop :=
  ∀ (d : Derivation.Block) (rest : List Lexeme),
    Reads block (d.tokens ++ rest) (d.depth ≤ levels) d.tree rest

section
variable {levels : Nat} {expr : Parser Expr} {block : Parser (List Stmt)}
  (hexpr : ReadsExprs expr levels 0)
include hexpr

theorem reads_varStmt (kw : Pos) (x : Name) (init : Derivation.VarInit) (hends : StmtEnds rest) :
    Reads (varStmt expr) (⟨.keyword .varKw, kw⟩ :: x.lexeme :: (init.tokens ++ rest))
      (init.depth ≤ levels) (init.tree x) rest := by
  cases init with
  | value assign e =>
    exact .advance (.name (.ifSees_pos rfl (.advance (.bind_pure (hexpr e rest hends.ends)))))
  | typed colon type =>
    have hdone : front rest ≠ some (.punct .assign) := hends.front_ne rfl (by rintro ⟨⟩)
    exact .advance (.name (.ifSees_neg nofun (.ifSees_pos rfl (.advance
      (.bind_true (reads_typeRef type) (.ifSees_neg hdone (.of_iff (.pure _ rest)
        (by simp [Derivation.VarInit.depth]))))))))
  | both colon type assign e =>
    simp only [Derivation.VarInit.tokens, List.cons_append, List.append_assoc]
    exact .advance (.name (.ifSees_neg nofun (.ifSees_pos rfl (.advance
      (.bind_true (reads_typeRef type) (.ifSees_pos rfl (.advance
        (.bind_pure (hexpr e rest hends.ends)))))))))

variable (hblock : ReadsBlocks block levels)
include hblock

/-- The further branches of an `if` are read one by one. -/
theorem loops_else : (other : Derivation.Else) → StmtEnds rest →
    ∀ branches : List (Expr × List Stmt), ∃ read : Branches,
      Loops (fun read t ↦ read.2.isNone && t = some (.keyword .elseKw)) (elseBranch expr block)
        (branches, none) (other.tokens ++ rest) (other.depth ≤ levels) read rest ∧
      Else.ofBranches read.1.reverse read.2 =
        branches.reverse.foldr (fun b other ↦ .elseIf b.1 b.2 other) other.tree
  | .none, hends, branches => by
    have helse : front rest ≠ some (.keyword .elseKw) := hends.front_ne rfl Token.noConfusion
    refine ⟨(branches, none), Loops.of_iff (.stop ?_) (by simp [Derivation.Else.depth]), ?_⟩
    · exact Bool.and_eq_false_imp.mpr fun _ ↦ decide_eq_false helse
    · exact Else.ofBranches_eq _ _
  | .block kw body, hends, branches => by
    refine ⟨(branches, some body.tree), Loops.of_iff (.round rfl (.advance
      (.ifSees_pos body.front_tokens (.bind_pure (hblock body rest)))) (length_lt _ _ _)
      (.stop rfl)) (iff_of_eq (and_true _)), ?_⟩
    exact Else.ofBranches_eq _ _
  | .elseIf kw (.mk ifKw cond body other), hends, branches => by
    obtain ⟨read, hloop, hread⟩ := loops_else other hends ((cond.tree, body.tree) :: branches)
    have hif : some (Token.keyword .ifKw) ≠ some (.punct .lbrace) := by rintro ⟨⟩
    simp only [Derivation.Else.tokens, Derivation.If.tokens, List.cons_append, List.append_assoc,
      Derivation.Else.depth, Derivation.If.depth]
    refine ⟨read, Loops.of_iff (.round rfl (.advance (.ifSees_neg hif (.ifSees_pos rfl (.advance
      (.bind (hexpr cond _ (.of_front body.front_tokens rfl)) (.bind_pure (hblock body _)))))))
      ?_ hloop) ?_, ?_⟩
    · simp only [List.length_cons, List.length_append]
      omega
    · rw [Nat.max_le, Nat.max_le, and_assoc]
    · simpa [Derivation.Else.tree] using hread

theorem reads_stmt (s : Derivation.Stmt) (hends : StmtEnds rest) :
    Reads (stmt expr block) (s.tokens ++ rest) (s.depth ≤ levels) s.tree rest := by
  cases s with
  | var kw name init => exact .peek (reads_varStmt hexpr kw name init hends)
  | assign target sign value =>
    simp only [Derivation.Stmt.tokens, target.tokens_eq, List.cons_append, List.append_assoc,
      Derivation.Stmt.depth, Nat.max_le]
    exact .peek (.name (.ifSees_neg (target.front_tail_ne (by rintro ⟨⟩)) (.bind
      (reads_pathFrom hexpr target (.of_front rfl rfl))
      (.expectPunct (.bind_pure (hexpr value rest hends.ends))))))
  | ret kw value => exact .peek (.here (.advance (.bind_pure (hexpr value rest hends.ends))))
  | whileLoop kw cond body =>
    simp only [Derivation.Stmt.tokens, List.cons_append, List.append_assoc, Derivation.Stmt.depth,
      Nat.max_le]
    exact .peek (.advance (.bind (hexpr cond _ (.of_front body.front_tokens rfl))
      (.bind_pure (hblock body rest))))
  | forLoop kw var fromKw first toKw last body =>
    simp only [Derivation.Stmt.tokens, List.cons_append, List.append_assoc, Derivation.Stmt.depth,
      Nat.max_le]
    exact .peek (.advance (.name (.expect (.bind (hexpr first _ (.of_front rfl rfl))
      (.expect (.bind (hexpr last _ (.of_front body.front_tokens rfl))
        (.bind_pure (hblock body rest))))))))
  | ifElse branch =>
    obtain ⟨kw, cond, body, other⟩ := branch
    obtain ⟨read, hloop, hread⟩ := loops_else hexpr hblock other hends []
    have htree : Else.ofBranches read.1.reverse read.2 = other.tree := hread
    simp only [Derivation.Stmt.tokens, Derivation.If.tokens, List.cons_append, List.append_assoc,
      Derivation.Stmt.depth, Derivation.If.depth, Nat.max_le, Derivation.Stmt.tree, ← htree]
    exact .peek (.advance (.bind (hexpr cond _ (.of_front body.front_tokens rfl))
      (.bind (hblock body _) (.bind_pure hloop.reads))))
  | call callee lparen args =>
    exact .peek (.name (.ifSees_pos rfl (.bind_pure (reads_arguments hexpr lparen args))))

end

/-- Statements up to the closing brace are read one by one. -/
theorem loops_stmts {levels : Nat} {stmt : Parser Stmt}
    (hstmt : ∀ (s : Derivation.Stmt) (rest : List Lexeme), StmtEnds rest →
      Reads stmt (s.tokens ++ rest) (s.depth ≤ levels) s.tree rest)
    (ss : List Derivation.Stmt) (rbrace : Pos) (rest : List Lexeme) (read : List Stmt) :
    Loops (fun _ t ↦ t ≠ some (.punct .rbrace))
      (fun stmts ↦ peek >>= fun t ↦ if t.getD .eof = .eof
        then unexpected (.token (.punct .rbrace)) else stmt >>= fun s ↦ pure (s :: stmts))
      read (ss.flatMap Derivation.Stmt.tokens ++ ⟨.punct .rbrace, rbrace⟩ :: rest)
      (∀ s ∈ ss, s.depth ≤ levels) ((ss.map Derivation.Stmt.tree).reverse ++ read)
      (⟨.punct .rbrace, rbrace⟩ :: rest) := by
  induction ss generalizing read with
  | nil => exact Loops.of_iff (.stop rfl) (by simp)
  | cons s ss ih =>
    obtain ⟨l, ls, hs, hl⟩ := s.exists_tokens_eq
    have heof : l.token ≠ .eof := by
      intro h
      rw [h] at hl
      cases hl
    simp only [List.flatMap_cons, List.append_assoc, List.map_cons, List.reverse_cons,
      List.nil_append, List.cons_append, List.forall_mem_cons]
    refine .round ?_ (.peek ?_) ?_ (ih (s.tree :: read))
    · exact decide_eq_true (s.front_tokens_ne rfl _)
    · rw [if_neg (by rw [hs]; exact heof)]
      exact .bind_pure (hstmt s _ (Derivation.stmtEnds_stmts ss rbrace))
    · rw [hs]
      exact length_lt l ls _

theorem reads_blockWithin (levels : Nat) : ReadsBlocks (blockWithin levels) levels := by
  induction levels with
  | zero =>
    intro d rest
    have hdeep : ¬d.depth ≤ 0 := by
      cases d
      simp [Derivation.Block.depth]
    exact fun last ↦ ⟨fun h ↦ absurd h hdeep, fun _ ↦ ⟨_, rfl⟩⟩
  | succ levels ih =>
    intro d rest
    obtain ⟨lbrace, ss, rbrace⟩ := d
    have hloop := loops_stmts (fun s _ hends ↦ reads_stmt (reads_exprWithin levels) ih s hends)
      ss rbrace rest []
    have htree : ss.map Derivation.Stmt.tree =
        ((ss.map Derivation.Stmt.tree).reverse ++ []).reverse := by simp
    simp only [Derivation.Block.tokens, Derivation.stmtsTokens_eq, List.cons_append,
      List.append_assoc, List.nil_append, Derivation.Block.depth, Nat.add_le_add_iff_right,
      Derivation.stmtsDepth_le_iff, Derivation.Block.tree, Derivation.stmtsTree_eq]
    rw [htree]
    exact .expectPunct (.of_iff (.bind hloop.reads (.expectPunct (.pure _ rest)))
      (iff_of_eq (and_true _)))

/-! ## Definitions -/

theorem reads_structDef (d : Derivation.Struct) :
    Reads structDef (d.tokens ++ rest) True d.tree rest :=
  .advance (.name (.expectPunct (.bind_pure (reads_fields (by decide) d.fields))))

theorem reads_returnType (d : Derivation.ReturnType) :
    Reads returnType (d.tokens ++ rest) True d.tree rest := by
  cases d with
  | void kw => exact .ifSees_pos rfl (.expect (.pure _ rest))
  | value type =>
    have hreads : Reads typeRef (type.tokens ++ rest) True type.tree rest := reads_typeRef type
    refine .ifSees_neg (type.front_tokens_ne rfl rest) fun last ↦
      ⟨fun _ ↦ ?_, fun h ↦ absurd trivial h⟩
    obtain ⟨last', hrun⟩ := (hreads last).1 trivial
    refine ⟨last', ?_⟩
    change tryCatch (typeRef.run _) _ = _
    rw [Derivation.ReturnType.tokens, hrun]
    rfl

theorem reads_funDef (d : Derivation.Function) :
    Reads funDef (d.tokens ++ rest) (d.body.depth ≤ maxNesting) d.tree rest := by
  simp only [Derivation.Function.tokens, List.append_assoc, List.cons_append]
  exact .bind_true (reads_returnType d.returnType) (.name (.expectPunct (.bind_true
    (reads_fields (by decide) d.params) (.bind_pure (reads_blockWithin maxNesting d.body rest)))))

theorem reads_definition (d : Derivation.Definition) (structs : List StructDef)
    (functions : List FunDef) :
    Reads (sees (.keyword .structKw) >>= fun b ↦ if b = true
        then structDef >>= fun d ↦ pure (d :: structs, functions)
        else funDef >>= fun d ↦ pure (structs, d :: functions))
      (d.tokens ++ rest) (d.depth ≤ maxNesting)
      (d.struct?.toList ++ structs, d.function?.toList ++ functions) rest := by
  cases d with
  | struct d =>
    exact .ifSees_pos rfl (.bind_pure (.of_iff (reads_structDef d)
      (by simp [Derivation.Definition.depth])))
  | function d =>
    obtain ⟨l, ls, hd, -, hstruct⟩ := (Derivation.Definition.function d).exists_tokens_eq
    refine .ifSees_neg ?_ (.bind_pure (reads_funDef d))
    rw [hd]
    exact fun h ↦ absurd (hstruct.mp (Option.some.inj h)) nofun

theorem loops_definitions (ds : List Derivation.Definition)
    (hend : (front rest).getD .eof = .eof) (read : List StructDef × List FunDef) :
    Loops (fun _ t ↦ t.getD .eof ≠ .eof)
      (fun (read : List StructDef × List FunDef) ↦ sees (.keyword .structKw) >>= fun b ↦ if b = true
        then structDef >>= fun d ↦ pure (d :: read.1, read.2)
        else funDef >>= fun d ↦ pure (read.1, d :: read.2))
      read (ds.flatMap Derivation.Definition.tokens ++ rest) (∀ d ∈ ds, d.depth ≤ maxNesting)
      ((ds.filterMap Derivation.Definition.struct?).reverse ++ read.1,
        (ds.filterMap Derivation.Definition.function?).reverse ++ read.2) rest := by
  induction ds generalizing read with
  | nil => exact Loops.of_iff (.stop (decide_eq_false (not_not_intro hend))) (by simp)
  | cons d ds ih =>
    obtain ⟨l, ls, hd, heof, -⟩ := d.exists_tokens_eq
    have hread : (((d :: ds).filterMap Derivation.Definition.struct?).reverse ++ read.1,
        ((d :: ds).filterMap Derivation.Definition.function?).reverse ++ read.2) =
        ((ds.filterMap Derivation.Definition.struct?).reverse ++ (d.struct?.toList ++ read.1),
          (ds.filterMap Derivation.Definition.function?).reverse ++
            (d.function?.toList ++ read.2)) := by
      cases d <;> simp [List.filterMap_cons, Derivation.Definition.struct?,
        Derivation.Definition.function?]
    rw [hread]
    simp only [List.flatMap_cons, List.append_assoc, List.forall_mem_cons]
    refine .round (decide_eq_true ?_) (reads_definition d read.1 read.2) ?_ (ih _)
    · rw [hd]
      exact heof
    · rw [hd]
      exact length_lt l ls _

/-- The definitions before the end mark or the end of the tokens are read. -/
theorem reads_program (d : Derivation.Program) (hend : (front rest).getD .eof = .eof) :
    Reads program (d.tokens ++ rest) (d.depth ≤ maxNesting) d.tree rest := by
  have hloop := loops_definitions d.definitions hend ([], [])
  have htree : d.tree =
      ⟨((d.definitions.filterMap Derivation.Definition.struct?).reverse ++ []).reverse,
        ((d.definitions.filterMap Derivation.Definition.function?).reverse ++ []).reverse⟩ := by
    simp [Derivation.Program.tree]
  rw [Derivation.Program.depth_le_iff, htree]
  exact .bind_pure hloop.reads

end

end Parser

end Pebble
