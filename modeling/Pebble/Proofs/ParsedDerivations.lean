import Mathlib.Tactic.Common
import Pebble.Proofs.Derivations
import Pebble.Proofs.Succeeding

/-!
# What the readers consume

Where a reader succeeds, the tokens it has consumed are those of a derivation whose tree is its
answer and which nests no deeper than the reader was allowed to. This is followed through the
readers one after another: `Parser.Consumes` relates the answer of a reader at a cursor to what it
consumed there, and composes along `do` blocks.

In a loop the derivation grows to the right while the reader collects its state from the left. Where
derivations associate to the left (operators, paths) the state is the tree of what has been read.
Lists and the branches of an `if` associate to the right; what has been read of them is a context
that turns a derivation of the rest into a derivation of the whole.
-/

namespace Pebble

/-- The next token stands at the cursor's position. -/
theorem Cursor.exists_rest_eq {c : Cursor} {t : Token} (h : c.token? = some t) :
    ∃ ls, c.rest = ⟨t, c.pos⟩ :: ls := by
  obtain ⟨rest, last⟩ := c
  cases rest with
  | nil => cases h
  | cons l ls =>
    cases h
    exact ⟨ls, rfl⟩

namespace Parser

open Pebble.Derivation (Items Listing DataType Field ValueType)

/-- If the reader succeeds at this cursor, then the tokens it has consumed hold no end mark and are
related to its answer. -/
def Consumes {α : Type} (c : Cursor) (x : Parser α) (D : α → List Lexeme → Prop) : Prop :=
  ∀ a c', x.run c = .ok (a, c') →
    ∃ ls, c.rest = ls ++ c'.rest ∧ (∀ l ∈ ls, l.token ≠ .eof) ∧ D a ls

namespace Consumes

variable {α β σ : Type} {c : Cursor} {x : Parser α} {f : α → Parser β} {D : α → List Lexeme → Prop}
  {E : β → List Lexeme → Prop}

theorem pure {a : α} (h : D a []) : Consumes c (pure a) D := by
  intro b c' hrun
  cases hrun
  exact ⟨[], rfl, by simp, h⟩

theorem bind (hx : Consumes c x D)
    (hf : ∀ a ls c', D a ls → Consumes c' (f a) fun b ls' ↦ E b (ls ++ ls')) :
    Consumes c (x >>= f) E := by
  intro b c'' hrun
  rw [StateT.run_bind] at hrun
  obtain ⟨⟨a, c'⟩, hx', hrun⟩ := bind_eq_ok.mp hrun
  obtain ⟨ls, hc, hne, ha⟩ := hx a c' hx'
  obtain ⟨ls', hc', hne', hb⟩ := hf a ls c' ha b c'' hrun
  refine ⟨ls ++ ls', by rw [hc, hc', List.append_assoc], ?_, hb⟩
  intro l hl
  rcases List.mem_append.mp hl with hl | hl
  · exact hne l hl
  · exact hne' l hl

theorem mono {D' : α → List Lexeme → Prop} (hx : Consumes c x D) (h : ∀ a ls, D a ls → D' a ls) :
    Consumes c x D' := by
  intro a c' hrun
  obtain ⟨ls, hc, hne, ha⟩ := hx a c' hrun
  exact ⟨ls, hc, hne, h a ls ha⟩

theorem unexpected {wanted : Expectation} : Consumes c (unexpected wanted) D := by
  intro a c' hrun
  cases hrun

theorem peek {f : Option Token → Parser β} (h : Consumes c (f c.token?) E) :
    Consumes c (peek >>= f) E :=
  h

theorem here {f : Pos → Parser β} (h : Consumes c (f c.pos) E) : Consumes c (here >>= f) E :=
  h

theorem advance {t : Token} {f : Unit → Parser β} (ht : c.token? = some t) (hne : t ≠ .eof)
    (h : ∀ c', Consumes c' (f ()) fun b ls ↦ E b (⟨t, c.pos⟩ :: ls)) :
    Consumes c (advance >>= f) E := by
  intro b c' hrun
  obtain ⟨rest, hrest⟩ := Cursor.exists_rest_eq ht
  have hnext : c.next.rest = rest := by
    rw [Cursor.next, hrest]
  obtain ⟨ls, hc, hls, hb⟩ := h c.next b c' hrun
  rw [hnext] at hc
  exact ⟨⟨t, c.pos⟩ :: ls, by rw [hrest, hc, List.cons_append],
    List.forall_mem_cons.mpr ⟨hne, hls⟩, hb⟩

theorem ifSees {t : Token} {y z : Parser β} (hy : c.token? = some t → Consumes c y E)
    (hz : Consumes c z E) : Consumes c (sees t >>= fun b ↦ if b = true then y else z) E := by
  show Consumes c (if decide (c.token? = some t) = true then y else z) E
  split
  · next ht => exact hy (of_decide_eq_true ht)
  · exact hz

theorem length_lt {r : α × Cursor} (hx : Consumes c x fun _ ls ↦ ls ≠ [])
    (hrun : x.run c = .ok r) : r.2.rest.length < c.rest.length := by
  obtain ⟨ls, hrest, -, hne⟩ := hx r.1 r.2 hrun
  rw [hrest, List.length_append]
  exact Nat.lt_add_of_pos_left (List.length_pos_iff.mpr hne)

/-- What one round adds, a whole loop adds. -/
theorem loop {more : σ → Option Token → Bool} {step : σ → Parser σ} (I : σ → List Lexeme → Prop)
    (ls : List Lexeme) (hstep : ∀ s ls c', I s ls → more s c'.token? = true →
      Consumes c' (step s) fun s' ls' ↦ I s' (ls ++ ls')) {s : σ} (hs : I s ls) :
    Consumes c (loop more step s) fun s' ls' ↦ I s' (ls ++ ls') := by
  show Consumes c (loopFor more step (c.rest.length + 1) s) _
  generalize c.rest.length + 1 = rounds
  induction rounds generalizing s ls c with
  | zero =>
    exact .pure (by rwa [List.append_nil])
  | succ rounds ih =>
    refine .peek ?_
    split
    · next hmore =>
      refine (hstep s ls c hs hmore).bind fun s' ls' c' hs' ↦ ?_
      simp only [← List.append_assoc]
      exact ih _ hs'
    · exact .pure (by rwa [List.append_nil])

end Consumes

section
variable {c : Cursor}

/-! ## Single tokens -/

theorem consumes_expect {t : Token} (hne : t ≠ .eof) :
    Consumes c (expect t) fun pos ls ↦ ls = [⟨t, pos⟩] := by
  refine .ifSees (fun ht ↦ ?_) .unexpected
  exact .here (.advance ht hne fun c' ↦ .pure rfl)

theorem consumes_expectPunct {p : Punct} :
    Consumes c (expectPunct p) fun _ ls ↦ ∃ pos, ls = [⟨.punct p, pos⟩] := by
  have hne : Token.punct p ≠ .eof := Token.noConfusion
  exact (consumes_expect hne).bind fun pos ls c' hls ↦ .pure ⟨pos, by rw [hls, List.append_nil]⟩

theorem consumes_keyword {k : Keyword} :
    Consumes c (expect (.keyword k)) fun pos ls ↦ ls = [⟨.keyword k, pos⟩] :=
  consumes_expect Token.noConfusion

theorem consumes_name {wanted : Expectation} :
    Consumes c (name wanted) fun x ls ↦ ls = [x.lexeme] := by
  refine .peek ?_
  split
  · next text ht => exact .here (.advance ht Token.noConfusion fun c' ↦ .pure rfl)
  · exact .unexpected

/-! ## Lists -/

section
variable {α δ : Type} {close : Punct} {item : Parser α} {ofItem : δ → List Lexeme} {tree : δ → α}
  {fits : δ → Prop}

/-- The answer and the tokens of a derivation. -/
def Derived (tokens : δ → List Lexeme) (tree : δ → α) (fits : δ → Prop) (a : α)
    (ls : List Lexeme) : Prop :=
  ∃ d, fits d ∧ tokens d = ls ∧ tree d = a

/-- These items, collected backwards, and these tokens are the beginning of a list: with any rest
of a list they make one. -/
def ListBegun (close : Punct) (ofItem : δ → List Lexeme) (tree : δ → α) (fits : δ → Prop)
    (items : List α) (ls : List Lexeme) : Prop :=
  ∀ rest : Items δ, (∀ d ∈ rest.toList, fits d) →
    ∃ l : Listing δ, (∀ d ∈ l.toList, fits d) ∧
      l.tokens close ofItem = ls ++ rest.tokens close ofItem ∧
      l.toList.map tree = items.reverse ++ rest.toList.map tree

theorem ListBegun.first {d : δ} (hd : fits d) :
    ListBegun close ofItem tree fits [tree d] (ofItem d) :=
  fun rest hrest ↦ ⟨.items d rest, List.forall_mem_cons.mpr ⟨hd, hrest⟩, rfl, rfl⟩

theorem ListBegun.comma {items : List α} {ls : List Lexeme} {d : δ} (pos : Pos)
    (h : ListBegun close ofItem tree fits items ls) (hd : fits d) :
    ListBegun close ofItem tree fits (tree d :: items)
      (ls ++ ⟨.punct .comma, pos⟩ :: ofItem d) := by
  intro rest hrest
  obtain ⟨l, hl, htokens, htree⟩ := h (.comma pos d rest) (List.forall_mem_cons.mpr ⟨hd, hrest⟩)
  refine ⟨l, hl, ?_, ?_⟩
  · simpa [Items.tokens] using htokens
  · simpa [Items.toList] using htree

theorem ListBegun.finish {items : List α} {ls : List Lexeme} (pos : Pos)
    (h : ListBegun close ofItem tree fits items ls) :
    Derived (Listing.tokens close ofItem) (·.toList.map tree) (fun l ↦ ∀ d ∈ l.toList, fits d)
      items.reverse (ls ++ [⟨.punct close, pos⟩]) := by
  obtain ⟨l, hl, htokens, htree⟩ := h (.close pos) (by simp [Items.toList])
  exact ⟨l, hl, htokens, by simpa [Items.toList] using htree⟩

theorem consumes_commaList (hitem : ∀ c, Consumes c item (Derived ofItem tree fits)) :
    Consumes c (commaList close item)
      (Derived (Listing.tokens close ofItem) (·.toList.map tree)
        fun l ↦ ∀ d ∈ l.toList, fits d) := by
  refine .ifSees (fun ht ↦ ?_) ?_
  · exact .advance ht Token.noConfusion fun c' ↦ .pure ⟨.empty c.pos, by simp [Listing.toList], rfl, rfl⟩
  · refine (hitem c).bind ?_
    rintro _ _ c' ⟨first, hfirst, rfl, rfl⟩
    refine (Consumes.loop (ListBegun close ofItem tree fits) (ofItem first) ?_
      (.first hfirst)).bind ?_
    · intro items ls c' hread hcomma
      refine .advance (of_decide_eq_true hcomma) Token.noConfusion fun c'' ↦ ?_
      refine (hitem c'').bind ?_
      rintro _ _ c''' ⟨d, hd, rfl, rfl⟩
      exact .pure (by simpa using hread.comma c'.pos hd)
    · intro items ls c'' hread
      refine consumes_expectPunct.bind ?_
      rintro _ _ c''' ⟨pos, rfl⟩
      exact .pure (by simpa using hread.finish pos)

end

/-! ## Types -/

theorem consumes_typeName :
    Consumes c typeName fun t ls ↦ t ≠ .void ∧ ls = [⟨t.token, c.pos⟩] := by
  refine .peek ?_
  have hword : ∀ t : TypeName, c.token? = some t.token → t ≠ .void →
      Consumes c (advance >>= fun _ ↦ pure t) fun t ls ↦ t ≠ .void ∧ ls = [⟨t.token, c.pos⟩] := by
    intro t ht hvoid
    have hne : t.token ≠ .eof := by cases t <;> exact Token.noConfusion
    exact .advance ht hne fun c' ↦ .pure ⟨hvoid, rfl⟩
  split
  · next ht => exact hword .int ht TypeName.noConfusion
  · next ht => exact hword .double ht TypeName.noConfusion
  · next ht => exact hword .bool ht TypeName.noConfusion
  · next ht => exact hword .string ht TypeName.noConfusion
  · next x ht => exact hword (.struct x) ht TypeName.noConfusion
  · exact .bind .unexpected fun _ _ _ h ↦ absurd h id

theorem consumes_typeRef :
    Consumes c typeRef (Derived DataType.tokens DataType.tree fun _ ↦ True) := by
  refine .here (.ifSees (fun ht ↦ ?_) ?_)
  · refine .advance ht Token.noConfusion fun c' ↦ ?_
    refine consumes_typeName.bind ?_
    rintro elem _ c'' ⟨hvoid, rfl⟩
    refine consumes_expectPunct.bind ?_
    rintro _ _ c''' ⟨pos, rfl⟩
    exact .pure ⟨.array c.pos ⟨elem, hvoid⟩ c'.pos pos, trivial, rfl, rfl⟩
  · refine consumes_typeName.bind ?_
    rintro t _ c' ⟨hvoid, rfl⟩
    exact .pure ⟨.plain ⟨t, hvoid⟩ c.pos, trivial, rfl, rfl⟩

theorem consumes_varDef : Consumes c varDef (Derived Field.tokens Field.tree fun _ ↦ True) := by
  refine consumes_name.bind ?_
  rintro x _ c' rfl
  refine consumes_expectPunct.bind ?_
  rintro _ _ c'' ⟨pos, rfl⟩
  refine consumes_typeRef.bind ?_
  rintro _ _ c''' ⟨type, -, rfl, rfl⟩
  exact .pure ⟨⟨x, pos, type⟩, trivial, by simp [Field.tokens], rfl⟩

/-! ## Expressions -/

/-- A derivation of an expression whose root binds at least as tightly as `p`. -/
abbrev DerivedExpr (levels p : Nat) : Expr → List Lexeme → Prop :=
  Derived (@Derivation.Expr.tokens p) Derivation.Expr.tree (·.depth ≤ levels)

section
variable {levels : Nat}

theorem consumes_chain {p : Nat} {operand : Parser Expr}
    (hoperand : ∀ c, Consumes c operand (DerivedExpr levels (p + 1))) (c : Cursor) :
    Consumes c (chain p operand) (DerivedExpr levels p) := by
  refine (hoperand c).bind ?_
  rintro _ _ c' ⟨first, hfirst, rfl, rfl⟩
  refine .loop (DerivedExpr levels p) _ ?_
    ⟨first.weaken (Nat.le_succ p), by simpa, by simp, by simp⟩
  rintro _ _ c' ⟨lhs, hlhs, rfl, rfl⟩ _
  refine .peek ?_
  split
  · exact .pure ⟨lhs, hlhs, by simp, rfl⟩
  · next op hop =>
    obtain ⟨ht, rfl⟩ := opAt?_eq_some.mp hop
    have hne : op.token ≠ .eof := by cases op <;> exact Token.noConfusion
    refine .here (.advance ht hne fun c'' ↦ ?_)
    refine (hoperand c'').bind ?_
    rintro _ _ c''' ⟨rhs, hrhs, rfl, rfl⟩
    refine .pure ⟨.binary op (Nat.le_refl _) c'.pos lhs rhs, ?_, ?_, ?_⟩
    · exact Nat.max_le.mpr ⟨hlhs, hrhs⟩
    · simp [Derivation.Expr.tokens]
    · rw [Derivation.Expr.tree]

theorem consumes_expression {primary : Parser Expr}
    (hprimary : ∀ c, Consumes c primary
      (Derived Derivation.Primary.tokens Derivation.Primary.tree (·.depth ≤ levels)))
    (c : Cursor) : Consumes c (expression primary) (DerivedExpr levels 0) := by
  have htightest : ∀ c, Consumes c primary (DerivedExpr levels 5) := by
    refine fun c ↦ (hprimary c).mono ?_
    rintro _ _ ⟨d, hd, rfl, rfl⟩
    exact ⟨.primary d, hd, rfl, rfl⟩
  exact consumes_chain
    (consumes_chain (consumes_chain (consumes_chain (consumes_chain htightest)))) c

variable {expr : Parser Expr} (hexpr : ∀ c, Consumes c expr (DerivedExpr levels 0))
include hexpr

theorem consumes_arguments :
    Consumes c (arguments expr) fun es ls ↦ ∃ lparen args, Derivation.argsDepth args ≤ levels ∧
      ls = ⟨.punct .lparen, lparen⟩ :: Derivation.argsTokens args ∧
      Derivation.argsTree args = es := by
  refine consumes_expectPunct.bind ?_
  rintro _ _ c' ⟨lparen, rfl⟩
  refine (consumes_commaList hexpr).mono ?_
  rintro _ _ ⟨args, hargs, rfl, rfl⟩
  exact ⟨lparen, args, (Derivation.argsDepth_le_iff args).mpr hargs,
    by rw [Derivation.argsTokens_eq]; rfl, Derivation.argsTree_eq args⟩

theorem consumes_bracketed :
    Consumes c (bracketed expr) fun a ls ↦ ∃ lbracket e rbracket,
      Derivation.Expr.depth e ≤ levels ∧ ls = ⟨.punct .lbracket, lbracket⟩ ::
        (Derivation.Expr.tokens (n := 0) e ++ [⟨.punct .rbracket, rbracket⟩]) ∧ e.tree = a := by
  refine consumes_expectPunct.bind ?_
  rintro _ _ c' ⟨lbracket, rfl⟩
  refine (hexpr c').bind ?_
  rintro _ _ c'' ⟨e, he, rfl, rfl⟩
  refine consumes_expectPunct.bind ?_
  rintro _ _ c''' ⟨rbracket, rfl⟩
  exact .pure ⟨lbracket, e, rbracket, he, by simp, rfl⟩

theorem consumes_index? : Consumes c (index? expr)
    (Derived Derivation.Index.tokens Derivation.Index.tree (·.depth ≤ levels)) := by
  refine .ifSees (fun _ ↦ ?_) ?_
  · refine (consumes_bracketed hexpr).bind ?_
    rintro _ _ c' ⟨lbracket, e, rbracket, he, rfl, rfl⟩
    exact .pure ⟨.some lbracket e rbracket, he, by simp [Derivation.Index.tokens], rfl⟩
  · exact .pure ⟨.none, Nat.zero_le levels, rfl, rfl⟩

theorem consumes_pathFrom {x : Name} : Consumes c (pathFrom expr x) fun a ls ↦
    Derived Derivation.Path.tokens Derivation.Path.tree (·.depth ≤ levels) a (x.lexeme :: ls) := by
  refine (consumes_index? hexpr).bind ?_
  rintro _ _ c' ⟨index, hindex, rfl, rfl⟩
  refine .loop (Derived Derivation.Path.tokens Derivation.Path.tree (·.depth ≤ levels))
    (x.lexeme :: index.tokens) ?_ ⟨.root x index, hindex, rfl, rfl⟩
  intro _ _ c' ⟨base, hbase, htokens, htree⟩ hdot
  subst htokens htree
  refine .advance (of_decide_eq_true hdot) Token.noConfusion fun c'' ↦ ?_
  refine consumes_name.bind ?_
  rintro x _ c''' rfl
  refine (consumes_index? hexpr).bind ?_
  rintro _ _ c'''' ⟨index, hindex, rfl, rfl⟩
  refine .pure ⟨.field base c'.pos x index, Nat.max_le.mpr ⟨hbase, hindex⟩, ?_, rfl⟩
  simp [Derivation.Path.tokens]

/-- A derivation of a primary. -/
abbrev DerivedPrimary (levels : Nat) : Expr → List Lexeme → Prop :=
  Derived Derivation.Primary.tokens Derivation.Primary.tree (·.depth ≤ levels)

theorem consumes_newObject (kw : Pos) : Consumes c (newObject expr) fun a ls ↦
    DerivedPrimary (levels + 1) a (⟨.keyword .newKw, kw⟩ :: ls) := by
  have harray : ∀ (elem : TypeName) (c' : Cursor), elem ≠ .void →
      Consumes c' (bracketed expr >>= fun size ↦ pure (.newArray ⟨elem, false, c.pos⟩ size))
        fun a ls ↦ DerivedPrimary (levels + 1) a
          (⟨.keyword .newKw, kw⟩ :: ⟨elem.token, c.pos⟩ :: ls) := by
    intro elem c' hvoid
    refine (consumes_bracketed hexpr).bind ?_
    rintro _ _ c'' ⟨lbracket, size, rbracket, hsize, rfl, rfl⟩
    exact .pure ⟨.newArray kw ⟨elem, hvoid⟩ c.pos lbracket size rbracket, Nat.succ_le_succ hsize,
      by simp [Derivation.Primary.tokens], rfl⟩
  refine .here (.peek ?_)
  split
  · next text ht =>
    have hname : Consumes c (name .structName) fun x ls ↦ x = ⟨text, c.pos⟩ ∧ ls = [x.lexeme] := by
      refine .peek ?_
      rw [ht]
      exact .here (.advance ht Token.noConfusion fun c' ↦ .pure ⟨rfl, rfl⟩)
    refine hname.bind ?_
    rintro _ _ c' ⟨rfl, rfl⟩
    refine .ifSees (fun _ ↦ ?_) (.ifSees (fun _ ↦ ?_) .unexpected)
    · refine (consumes_arguments hexpr).bind ?_
      rintro _ _ c'' ⟨lparen, args, hargs, rfl, rfl⟩
      exact .pure ⟨.newStruct kw ⟨text, c.pos⟩ lparen args, Nat.succ_le_succ hargs,
        by simp [Derivation.Primary.tokens], rfl⟩
    · exact harray (.struct text) c' TypeName.noConfusion
  · next t _ ht =>
    split
    · refine consumes_typeName.bind ?_
      rintro elem _ c' ⟨hvoid, rfl⟩
      exact harray elem c' hvoid
    · exact .unexpected
  · exact .unexpected

theorem consumes_basic : Consumes c (basic expr) (DerivedPrimary (levels + 1)) := by
  refine .here (.peek ?_)
  split
  · next value ht =>
    exact .advance ht Token.noConfusion fun c' ↦ .pure ⟨.lit value c.pos, Nat.le_add_left 1 levels, rfl, rfl⟩
  · next ht => exact .advance ht Token.noConfusion fun c' ↦ consumes_newObject hexpr c.pos
  · refine consumes_name.bind ?_
    rintro x _ c' rfl
    refine .ifSees (fun _ ↦ ?_) ?_
    · refine (consumes_arguments hexpr).bind ?_
      rintro _ _ c'' ⟨lparen, args, hargs, rfl, rfl⟩
      exact .pure ⟨.call x lparen args, Nat.succ_le_succ hargs,
        by simp [Derivation.Primary.tokens], rfl⟩
    · refine (consumes_pathFrom hexpr).bind ?_
      rintro _ ls c'' ⟨p, hp, htokens, rfl⟩
      exact .pure ⟨.path p, Nat.succ_le_succ hp,
        by simpa [Derivation.Primary.tokens] using htokens, rfl⟩
  · exact .unexpected

omit hexpr

theorem consumes_primaryWithin (levels : Nat) (c : Cursor) :
    Consumes c (primaryWithin levels) (DerivedPrimary levels) := by
  induction levels generalizing c with
  | zero =>
    intro a c' hrun
    cases hrun
  | succ levels ih =>
    have hexpr := consumes_expression ih
    refine .peek ?_
    split
    · next ht =>
      refine .advance ht Token.noConfusion fun c' ↦ ?_
      refine (hexpr c').bind ?_
      rintro _ _ c'' ⟨e, he, rfl, rfl⟩
      refine consumes_expectPunct.bind ?_
      rintro _ _ c''' ⟨rparen, rfl⟩
      exact .pure ⟨.paren c.pos e rparen, Nat.succ_le_succ he,
        by simp [Derivation.Primary.tokens], rfl⟩
    · next ht =>
      refine .here (.advance ht Token.noConfusion fun c' ↦ ?_)
      refine (ih c').bind ?_
      rintro _ _ c'' ⟨d, hd, rfl, rfl⟩
      exact .pure ⟨.not c.pos d, Nat.succ_le_succ hd, by simp [Derivation.Primary.tokens], rfl⟩
    · exact consumes_basic hexpr

theorem consumes_exprWithin (levels : Nat) (c : Cursor) :
    Consumes c (exprWithin levels) (DerivedExpr levels 0) :=
  consumes_expression (consumes_primaryWithin levels) c

end

/-! ## Statements -/

section
variable {levels : Nat} {expr : Parser Expr} {block : Parser (List Stmt)}

/-- A derivation of a statement. -/
abbrev DerivedStmt (levels : Nat) : Stmt → List Lexeme → Prop :=
  Derived Derivation.Stmt.tokens Derivation.Stmt.tree (·.depth ≤ levels)

/-- A derivation of a block. -/
abbrev DerivedBlock (levels : Nat) : List Stmt → List Lexeme → Prop :=
  Derived Derivation.Block.tokens Derivation.Block.tree (·.depth ≤ levels)

variable (hexpr : ∀ c, Consumes c expr (DerivedExpr levels 0))
include hexpr

theorem consumes_varStmt (ht : c.token? = some (.keyword .varKw)) :
    Consumes c (varStmt expr) (DerivedStmt levels) := by
  refine .advance ht Token.noConfusion fun c₁ ↦ ?_
  refine consumes_name.bind ?_
  rintro x _ c₂ rfl
  refine .ifSees (fun hassign ↦ ?_) (.ifSees (fun hcolon ↦ ?_) .unexpected)
  · refine .advance hassign Token.noConfusion fun c₃ ↦ ?_
    refine (hexpr c₃).bind ?_
    rintro _ _ c₄ ⟨e, he, rfl, rfl⟩
    exact .pure ⟨.var c.pos x (.value c₂.pos e), he,
      by simp [Derivation.Stmt.tokens, Derivation.VarInit.tokens], rfl⟩
  · refine .advance hcolon Token.noConfusion fun c₃ ↦ ?_
    refine consumes_typeRef.bind ?_
    rintro _ _ c₄ ⟨type, -, rfl, rfl⟩
    refine .ifSees (fun hassign ↦ ?_) ?_
    · refine .advance hassign Token.noConfusion fun c₅ ↦ ?_
      refine (hexpr c₅).bind ?_
      rintro _ _ c₆ ⟨e, he, rfl, rfl⟩
      exact .pure ⟨.var c.pos x (.both c₂.pos type c₄.pos e), he,
        by simp [Derivation.Stmt.tokens, Derivation.VarInit.tokens], rfl⟩
    · exact .pure ⟨.var c.pos x (.typed c₂.pos type), Nat.zero_le levels,
        by simp [Derivation.Stmt.tokens, Derivation.VarInit.tokens], rfl⟩

theorem consumes_nameStmt : Consumes c (nameStmt expr) (DerivedStmt levels) := by
  refine consumes_name.bind ?_
  rintro x _ c₁ rfl
  refine .ifSees (fun _ ↦ ?_) ?_
  · refine (consumes_arguments hexpr).bind ?_
    rintro _ _ c₂ ⟨lparen, args, hargs, rfl, rfl⟩
    exact .pure ⟨.call x lparen args, hargs, by simp [Derivation.Stmt.tokens], rfl⟩
  · refine (consumes_pathFrom hexpr).bind ?_
    rintro _ ls c₂ ⟨target, htarget, htokens, rfl⟩
    refine consumes_expectPunct.bind ?_
    rintro _ _ c₃ ⟨sign, rfl⟩
    refine (hexpr c₃).bind ?_
    rintro _ _ c₄ ⟨value, hvalue, rfl, rfl⟩
    refine .pure ⟨.assign target sign value, Nat.max_le.mpr ⟨htarget, hvalue⟩, ?_, rfl⟩
    simp [Derivation.Stmt.tokens, htokens]

variable (hblock : ∀ c, Consumes c block (DerivedBlock levels))
include hblock

theorem consumes_whileStmt (ht : c.token? = some (.keyword .whileKw)) :
    Consumes c (whileStmt expr block) (DerivedStmt levels) := by
  refine .advance ht Token.noConfusion fun c₁ ↦ ?_
  refine (hexpr c₁).bind ?_
  rintro _ _ c₂ ⟨cond, hcond, rfl, rfl⟩
  refine (hblock c₂).bind ?_
  rintro _ _ c₃ ⟨body, hbody, rfl, rfl⟩
  refine .pure ⟨.whileLoop c.pos cond body, Nat.max_le.mpr ⟨hcond, hbody⟩, ?_, rfl⟩
  simp [Derivation.Stmt.tokens]

theorem consumes_forStmt (ht : c.token? = some (.keyword .forKw)) :
    Consumes c (forStmt expr block) (DerivedStmt levels) := by
  refine .advance ht Token.noConfusion fun c₁ ↦ ?_
  refine consumes_name.bind ?_
  rintro x _ c₂ rfl
  refine consumes_keyword.bind ?_
  rintro fromKw _ c₃ rfl
  refine (hexpr c₃).bind ?_
  rintro _ _ c₄ ⟨first, hfirst, rfl, rfl⟩
  refine consumes_keyword.bind ?_
  rintro toKw _ c₅ rfl
  refine (hexpr c₅).bind ?_
  rintro _ _ c₆ ⟨last, hlast, rfl, rfl⟩
  refine (hblock c₆).bind ?_
  rintro _ _ c₇ ⟨body, hbody, rfl, rfl⟩
  refine .pure ⟨.forLoop c.pos x fromKw first toKw last body,
    Nat.max_le.mpr ⟨hfirst, Nat.max_le.mpr ⟨hlast, hbody⟩⟩, ?_, rfl⟩
  simp [Derivation.Stmt.tokens]

/-- A derivation of what follows a branch. -/
abbrev DerivedElse (levels : Nat) : Else → List Lexeme → Prop :=
  Derived Derivation.Else.tokens Derivation.Else.tree (·.depth ≤ levels)

/-- These branches and these tokens are the beginning of what follows a branch, or with a last block
the whole of it. -/
def BranchesBegun (levels : Nat) (read : Branches) (ls : List Lexeme) : Prop :=
  ∀ rest : Derivation.Else, rest.depth ≤ levels → (read.2.isSome → rest = .none) →
    DerivedElse levels
      (read.1.reverse.foldr (fun b other ↦ .elseIf b.1 b.2 other) (read.2.elim rest.tree .block))
      (ls ++ rest.tokens)

theorem consumes_elseBranch {read : Branches} {ls : List Lexeme}
    (hread : BranchesBegun levels read ls) (hnone : read.2 = none)
    (ht : c.token? = some (.keyword .elseKw)) :
    Consumes c (elseBranch expr block read) fun read' ls' ↦
      BranchesBegun levels read' (ls ++ ls') := by
  obtain ⟨branches, last⟩ := read
  subst hnone
  refine .advance ht Token.noConfusion fun c₁ ↦ ?_
  refine .ifSees (fun _ ↦ ?_) (.ifSees (fun hif ↦ ?_) .unexpected)
  · refine (hblock c₁).bind ?_
    rintro _ _ c₂ ⟨body, hbody, rfl, rfl⟩
    refine .pure fun rest _ hrest ↦ ?_
    obtain rfl := hrest rfl
    simpa [Derivation.Else.tokens, Derivation.Else.tree] using
      hread (.block c.pos body) hbody fun h ↦ absurd h Bool.false_ne_true
  · refine .advance hif Token.noConfusion fun c₂ ↦ ?_
    refine (hexpr c₂).bind ?_
    rintro _ _ c₃ ⟨cond, hcond, rfl, rfl⟩
    refine (hblock c₃).bind ?_
    rintro _ _ c₄ ⟨body, hbody, rfl, rfl⟩
    refine .pure fun rest hdepth _ ↦ ?_
    have hbranch : (Derivation.Else.elseIf c.pos (.mk c₁.pos cond body rest)).depth ≤ levels :=
      Nat.max_le.mpr ⟨hcond, Nat.max_le.mpr ⟨hbody, hdepth⟩⟩
    simpa [Derivation.Else.tokens, Derivation.If.tokens, Derivation.Else.tree] using
      hread _ hbranch fun h ↦ absurd h Bool.false_ne_true

theorem consumes_ifStmt (ht : c.token? = some (.keyword .ifKw)) :
    Consumes c (ifStmt expr block) (DerivedStmt levels) := by
  refine .advance ht Token.noConfusion fun c₁ ↦ ?_
  refine (hexpr c₁).bind ?_
  rintro _ _ c₂ ⟨cond, hcond, rfl, rfl⟩
  refine (hblock c₂).bind ?_
  rintro _ _ c₃ ⟨body, hbody, rfl, rfl⟩
  have hbegin : BranchesBegun levels ([], none) [] := fun rest hrest _ ↦ ⟨rest, hrest, rfl, rfl⟩
  refine (Consumes.loop (BranchesBegun levels) [] ?_ hbegin).bind ?_
  · intro read ls c' hread hmore
    obtain ⟨hnone, helse⟩ := Bool.and_eq_true_iff.mp hmore
    exact consumes_elseBranch hexpr hblock hread (Option.isNone_iff_eq_none.mp hnone)
      (of_decide_eq_true helse)
  · intro read ls c₄ hread
    obtain ⟨other, hother, htokens, htree⟩ := hread .none (Nat.zero_le levels) fun _ ↦ rfl
    refine .pure ⟨.ifElse (.mk c.pos cond body other), ?_, ?_, ?_⟩
    · exact Nat.max_le.mpr ⟨hcond, Nat.max_le.mpr ⟨hbody, hother⟩⟩
    · simp [Derivation.Stmt.tokens, Derivation.If.tokens, htokens, Derivation.Else.tokens]
    · rw [Else.ofBranches_eq, Derivation.Stmt.tree, htree]
      rfl

theorem consumes_stmt : Consumes c (stmt expr block) (DerivedStmt levels) := by
  refine .peek ?_
  split
  · next ht => exact consumes_varStmt hexpr ht
  · next ht => exact consumes_whileStmt hexpr hblock ht
  · next ht => exact consumes_ifStmt hexpr hblock ht
  · next ht => exact consumes_forStmt hexpr hblock ht
  · next ht =>
    refine .here (.advance ht Token.noConfusion fun c₁ ↦ ?_)
    refine (hexpr c₁).bind ?_
    rintro _ _ c₂ ⟨value, hvalue, rfl, rfl⟩
    exact .pure ⟨.ret c.pos value, hvalue, by simp [Derivation.Stmt.tokens], rfl⟩
  · exact consumes_nameStmt hexpr
  · exact .unexpected

end

theorem consumes_braced {levels : Nat} {stmt : Parser Stmt}
    (hstmt : ∀ c, Consumes c stmt (DerivedStmt levels)) :
    Consumes c (braced stmt) (DerivedBlock (levels + 1)) := by
  refine consumes_expectPunct.bind ?_
  rintro _ _ c₁ ⟨lbrace, rfl⟩
  refine (Consumes.loop (fun stmts ls ↦ Derived (List.flatMap Derivation.Stmt.tokens)
    (List.map Derivation.Stmt.tree) (fun ss ↦ ∀ s ∈ ss, s.depth ≤ levels) stmts.reverse ls)
    [] ?_ ⟨[], by simp, rfl, rfl⟩).bind ?_
  · intro stmts _ c' ⟨ss, hss, htokens, htree⟩ _
    subst htokens
    refine .peek ?_
    split
    · exact .unexpected
    · refine (hstmt c').bind ?_
      rintro _ _ c'' ⟨s, hs, rfl, rfl⟩
      refine .pure ⟨ss ++ [s], ?_, by simp, by simp [htree]⟩
      simpa [or_imp, forall_and] using ⟨hss, hs⟩
  · rintro stmts ls c₂ ⟨ss, hss, htokens, htree⟩
    refine consumes_expectPunct.bind ?_
    rintro _ _ c₃ ⟨rbrace, rfl⟩
    refine .pure ⟨.mk lbrace ss rbrace, ?_, ?_, ?_⟩
    · exact Nat.succ_le_succ ((Derivation.stmtsDepth_le_iff ss).mpr hss)
    · simp [Derivation.Block.tokens, Derivation.stmtsTokens_eq, htokens]
    · rw [Derivation.Block.tree, Derivation.stmtsTree_eq, htree]

theorem consumes_blockWithin (levels : Nat) (c : Cursor) :
    Consumes c (blockWithin levels) (DerivedBlock levels) := by
  induction levels generalizing c with
  | zero =>
    intro a c' hrun
    cases hrun
  | succ levels ih => exact consumes_braced fun c ↦ consumes_stmt (consumes_exprWithin levels) ih

/-! ## Definitions -/

theorem consumes_structDef (ht : c.token? = some (.keyword .structKw)) : Consumes c structDef
    (Derived Derivation.Struct.tokens Derivation.Struct.tree fun _ ↦ True) := by
  refine .advance ht Token.noConfusion fun c₁ ↦ ?_
  refine consumes_name.bind ?_
  rintro x _ c₂ rfl
  refine consumes_expectPunct.bind ?_
  rintro _ _ c₃ ⟨lbrace, rfl⟩
  refine (consumes_commaList fun c ↦ consumes_varDef).bind ?_
  rintro _ _ c₄ ⟨fields, -, rfl, rfl⟩
  exact .pure ⟨⟨c.pos, x, lbrace, fields⟩, trivial, by simp [Derivation.Struct.tokens], rfl⟩

theorem consumes_returnType : Consumes c returnType
    (Derived Derivation.ReturnType.tokens Derivation.ReturnType.tree fun _ ↦ True) := by
  refine .ifSees (fun _ ↦ ?_) ?_
  · refine consumes_keyword.bind ?_
    rintro kw _ c₁ rfl
    exact .pure ⟨.void kw, trivial, rfl, rfl⟩
  · -- a failure is reported in other words, and stays one
    intro a c' hrun
    have htype : typeRef.run c = .ok (a, c') := by
      generalize hread : typeRef.run c = read
      change tryCatch (typeRef.run c) _ = _ at hrun
      rw [hread] at hrun
      cases read with
      | ok r => exact hrun
      | error e => obtain ⟨pos, _ | _⟩ := e <;> cases hrun
    obtain ⟨ls, hc, hne, type, -, rfl, rfl⟩ := consumes_typeRef a c' htype
    exact ⟨_, hc, hne, .value type, trivial, rfl, rfl⟩

theorem consumes_funDef : Consumes c funDef
    (Derived Derivation.Function.tokens Derivation.Function.tree (·.body.depth ≤ maxNesting)) := by
  refine consumes_returnType.bind ?_
  rintro _ _ c₁ ⟨type, -, rfl, rfl⟩
  refine consumes_name.bind ?_
  rintro x _ c₂ rfl
  refine consumes_expectPunct.bind ?_
  rintro _ _ c₃ ⟨lparen, rfl⟩
  refine (consumes_commaList fun c ↦ consumes_varDef).bind ?_
  rintro _ _ c₄ ⟨params, -, rfl, rfl⟩
  refine (consumes_blockWithin maxNesting c₄).bind ?_
  rintro _ _ c₅ ⟨body, hbody, rfl, rfl⟩
  refine .pure ⟨⟨type, x, lparen, params, body⟩, hbody, ?_, rfl⟩
  simp [Derivation.Function.tokens]

/-- Reads a struct or a function. -/
theorem consumes_definition {structs : List StructDef} {functions : List FunDef} :
    Consumes c (sees (.keyword .structKw) >>= fun b ↦ if b = true
        then structDef >>= fun d ↦ pure (d :: structs, functions)
        else funDef >>= fun d ↦ pure (structs, d :: functions))
      fun read ls ↦ ∃ d : Derivation.Definition, d.depth ≤ maxNesting ∧ d.tokens = ls ∧
        read = (d.struct?.toList ++ structs, d.function?.toList ++ functions) := by
  refine .ifSees (fun ht ↦ ?_) ?_
  · refine (consumes_structDef ht).bind ?_
    rintro _ _ c₁ ⟨d, -, rfl, rfl⟩
    exact .pure ⟨.struct d, Nat.zero_le _, by simp [Derivation.Definition.tokens], rfl⟩
  · refine consumes_funDef.bind ?_
    rintro _ _ c₁ ⟨d, hd, rfl, rfl⟩
    exact .pure ⟨.function d, hd, by simp [Derivation.Definition.tokens], rfl⟩

theorem consumes_program : Consumes c program
    (Derived Derivation.Program.tokens Derivation.Program.tree (·.depth ≤ maxNesting)) := by
  refine (Consumes.loop (fun read ls ↦ ∃ d : Derivation.Program, d.depth ≤ maxNesting ∧
    d.tokens = ls ∧ d.tree = ⟨read.1.reverse, read.2.reverse⟩) []
    ?_ ⟨⟨[]⟩, Nat.zero_le _, rfl, rfl⟩).bind ?_
  · intro read _ c' ⟨d, hd, htokens, htree⟩ _
    subst htokens
    refine consumes_definition.mono ?_
    rintro _ _ ⟨next, hnext, rfl, rfl⟩
    obtain ⟨hstructs, hfunctions⟩ := Program.mk.inj htree
    refine ⟨⟨d.definitions ++ [next]⟩, ?_, ?_, ?_⟩
    · rw [Derivation.Program.depth_le_iff] at hd ⊢
      simpa [or_imp, forall_and] using ⟨hd, hnext⟩
    · simp [Derivation.Program.tokens]
    · cases next <;> simp [Derivation.Program.tree, hstructs, hfunctions,
        Derivation.Definition.struct?, Derivation.Definition.function?]
  · rintro read ls c₁ ⟨d, hd, htokens, htree⟩
    exact .pure ⟨d, hd, by simpa using htokens, htree⟩

/-- A loop all of whose rounds consume a token runs until its condition fails. -/
theorem loop_stops {σ : Type} {more : σ → Option Token → Bool} {step : σ → Parser σ}
    (hstep : ∀ s c, more s c.token? = true → Consumes c (step s) fun _ ls ↦ ls ≠ [])
    {s s' : σ} {c' : Cursor} (hrun : (loop more step s).run c = .ok (s', c')) :
    more s' c'.token? = false := by
  change (loopFor more step (c.rest.length + 1) s).run c = _ at hrun
  have hrounds : c.rest.length < c.rest.length + 1 := Nat.lt_succ_self _
  revert hrun hrounds
  generalize c.rest.length + 1 = rounds
  induction rounds generalizing s c with
  | zero => exact fun _ h ↦ absurd h (Nat.not_lt_zero _)
  | succ rounds ih =>
    intro hrun hrounds
    change (if more s c.token? = true then _ else _ : Parser σ).run c = _ at hrun
    split at hrun
    · next hmore =>
      rw [StateT.run_bind] at hrun
      obtain ⟨⟨s₁, c₁⟩, hfirst, hrun⟩ := bind_eq_ok.mp hrun
      have hshorter := (hstep s c hmore).length_lt hfirst
      exact ih hrun (Nat.lt_of_lt_of_le hshorter (Nat.le_of_lt_succ hrounds))
    · next hmore =>
      cases hrun
      exact Bool.eq_false_iff.mpr hmore

/-- A program is read up to the end mark or the end of the tokens. -/
theorem program_stops {p : Program} {c' : Cursor} (hrun : program.run c = .ok (p, c')) :
    c'.token?.getD .eof = .eof := by
  rw [program, StateT.run_bind] at hrun
  obtain ⟨⟨read, c₁⟩, hloop, hrun⟩ := bind_eq_ok.mp hrun
  cases hrun
  have hdone := loop_stops (fun read c _ ↦ consumes_definition.mono ?_) hloop
  · simpa using hdone
  · rintro _ _ ⟨d, -, rfl, -⟩
    obtain ⟨l, ls, hd, -⟩ := d.exists_tokens_eq
    rw [hd]
    exact List.cons_ne_nil l ls

end
end Parser
end Pebble
