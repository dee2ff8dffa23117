import Mathlib.Data.Subtype
import Mathlib.Tactic.Common
import Pebble.Proofs.Derivations

/-!
# The grammar is unambiguous

The tokens of a derivation determine it, and so do they when tokens follow that the derivation
cannot go on with. This is shown for a derivation whose depth is bounded against any other one, by
induction on the bound: one level down stand the expressions in a primary and the statements in a
block.

Two arguments go beyond comparing tokens from the left. An expression is taken apart into primaries
with operators between them, which the tokens determine; its root is then the last of the operators
that bind loosest. Paths associate to the left as well, and of two paths with common tokens one is
the other with more fields.
-/

namespace Pebble

namespace Derivation

/-- The tokens of this derivation, before tokens of the given kind, belong to no other one. -/
def Determined {δ : Type} (tokens : δ → List Lexeme) (follows : List Lexeme → Prop) (d : δ) :
    Prop :=
  ∀ d' r r', follows r → follows r' → tokens d ++ r = tokens d' ++ r' → d = d' ∧ r = r'

/-! ## Names and types -/

theorem lexeme_injective {x y : Name} : x.lexeme = y.lexeme ↔ x = y := by
  obtain ⟨_, _⟩ := x
  obtain ⟨_, _⟩ := y
  simp [Name.lexeme]

theorem token_injective {s t : TypeName} : s.token = t.token ↔ s = t := by
  refine ⟨fun h ↦ ?_, fun h ↦ h ▸ rfl⟩
  cases s <;> cases t <;> cases h <;> rfl

theorem opToken_injective {op op' : BinOp} : op.token = op'.token ↔ op = op' := by
  refine ⟨fun h ↦ ?_, fun h ↦ h ▸ rfl⟩
  cases op <;> cases op' <;> cases h <;> rfl

theorem DataType.determined (d : DataType) : Determined DataType.tokens (fun _ ↦ True) d := by
  intro d' r r' _ _ h
  cases d with
  | plain name pos =>
    cases d' with
    | plain name' pos' =>
      simp only [tokens, List.cons_append, List.nil_append, List.cons.injEq, Lexeme.mk.injEq,
        token_injective, Subtype.val_inj] at h
      obtain ⟨⟨rfl, rfl⟩, rfl⟩ := h
      exact ⟨rfl, rfl⟩
    | array =>
      obtain ⟨name, hname⟩ := name
      cases name <;> simp [tokens, TypeName.token] at h
  | array lbracket elem pos rbracket =>
    cases d' with
    | plain name' pos' =>
      obtain ⟨name, hname⟩ := name'
      cases name <;> simp [tokens, TypeName.token] at h
    | array =>
      simp only [tokens, List.cons_append, List.nil_append, List.cons.injEq, Lexeme.mk.injEq,
        token_injective, Subtype.val_inj, true_and] at h
      obtain ⟨rfl, ⟨rfl, rfl⟩, rfl, rfl⟩ := h
      exact ⟨rfl, rfl⟩

theorem Field.determined (d : Field) : Determined Field.tokens (fun _ ↦ True) d := by
  intro d' r r' _ _ h
  obtain ⟨name, colon, type⟩ := d
  obtain ⟨name', colon', type'⟩ := d'
  simp only [tokens, List.cons_append, List.cons.injEq, Lexeme.mk.injEq, lexeme_injective,
    true_and] at h
  obtain ⟨rfl, rfl, h⟩ := h
  obtain ⟨rfl, rfl⟩ := type.determined type' r r' trivial trivial h
  exact ⟨rfl, rfl⟩

/-! ## Lists -/

section
variable {δ : Type} {close : Punct} {ofItem : δ → List Lexeme}

/-- Behind an item of a list there is a comma or the closing sign. -/
def AfterItem (close : Punct) (rest : List Lexeme) : Prop :=
  front rest = some (.punct .comma) ∨ front rest = some (.punct close)

theorem Items.afterItem (items : Items δ) (rest : List Lexeme) :
    AfterItem close (items.tokens close ofItem ++ rest) := by
  cases items with
  | close => exact .inr rfl
  | comma => exact .inl rfl

theorem Items.determined (hclose : close ≠ .comma) (items : Items δ)
    (hitems : ∀ d ∈ items.toList, Determined ofItem (AfterItem close) d) :
    Determined (Items.tokens close ofItem) (fun _ ↦ True) items := by
  intro items' r r' _ _ h
  induction items generalizing items' with
  | close pos =>
    cases items' with
    | close => simpa [tokens] using h
    | comma => simp [tokens, hclose] at h
  | comma pos d items ih =>
    obtain ⟨hd, hitems⟩ := List.forall_mem_cons.mp hitems
    cases items' with
    | close => simp [tokens, hclose.symm] at h
    | comma pos' d' items' =>
      simp only [tokens, List.cons_append, List.append_assoc, List.cons.injEq, Lexeme.mk.injEq,
        true_and] at h
      obtain ⟨rfl, h⟩ := h
      obtain ⟨rfl, hrest⟩ := hd d' _ _ (items.afterItem r) (items'.afterItem r') h
      obtain ⟨rfl, rfl⟩ := ih hitems items' hrest
      exact ⟨rfl, rfl⟩

theorem Listing.determined (hclose : close ≠ .comma) (l : Listing δ)
    (hitems : ∀ d ∈ l.toList, Determined ofItem (AfterItem close) d)
    (hfront : ∀ d rest, front (ofItem d ++ rest) ≠ some (.punct close)) :
    Determined (Listing.tokens close ofItem) (fun _ ↦ True) l := by
  intro l' r r' _ _ h
  cases l with
  | empty pos =>
    cases l' with
    | empty => simpa [tokens] using h
    | items first' items' =>
      have hfirst := hfront first' (items'.tokens close ofItem ++ r')
      rw [← List.append_assoc, ← tokens, ← h] at hfirst
      exact absurd rfl hfirst
  | items first items =>
    obtain ⟨hd, hitems⟩ := List.forall_mem_cons.mp hitems
    cases l' with
    | empty pos' =>
      have hfirst := hfront first (items.tokens close ofItem ++ r)
      rw [← List.append_assoc, ← tokens, h] at hfirst
      exact absurd rfl hfirst
    | items first' items' =>
      simp only [tokens, List.append_assoc] at h
      obtain ⟨rfl, hrest⟩ := hd first' _ _ (items.afterItem r) (items'.afterItem r') h
      obtain ⟨rfl, rfl⟩ := items.determined hclose hitems items' r r' trivial trivial hrest
      exact ⟨rfl, rfl⟩

end

/-! ## Operators

An expression as its primaries with the operators between them. -/

namespace Expr

/-- The first primary. -/
def first : {n : Nat} → Expr n → Primary
  | _, .primary d => d
  | _, .binary _ _ _ lhs _ => lhs.first

/-- The other primaries, each with the operator before it. -/
def others : {n : Nat} → Expr n → List (BinOp × Pos × Primary)
  | _, .primary _ => []
  | _, .binary op _ pos lhs rhs => lhs.others ++ (op, pos, rhs.first) :: rhs.others

def operandTokens (x : BinOp × Pos × Primary) : List Lexeme :=
  ⟨x.1.token, x.2.1⟩ :: x.2.2.tokens

theorem tokens_eq {n : Nat} (e : Expr n) :
    e.tokens = e.first.tokens ++ e.others.flatMap operandTokens := by
  cases e with
  | primary d => rw [tokens, first, others, List.flatMap_nil, List.append_nil]
  | binary op _ pos lhs rhs =>
    rw [tokens, lhs.tokens_eq, rhs.tokens_eq, first, others, List.flatMap_append,
      List.flatMap_cons, operandTokens, List.append_assoc, List.cons_append]

theorem precedence_of_mem_others : {n : Nat} → (e : Expr n) → ∀ x ∈ e.others, n ≤ x.1.precedence
  | _, .primary _, x, hx => absurd hx List.not_mem_nil
  | _, .binary op hop pos lhs rhs, x, hx => by
    rcases List.mem_append.mp hx with hx | hx
    · exact Nat.le_trans hop (lhs.precedence_of_mem_others x hx)
    · rcases List.mem_cons.mp hx with rfl | hx
      · exact hop
      · exact Nat.le_trans hop (Nat.le_of_succ_le (rhs.precedence_of_mem_others x hx))

theorem depth_of_primaries {n : Nat} (e : Expr n) :
    e.first.depth ≤ e.depth ∧ ∀ x ∈ e.others, x.2.2.depth ≤ e.depth := by
  cases e with
  | primary d => exact ⟨Nat.le_refl _, fun x hx ↦ absurd hx List.not_mem_nil⟩
  | binary op hop pos lhs rhs =>
    obtain ⟨hfirst, hlhs⟩ := lhs.depth_of_primaries
    obtain ⟨hnext, hrhs⟩ := rhs.depth_of_primaries
    rw [first, others, depth]
    refine ⟨Nat.le_trans hfirst (Nat.le_max_left _ _), fun x hx ↦ ?_⟩
    rcases List.mem_append.mp hx with hx | hx
    · exact Nat.le_trans (hlhs x hx) (Nat.le_max_left _ _)
    · rcases List.mem_cons.mp hx with rfl | hx
      · exact Nat.le_trans hnext (Nat.le_max_right _ _)
      · exact Nat.le_trans (hrhs x hx) (Nat.le_max_right _ _)

/-- The root is the last of the operators that bind loosest: two ways to split a list at such an
operator are the same. -/
theorem split_eq {l r l' r' : List (BinOp × Pos × Primary)} {x x' : BinOp × Pos × Primary}
    (h : l ++ x :: r = l' ++ x' :: r') (hl : ∀ y ∈ l, x.1.precedence ≤ y.1.precedence)
    (hr : ∀ y ∈ r, x.1.precedence < y.1.precedence)
    (hl' : ∀ y ∈ l', x'.1.precedence ≤ y.1.precedence)
    (hr' : ∀ y ∈ r', x'.1.precedence < y.1.precedence) : l = l' ∧ x = x' ∧ r = r' := by
  rcases List.append_eq_append_iff.mp h with ⟨m, rfl, hm⟩ | ⟨m, rfl, hm⟩
  · cases m with
    | nil =>
      rw [List.nil_append, List.cons.injEq] at hm
      exact ⟨by rw [List.append_nil], hm⟩
    | cons y m =>
      -- `x` would stand left of `x'`, and `x'` right of `x`
      rw [List.cons_append, List.cons.injEq] at hm
      obtain ⟨rfl, rfl⟩ := hm
      have hle := hl' x (by simp)
      have hlt := hr x' (by simp)
      omega
  · cases m with
    | nil =>
      rw [List.nil_append, List.cons.injEq] at hm
      exact ⟨by rw [List.append_nil], hm.1.symm, hm.2.symm⟩
    | cons y m =>
      rw [List.cons_append, List.cons.injEq] at hm
      obtain ⟨rfl, rfl⟩ := hm
      have hle := hl x' (by simp)
      have hlt := hr' x (by simp)
      omega

theorem eq_of_primaries : {n : Nat} → (e e' : Expr n) → e.first = e'.first →
    e.others = e'.others → e = e'
  | _, .primary d, .primary d', hfirst, _ => by rw [show d = d' from hfirst]
  | _, .primary _, .binary _ _ _ _ _, _, hothers => by simp [others] at hothers
  | _, .binary _ _ _ _ _, .primary _, _, hothers => by simp [others] at hothers
  | _, .binary op hop pos lhs rhs, .binary op' hop' pos' lhs' rhs', hfirst, hothers => by
    rw [others, others] at hothers
    obtain ⟨hlhs, hroot, hrhs⟩ := split_eq hothers lhs.precedence_of_mem_others
      rhs.precedence_of_mem_others lhs'.precedence_of_mem_others rhs'.precedence_of_mem_others
    simp only [Prod.mk.injEq] at hroot
    obtain ⟨rfl, rfl, hnext⟩ := hroot
    rw [lhs.eq_of_primaries lhs' hfirst hlhs, rhs.eq_of_primaries rhs' hnext hrhs]

/-- A primary ends before an operator and before what ends the expression. -/
theorem ends_operands {xs : List (BinOp × Pos × Primary)} {rest : List Lexeme}
    (hends : Ends 0 rest) : Ends 5 (xs.flatMap operandTokens ++ rest) := by
  cases xs with
  | nil => exact hends.mono (Nat.zero_le 5)
  | cons x xs => exact ends_op (by cases x.1 <;> decide)

theorem front_ne_op {rest : List Lexeme} (hends : Ends 0 rest) (op : BinOp) :
    front rest ≠ some op.token :=
  fun h ↦ absurd (hends.looser op h) (Nat.not_lt_zero _)

theorem operands_eq {d d' : Primary} {xs xs' : List (BinOp × Pos × Primary)} {r r' : List Lexeme}
    (hd : Determined Primary.tokens (Ends 5) d)
    (hxs : ∀ x ∈ xs, Determined Primary.tokens (Ends 5) x.2.2) (hr : Ends 0 r) (hr' : Ends 0 r')
    (h : d.tokens ++ (xs.flatMap operandTokens ++ r) =
      d'.tokens ++ (xs'.flatMap operandTokens ++ r')) : d = d' ∧ xs = xs' ∧ r = r' := by
  induction xs generalizing d d' xs' with
  | nil =>
    obtain ⟨rfl, hrest⟩ := hd d' _ _ (ends_operands hr) (ends_operands hr') h
    cases xs' with
    | nil => exact ⟨rfl, rfl, hrest⟩
    | cons x' xs' => exact absurd (congrArg front hrest) (front_ne_op hr x'.1)
  | cons x xs ih =>
    obtain ⟨rfl, hrest⟩ := hd d' _ _ (ends_operands hr) (ends_operands hr') h
    obtain ⟨hx, hothers⟩ := List.forall_mem_cons.mp hxs
    cases xs' with
    | nil => exact absurd (congrArg front hrest).symm (front_ne_op hr' x.1)
    | cons x' xs' =>
      obtain ⟨op, pos, d₁⟩ := x
      obtain ⟨op', pos', d₁'⟩ := x'
      simp only [List.flatMap_cons, operandTokens, List.cons_append, List.append_assoc,
        List.cons.injEq, Lexeme.mk.injEq, opToken_injective] at hrest
      obtain ⟨⟨rfl, rfl⟩, hrest⟩ := hrest
      obtain ⟨rfl, rfl, rfl⟩ := ih hx hothers hrest
      exact ⟨rfl, rfl, rfl⟩

theorem determined {n : Nat} (hprimary : ∀ d : Primary, d.depth ≤ n →
    Determined Primary.tokens (Ends 5) d) (e : Expr 0) (he : e.depth ≤ n) :
    Determined Expr.tokens (Ends 0) e := by
  intro e' r r' hr hr' h
  obtain ⟨hfirst, hothers⟩ := e.depth_of_primaries
  rw [e.tokens_eq, e'.tokens_eq, List.append_assoc, List.append_assoc] at h
  obtain ⟨hfirst, hothers, hrest⟩ := operands_eq (hprimary _ (Nat.le_trans hfirst he))
    (fun x hx ↦ hprimary _ (Nat.le_trans (hothers x hx) he)) hr hr' h
  exact ⟨e.eq_of_primaries e' hfirst hothers, hrest⟩

end Expr

/-! ## Primaries and paths -/

/-- No index comes next. -/
def NoIndex (rest : List Lexeme) : Prop :=
  front rest ≠ some (.punct .lbracket)

/-- A field of a path behind the part before it. -/
structure Step where
  dot : Pos
  name : Name
  index : Index

def Step.tokens (x : Step) : List Lexeme :=
  ⟨.punct .dot, x.dot⟩ :: x.name.lexeme :: x.index.tokens

def Path.extend (p : Path) (xs : List Step) : Path :=
  xs.foldl (fun base x ↦ .field base x.dot x.name x.index) p

theorem Path.exists_eq_extend (p : Path) : ∃ x index xs, p = (Path.root x index).extend xs ∧
    p.tokens = x.lexeme :: (index.tokens ++ xs.flatMap Step.tokens) := by
  cases p with
  | root x index => exact ⟨x, index, [], rfl, by simp [Path.tokens]⟩
  | field base dot name index =>
    obtain ⟨x, index₀, xs, hbase, htokens⟩ := Path.exists_eq_extend base
    refine ⟨x, index₀, xs ++ [⟨dot, name, index⟩], ?_, ?_⟩
    · simp only [Path.extend, List.foldl_append, List.foldl_cons, List.foldl_nil]
      rw [hbase, Path.extend]
    · simp [Path.tokens, htokens, Step.tokens]

section
variable {n : Nat} (hexpr : ∀ e : Expr 0, e.depth ≤ n → Determined Expr.tokens (Ends 0) e)
include hexpr

/-- An expression up to a token that can stand in none. -/
theorem Expr.eq_of_closed {e e' : Expr 0} {t : Token} {pos pos' : Pos} {r r' : List Lexeme}
    (he : e.depth ≤ n) (ht : joins t = false)
    (h : e.tokens ++ ⟨t, pos⟩ :: r = e'.tokens ++ ⟨t, pos'⟩ :: r') :
    e = e' ∧ pos = pos' ∧ r = r' := by
  obtain ⟨rfl, hrest⟩ := hexpr e he e' _ _ (.of_front rfl ht) (.of_front rfl ht) h
  simp only [List.cons.injEq, Lexeme.mk.injEq, true_and] at hrest
  exact ⟨rfl, hrest⟩

theorem Index.determined (index : Index) (hindex : index.depth ≤ n) :
    Determined Index.tokens NoIndex index := by
  intro index' r r' hr hr' h
  cases index with
  | none =>
    cases index' with
    | none => exact ⟨rfl, h⟩
    | some => exact absurd (congrArg front h) hr
  | some lbracket e rbracket =>
    cases index' with
    | none => exact absurd (congrArg front h).symm hr'
    | some lbracket' e' rbracket' =>
      simp only [tokens, List.cons_append, List.append_assoc, List.nil_append, List.cons.injEq,
        Lexeme.mk.injEq, true_and] at h
      obtain ⟨rfl, h⟩ := h
      obtain ⟨rfl, rfl, rfl⟩ := Expr.eq_of_closed hexpr hindex rfl h
      exact ⟨rfl, rfl⟩

omit hexpr in
theorem noIndex_steps {xs : List Step} {rest : List Lexeme} (hrest : NoIndex rest) :
    NoIndex (xs.flatMap Step.tokens ++ rest) := by
  cases xs with
  | nil => exact hrest
  | cons => nofun

/-- Where the tokens of one path begin with those of another, the first goes on from the other. -/
theorem Path.eq_extend : (p : Path) → p.depth ≤ n → ∀ {p' : Path} {r r' : List Lexeme}, NoIndex r →
    Ends 5 r' → p.tokens ++ r = p'.tokens ++ r' →
    ∃ xs, p' = p.extend xs ∧ r = xs.flatMap Step.tokens ++ r'
  | .root x index, hp, p', r, r', hr, hr', h => by
    obtain ⟨x', index', xs, rfl, htokens⟩ := p'.exists_eq_extend
    rw [Path.tokens, htokens, List.cons_append, List.cons_append, List.cons.injEq,
      lexeme_injective, List.append_assoc] at h
    obtain ⟨rfl, h⟩ := h
    obtain ⟨rfl, hrest⟩ := index.determined hexpr hp index' _ _ hr
      (noIndex_steps hr'.no_lbracket) h
    exact ⟨xs, rfl, hrest⟩
  | .field base dot x index, hp, p', r, r', hr, hr', h => by
    obtain ⟨hbase, hindex⟩ := Nat.max_le.mp hp
    have hdot : NoIndex (⟨.punct .dot, dot⟩ :: x.lexeme :: (index.tokens ++ r)) := by rintro ⟨⟩
    rw [Path.tokens, List.append_assoc, List.cons_append, List.cons_append] at h
    obtain ⟨xs, rfl, hrest⟩ := Path.eq_extend base hbase hdot hr' h
    cases xs with
    | nil => exact absurd (congrArg front hrest).symm hr'.no_dot
    | cons y xs =>
      obtain ⟨dot', x', index'⟩ := y
      simp only [List.flatMap_cons, Step.tokens, List.cons_append, List.append_assoc,
        List.cons.injEq, Lexeme.mk.injEq, true_and, lexeme_injective] at hrest
      obtain ⟨rfl, rfl, hrest⟩ := hrest
      obtain ⟨rfl, hmore⟩ := index.determined hexpr hindex index' _ _ hr
        (noIndex_steps hr'.no_lbracket) hrest
      exact ⟨xs, rfl, hmore⟩

theorem Path.determined (p : Path) (hp : p.depth ≤ n) : Determined Path.tokens (Ends 5) p := by
  intro p' r r' hr hr' h
  obtain ⟨xs, rfl, hrest⟩ := p.eq_extend hexpr hp hr.no_lbracket hr' h
  cases xs with
  | nil => exact ⟨rfl, hrest⟩
  | cons x xs => exact absurd (congrArg front hrest) hr.no_dot

theorem args_determined (args : Listing (Expr 0)) (hargs : argsDepth args ≤ n) :
    Determined argsTokens (fun _ ↦ True) args := by
  have hclose : Punct.rparen ≠ .comma := nofun
  intro args' r r' _ _ h
  rw [argsTokens_eq, argsTokens_eq] at h
  refine Listing.determined hclose args ?_ (Expr.front_tokens_ne rfl) args' r r' trivial trivial h
  intro e he e' r r' hr hr' h
  have hends : ∀ {r : List Lexeme}, AfterItem .rparen r → Ends 0 r := by
    rintro r (hr | hr) <;> exact .of_front hr rfl
  exact hexpr e ((argsDepth_le_iff args).mp hargs e he) e' r r' (hends hr) (hends hr') h

/-- One level further: the primaries that contain such expressions. -/
theorem Primary.determined_succ
    (hprimary : ∀ d : Primary, d.depth ≤ n → Determined Primary.tokens (Ends 5) d) (d : Primary)
    (hd : d.depth ≤ n + 1) : Determined Primary.tokens (Ends 5) d := by
  intro d' r r' hr hr' h
  -- Most pairs of forms differ in their first token. A path and a call begin alike, and what tells
  -- them apart is whether a parenthesis follows the name.
  cases d with
  | lit value pos =>
    cases d' with
    | lit => simpa [tokens] using h
    | path p' => simp [tokens, Path.tokens_eq, Name.lexeme] at h
    | call | newStruct | newArray | not | paren => simp [tokens, Name.lexeme] at h
  | path p =>
    cases d' with
    | path p' =>
      obtain ⟨rfl, hrest⟩ := p.determined hexpr (Nat.le_of_succ_le_succ hd) p' r r' hr hr' h
      exact ⟨rfl, hrest⟩
    | call callee' lparen' args' =>
      simp only [tokens, p.tokens_eq, List.cons_append, List.cons.injEq] at h
      exact absurd (congrArg front h.2) (p.front_tail_ne hr.no_lparen)
    | lit | newStruct | newArray | not | paren => simp [tokens, p.tokens_eq, Name.lexeme] at h
  | call callee lparen args =>
    cases d' with
    | path p' =>
      simp only [tokens, p'.tokens_eq, List.cons_append, List.cons.injEq] at h
      exact absurd (congrArg front h.2).symm (p'.front_tail_ne hr'.no_lparen)
    | call callee' lparen' args' =>
      simp only [tokens, List.cons_append, List.cons.injEq, lexeme_injective, Lexeme.mk.injEq,
        true_and] at h
      obtain ⟨rfl, rfl, h⟩ := h
      obtain ⟨rfl, hrest⟩ := args_determined hexpr args (Nat.le_of_succ_le_succ hd) args' r r'
        trivial trivial h
      exact ⟨rfl, hrest⟩
    | lit | newStruct | newArray | not | paren => simp [tokens, Name.lexeme] at h
  | newStruct kw name lparen args =>
    cases d' with
    | newStruct kw' name' lparen' args' =>
      simp only [tokens, List.cons_append, List.cons.injEq, lexeme_injective, Lexeme.mk.injEq,
        true_and] at h
      obtain ⟨rfl, rfl, rfl, h⟩ := h
      obtain ⟨rfl, hrest⟩ := args_determined hexpr args (Nat.le_of_succ_le_succ hd) args' r r'
        trivial trivial h
      exact ⟨rfl, hrest⟩
    | path p' => simp [tokens, p'.tokens_eq, Name.lexeme] at h
    | lit | call | newArray | not | paren => simp [tokens, Name.lexeme] at h
  | newArray kw elem pos lbracket size rbracket =>
    cases d' with
    | newArray kw' elem' pos' lbracket' size' rbracket' =>
      simp only [tokens, List.cons_append, List.append_assoc, List.nil_append, List.cons.injEq,
        Lexeme.mk.injEq, true_and, token_injective, Subtype.val_inj] at h
      obtain ⟨rfl, ⟨rfl, rfl⟩, rfl, h⟩ := h
      obtain ⟨rfl, rfl, rfl⟩ := Expr.eq_of_closed hexpr (Nat.le_of_succ_le_succ hd) rfl h
      exact ⟨rfl, rfl⟩
    | path p' => simp [tokens, p'.tokens_eq, Name.lexeme] at h
    | lit | call | newStruct | not | paren => simp [tokens, Name.lexeme] at h
  | not kw operand =>
    cases d' with
    | not kw' operand' =>
      simp only [tokens, List.cons_append, List.cons.injEq, Lexeme.mk.injEq, true_and] at h
      obtain ⟨rfl, h⟩ := h
      obtain ⟨rfl, hrest⟩ := hprimary operand (Nat.le_of_succ_le_succ hd) operand' r r' hr hr' h
      exact ⟨rfl, hrest⟩
    | path p' => simp [tokens, p'.tokens_eq, Name.lexeme] at h
    | lit | call | newStruct | newArray | paren => simp [tokens, Name.lexeme] at h
  | paren lparen e rparen =>
    cases d' with
    | paren lparen' e' rparen' =>
      simp only [tokens, List.cons_append, List.append_assoc, List.nil_append, List.cons.injEq,
        Lexeme.mk.injEq, true_and] at h
      obtain ⟨rfl, h⟩ := h
      obtain ⟨rfl, rfl, rfl⟩ := Expr.eq_of_closed hexpr (Nat.le_of_succ_le_succ hd) rfl h
      exact ⟨rfl, rfl⟩
    | path p' => simp [tokens, p'.tokens_eq, Name.lexeme] at h
    | lit | call | newStruct | newArray | not => simp [tokens, Name.lexeme] at h

end

theorem Primary.determined (n : Nat) (d : Primary) (hd : d.depth ≤ n) :
    Determined Primary.tokens (Ends 5) d := by
  induction n generalizing d with
  | zero => exact absurd hd (by cases d <;> simp [depth])
  | succ n ih => exact d.determined_succ (Expr.determined ih) ih hd

/-- An expression of any depth. -/
theorem determined_expr {n : Nat} (e : Expr 0) (_ : e.depth ≤ n) :
    Determined Expr.tokens (Ends 0) e :=
  Expr.determined (Primary.determined e.depth) e (Nat.le_refl _)

/-! ## Statements -/

theorem VarInit.determined (init : VarInit) : Determined VarInit.tokens StmtEnds init := by
  intro init' r r' hr hr' h
  cases init with
  | value assign e =>
    cases init' with
    | value assign' e' =>
      simp only [tokens, List.cons_append, List.cons.injEq, Lexeme.mk.injEq, true_and] at h
      obtain ⟨rfl, h⟩ := h
      obtain ⟨rfl, hrest⟩ := determined_expr e (Nat.le_refl _) e' r r' hr.ends hr'.ends h
      exact ⟨rfl, hrest⟩
    | typed | both => simp [tokens] at h
  | typed colon type =>
    cases init' with
    | value => simp [tokens] at h
    | typed colon' type' =>
      simp only [tokens, List.cons_append, List.cons.injEq, Lexeme.mk.injEq, true_and] at h
      obtain ⟨rfl, h⟩ := h
      obtain ⟨rfl, hrest⟩ := type.determined type' r r' trivial trivial h
      exact ⟨rfl, hrest⟩
    | both colon' type' assign' e' =>
      simp only [tokens, List.cons_append, List.append_assoc, List.cons.injEq] at h
      -- Behind the type, one side goes on with an equals sign and the other one ends.
      obtain ⟨-, hrest⟩ := type.determined type' _ _ trivial trivial h.2
      exact absurd (congrArg front hrest) (hr.front_ne rfl (by rintro ⟨⟩))
  | both colon type assign e =>
    cases init' with
    | value => simp [tokens] at h
    | typed colon' type' =>
      simp only [tokens, List.cons_append, List.append_assoc, List.cons.injEq] at h
      obtain ⟨-, hrest⟩ := type.determined type' _ _ trivial trivial h.2
      exact absurd (congrArg front hrest).symm (hr'.front_ne rfl (by rintro ⟨⟩))
    | both colon' type' assign' e' =>
      simp only [tokens, List.cons_append, List.append_assoc, List.cons.injEq, Lexeme.mk.injEq,
        true_and] at h
      obtain ⟨rfl, h⟩ := h
      obtain ⟨rfl, hrest⟩ := type.determined type' _ _ trivial trivial h
      simp only [List.cons.injEq, Lexeme.mk.injEq, true_and] at hrest
      obtain ⟨rfl, hrest⟩ := hrest
      obtain ⟨rfl, heq⟩ := determined_expr e (Nat.le_refl _) e' r r' hr.ends hr'.ends hrest
      exact ⟨rfl, heq⟩

section
variable {n : Nat} (hblock : ∀ b : Block, b.depth ≤ n → Determined Block.tokens (fun _ ↦ True) b)
include hblock

/-- A condition and the block behind it. -/
theorem Block.eq_of_condition {e e' : Expr 0} {b b' : Block} {r r' : List Lexeme}
    (hb : b.depth ≤ n) (h : e.tokens ++ (b.tokens ++ r) = e'.tokens ++ (b'.tokens ++ r')) :
    e = e' ∧ b = b' ∧ r = r' := by
  obtain ⟨rfl, hrest⟩ := determined_expr e (Nat.le_refl _) e' _ _ (.of_front b.front_tokens rfl)
    (.of_front b'.front_tokens rfl) h
  exact ⟨rfl, hblock b hb b' r r' trivial trivial hrest⟩

theorem Else.determined : (other : Else) → other.depth ≤ n → Determined Else.tokens StmtEnds other
  | .none, _, other', r, r', hr, hr', h => by
    cases other' with
    | none => exact ⟨rfl, h⟩
    | block | elseIf => exact absurd (congrArg front h) (hr.front_ne rfl Token.noConfusion)
  | .block kw body, hbody, other', r, r', hr, hr', h => by
    cases other' with
    | none => exact absurd (congrArg front h).symm (hr'.front_ne rfl Token.noConfusion)
    | block kw' body' =>
      simp only [tokens, List.cons_append, List.cons.injEq, Lexeme.mk.injEq, true_and] at h
      obtain ⟨rfl, h⟩ := h
      obtain ⟨rfl, hrest⟩ := hblock body hbody body' r r' trivial trivial h
      exact ⟨rfl, hrest⟩
    | elseIf kw' branch' =>
      obtain ⟨ifKw', cond', body', other'⟩ := branch'
      simp only [tokens, If.tokens, List.cons_append, List.cons.injEq] at h
      cases body.front_tokens.symm.trans (congrArg front h.2)
  | .elseIf kw (.mk ifKw cond body other), hdepth, other', r, r', hr, hr', h => by
    cases other' with
    | none => exact absurd (congrArg front h).symm (hr'.front_ne rfl Token.noConfusion)
    | block kw' body' =>
      simp only [tokens, If.tokens, List.cons_append, List.cons.injEq] at h
      cases body'.front_tokens.symm.trans (congrArg front h.2).symm
    | elseIf kw' branch' =>
      obtain ⟨ifKw', cond', body', other'⟩ := branch'
      obtain ⟨-, hdepth⟩ := Nat.max_le.mp hdepth
      obtain ⟨hbody, hother⟩ := Nat.max_le.mp hdepth
      simp only [tokens, If.tokens, List.cons_append, List.append_assoc, List.cons.injEq,
        Lexeme.mk.injEq, true_and] at h
      obtain ⟨rfl, rfl, h⟩ := h
      obtain ⟨rfl, rfl, hrest⟩ := Block.eq_of_condition hblock hbody h
      obtain ⟨rfl, heq⟩ := Else.determined other hother other' r r' hr hr' hrest
      exact ⟨rfl, heq⟩

theorem Stmt.determined (s : Stmt) (hs : s.depth ≤ n) : Determined Stmt.tokens StmtEnds s := by
  intro s' r r' hr hr' h
  -- All but two kinds begin with a keyword of their own. An assignment and a call both begin with a
  -- name, and only the call goes on with a parenthesis.
  cases s with
  | var kw name init =>
    cases s' with
    | var kw' name' init' =>
      simp only [tokens, List.cons_append, List.cons.injEq, Lexeme.mk.injEq, lexeme_injective,
        true_and] at h
      obtain ⟨rfl, rfl, h⟩ := h
      obtain ⟨rfl, hrest⟩ := init.determined init' r r' hr hr' h
      exact ⟨rfl, hrest⟩
    | assign target' => simp [tokens, target'.tokens_eq, Name.lexeme] at h
    | ifElse branch' => cases branch'; simp [tokens, If.tokens] at h
    | ret | whileLoop | forLoop | call => simp [tokens, Name.lexeme] at h
  | assign target sign value =>
    cases s' with
    | assign target' sign' value' =>
      simp only [tokens, List.append_assoc, List.cons_append] at h
      obtain ⟨rfl, hrest⟩ := target.determined determined_expr (Nat.le_refl _) target' _ _
        (.of_front rfl rfl) (.of_front rfl rfl) h
      simp only [List.cons.injEq, Lexeme.mk.injEq, true_and] at hrest
      obtain ⟨rfl, hrest⟩ := hrest
      obtain ⟨rfl, heq⟩ := determined_expr value (Nat.le_refl _) value' r r' hr.ends hr'.ends hrest
      exact ⟨rfl, heq⟩
    | call callee' lparen' args' =>
      simp only [tokens, target.tokens_eq, List.append_assoc, List.cons_append,
        List.cons.injEq] at h
      exact absurd (congrArg front h.2) (target.front_tail_ne (by rintro ⟨⟩))
    | ifElse branch' => cases branch'; simp [tokens, target.tokens_eq, If.tokens, Name.lexeme] at h
    | var | ret | whileLoop | forLoop => simp [tokens, target.tokens_eq, Name.lexeme] at h
  | ret kw value =>
    cases s' with
    | ret kw' value' =>
      simp only [tokens, List.cons_append, List.cons.injEq, Lexeme.mk.injEq, true_and] at h
      obtain ⟨rfl, h⟩ := h
      obtain ⟨rfl, hrest⟩ := determined_expr value (Nat.le_refl _) value' r r' hr.ends hr'.ends h
      exact ⟨rfl, hrest⟩
    | assign target' => simp [tokens, target'.tokens_eq, Name.lexeme] at h
    | ifElse branch' => cases branch'; simp [tokens, If.tokens] at h
    | var | whileLoop | forLoop | call => simp [tokens, Name.lexeme] at h
  | whileLoop kw cond body =>
    cases s' with
    | whileLoop kw' cond' body' =>
      simp only [tokens, List.cons_append, List.append_assoc, List.cons.injEq, Lexeme.mk.injEq,
        true_and] at h
      obtain ⟨rfl, h⟩ := h
      obtain ⟨rfl, rfl, hrest⟩ := Block.eq_of_condition hblock (Nat.max_le.mp hs).2 h
      exact ⟨rfl, hrest⟩
    | assign target' => simp [tokens, target'.tokens_eq, Name.lexeme] at h
    | ifElse branch' => cases branch'; simp [tokens, If.tokens] at h
    | var | ret | forLoop | call => simp [tokens, Name.lexeme] at h
  | forLoop kw var fromKw first toKw last body =>
    cases s' with
    | forLoop kw' var' fromKw' first' toKw' last' body' =>
      obtain ⟨-, hlast⟩ := Nat.max_le.mp hs
      simp only [tokens, List.cons_append, List.append_assoc, List.cons.injEq, Lexeme.mk.injEq,
        lexeme_injective, true_and] at h
      obtain ⟨rfl, rfl, rfl, h⟩ := h
      obtain ⟨rfl, rfl, hrest⟩ := Expr.eq_of_closed determined_expr (Nat.le_refl _) rfl h
      obtain ⟨rfl, rfl, heq⟩ := Block.eq_of_condition hblock (Nat.max_le.mp hlast).2 hrest
      exact ⟨rfl, heq⟩
    | assign target' => simp [tokens, target'.tokens_eq, Name.lexeme] at h
    | ifElse branch' => cases branch'; simp [tokens, If.tokens] at h
    | var | ret | whileLoop | call => simp [tokens, Name.lexeme] at h
  | ifElse branch =>
    obtain ⟨kw, cond, body, other⟩ := branch
    cases s' with
    | ifElse branch' =>
      obtain ⟨kw', cond', body', other'⟩ := branch'
      obtain ⟨-, hdepth⟩ := Nat.max_le.mp hs
      obtain ⟨hbody, hother⟩ := Nat.max_le.mp hdepth
      simp only [tokens, If.tokens, List.cons_append, List.append_assoc, List.cons.injEq,
        Lexeme.mk.injEq, true_and] at h
      obtain ⟨rfl, h⟩ := h
      obtain ⟨rfl, rfl, hrest⟩ := Block.eq_of_condition hblock hbody h
      obtain ⟨rfl, heq⟩ := other.determined hblock hother other' r r' hr hr' hrest
      exact ⟨rfl, heq⟩
    | assign target' => simp [tokens, If.tokens, target'.tokens_eq, Name.lexeme] at h
    | var | ret | whileLoop | forLoop | call => simp [tokens, If.tokens, Name.lexeme] at h
  | call callee lparen args =>
    cases s' with
    | assign target' sign' value' =>
      simp only [tokens, target'.tokens_eq, List.append_assoc, List.cons_append,
        List.cons.injEq] at h
      exact absurd (congrArg front h.2).symm (target'.front_tail_ne (by rintro ⟨⟩))
    | call callee' lparen' args' =>
      simp only [tokens, List.cons_append, List.cons.injEq, lexeme_injective, Lexeme.mk.injEq,
        true_and] at h
      obtain ⟨rfl, rfl, h⟩ := h
      obtain ⟨rfl, hrest⟩ := args_determined determined_expr args (Nat.le_refl _) args' r r'
        trivial trivial h
      exact ⟨rfl, hrest⟩
    | ifElse branch' => cases branch'; simp [tokens, If.tokens, Name.lexeme] at h
    | var | ret | whileLoop | forLoop => simp [tokens, Name.lexeme] at h

end

/-- Statements up to a closing brace. -/
theorem stmts_determined {ss ss' : List Stmt} {rbrace rbrace' : Pos} {r r' : List Lexeme}
    (hss : ∀ s ∈ ss, Determined Stmt.tokens StmtEnds s)
    (h : ss.flatMap Stmt.tokens ++ ⟨.punct .rbrace, rbrace⟩ :: r =
      ss'.flatMap Stmt.tokens ++ ⟨.punct .rbrace, rbrace'⟩ :: r') :
    ss = ss' ∧ rbrace = rbrace' ∧ r = r' := by
  induction ss generalizing ss' with
  | nil =>
    cases ss' with
    | nil => simpa using h
    | cons s' ss' =>
      rw [List.flatMap_cons, List.append_assoc] at h
      exact absurd (congrArg front h).symm (s'.front_tokens_ne rfl _)
  | cons s ss ih =>
    obtain ⟨hs, hss⟩ := List.forall_mem_cons.mp hss
    cases ss' with
    | nil =>
      rw [List.flatMap_cons, List.append_assoc] at h
      exact absurd (congrArg front h) (s.front_tokens_ne rfl _)
    | cons s' ss' =>
      simp only [List.flatMap_cons, List.append_assoc] at h
      obtain ⟨rfl, hrest⟩ := hs s' _ _ (stmtEnds_stmts ss rbrace) (stmtEnds_stmts ss' rbrace') h
      obtain ⟨rfl, rfl, rfl⟩ := ih hss hrest
      exact ⟨rfl, rfl, rfl⟩

theorem Block.determined (n : Nat) (b : Block) (hb : b.depth ≤ n) :
    Determined Block.tokens (fun _ ↦ True) b := by
  induction n generalizing b with
  | zero => exact absurd hb (by cases b; simp [depth])
  | succ n ih =>
    intro b' r r' _ _ h
    obtain ⟨lbrace, ss, rbrace⟩ := b
    obtain ⟨lbrace', ss', rbrace'⟩ := b'
    have hss := (stmtsDepth_le_iff ss).mp (Nat.le_of_succ_le_succ hb)
    simp only [tokens, stmtsTokens_eq, List.cons_append, List.append_assoc, List.nil_append,
      List.cons.injEq, Lexeme.mk.injEq, true_and] at h
    obtain ⟨rfl, h⟩ := h
    obtain ⟨rfl, rfl, rfl⟩ := stmts_determined (fun s hs ↦ s.determined ih (hss s hs)) h
    exact ⟨rfl, rfl⟩

/-! ## Definitions -/

theorem fields_determined {close : Punct} (hclose : close ≠ .comma) (l : Listing Field) :
    Determined (Listing.tokens close Field.tokens) (fun _ ↦ True) l :=
  Listing.determined hclose l (fun d _ d' r r' _ _ h ↦ d.determined d' r r' trivial trivial h)
    fun _ _ ↦ nofun

theorem Struct.determined (d : Struct) : Determined Struct.tokens (fun _ ↦ True) d := by
  intro d' r r' _ _ h
  obtain ⟨kw, name, lbrace, fields⟩ := d
  obtain ⟨kw', name', lbrace', fields'⟩ := d'
  simp only [tokens, List.cons_append, List.cons.injEq, Lexeme.mk.injEq, lexeme_injective,
    true_and] at h
  obtain ⟨rfl, rfl, rfl, h⟩ := h
  obtain ⟨rfl, hrest⟩ := fields_determined (by decide) fields fields' r r' trivial trivial h
  exact ⟨rfl, hrest⟩

theorem ReturnType.determined (d : ReturnType) :
    Determined ReturnType.tokens (fun _ ↦ True) d := by
  intro d' r r' _ _ h
  cases d with
  | void kw =>
    cases d' with
    | void kw' => simpa [tokens] using h
    | value type' => exact absurd (congrArg front h).symm (type'.front_tokens_ne rfl _)
  | value type =>
    cases d' with
    | void kw' => exact absurd (congrArg front h) (type.front_tokens_ne rfl _)
    | value type' =>
      obtain ⟨rfl, hrest⟩ := type.determined type' r r' trivial trivial h
      exact ⟨rfl, hrest⟩

theorem Function.determined (d : Function) : Determined Function.tokens (fun _ ↦ True) d := by
  intro d' r r' _ _ h
  obtain ⟨type, name, lparen, params, body⟩ := d
  obtain ⟨type', name', lparen', params', body'⟩ := d'
  simp only [tokens, List.cons_append, List.append_assoc] at h
  obtain ⟨rfl, hname⟩ := type.determined type' _ _ trivial trivial h
  simp only [List.cons.injEq, Lexeme.mk.injEq, lexeme_injective, true_and] at hname
  obtain ⟨rfl, rfl, hparams⟩ := hname
  obtain ⟨rfl, hbody⟩ := fields_determined (by decide) params params' _ _ trivial trivial hparams
  obtain ⟨rfl, hrest⟩ := body.determined _ (Nat.le_refl _) body' r r' trivial trivial hbody
  exact ⟨rfl, hrest⟩

theorem Definition.determined (d : Definition) :
    Determined Definition.tokens (fun _ ↦ True) d := by
  intro d' r r' _ _ h
  obtain ⟨l, ls, hd, -, hstruct⟩ := d.exists_tokens_eq
  obtain ⟨l', ls', hd', -, hstruct'⟩ := d'.exists_tokens_eq
  have hfirst : l.token = l'.token := by
    rw [hd, hd', List.cons_append, List.cons_append, List.cons.injEq] at h
    rw [h.1]
  rw [← hfirst] at hstruct'
  cases d with
  | struct s =>
    obtain ⟨s', rfl⟩ := hstruct'.mp (hstruct.mpr ⟨s, rfl⟩)
    obtain ⟨rfl, hrest⟩ := s.determined s' r r' trivial trivial h
    exact ⟨rfl, hrest⟩
  | function f =>
    cases d' with
    | struct s' => exact absurd (hstruct.mp (hstruct'.mpr ⟨s', rfl⟩)) nofun
    | function f' =>
      obtain ⟨rfl, hrest⟩ := f.determined f' r r' trivial trivial h
      exact ⟨rfl, hrest⟩

/-- A program has one derivation. -/
theorem Program.tokens_injective {d d' : Program} (h : d.tokens = d'.tokens) : d = d' := by
  obtain ⟨ds⟩ := d
  obtain ⟨ds'⟩ := d'
  rw [tokens, tokens] at h
  suffices heq : ds = ds' by rw [heq]
  induction ds generalizing ds' with
  | nil =>
    cases ds' with
    | nil => rfl
    | cons d' ds' =>
      obtain ⟨l, ls, hd', -⟩ := d'.exists_tokens_eq
      simp [hd'] at h
  | cons d ds ih =>
    cases ds' with
    | nil =>
      obtain ⟨l, ls, hd, -⟩ := d.exists_tokens_eq
      simp [hd] at h
    | cons d' ds' =>
      obtain ⟨rfl, hrest⟩ := d.determined d' _ _ trivial trivial h
      rw [ih ds' hrest]

end Derivation

end Pebble
