import Mathlib.Tactic.Common
import Pebble.Proofs.Relocation

/-!
# Readers and the places of tokens

A reader looks at tokens and not at where they stand. On tokens that stand elsewhere it goes the
same way, and its answer or its failure is the same one elsewhere. The same holds if an end mark is
put behind the tokens: wherever a reader looks for a token that is not there, it treats an end mark
as none. `Relocation` covers both changes at once, and `Parser.Relocates` relates the runs of two
readers on tokens that differ in this way. It composes along `do` blocks.

What the end mark does change is the place of a failure at the end of the tokens, and whether the
failure mentions the mark; so without an end mark the failures correspond exactly, and with one
they do up to `ParseFault.settled`.

## The rounds of a loop

A loop may take one round for each token that is left, and one more. With an end mark it has more
rounds, so that the two runs stay together only if neither uses up its rounds. For this the relation
carries a lower bound on the number of tokens read: one round reads one token at least.
-/

namespace Pebble

/-- The fault, with the end of the tokens found as an end mark. -/
def ParseFault.settled : ParseFault → ParseFault
  | unexpected wanted found => unexpected wanted (some (found.getD .eof))
  | nestingTooDeep => nestingTooDeep

theorem ParseFault.message_settled (f : ParseFault) : f.settled.message = f.message := by
  cases f <;> rfl

/-- Other places for tokens, and something to put behind them that is as good as their end. -/
structure Relocation where
  place : Pos → Pos
  tail : List Lexeme
  tail_ends : (Derivation.front tail).getD .eof = .eof

namespace Relocation

variable (r : Relocation)

/-- The second cursor is at the same token as the first one, among the relocated tokens. -/
structure Corresponds (c c' : Cursor) : Prop where
  rest : c'.rest = c.rest.map (Lexeme.moved r.place) ++ r.tail
  /-- Where a failure at the end of the tokens is reported. -/
  last : c.rest = [] → r.tail = [] → c'.last.getD .start = r.place (c.last.getD .start)

/-- The second outcome is the first one elsewhere. Where they are answers, at least `n` of the
`size` tokens there were have been read. -/
inductive Carries {α : Type} (g : α → α) (n size : Nat) :
    Except ParseError (α × Cursor) → Except ParseError (α × Cursor) → Prop
  | ok (a : α) {c c' : Cursor} (hc : r.Corresponds c c') (hread : c.rest.length + n ≤ size) :
    Carries g n size (.ok (a, c)) (.ok (g a, c'))
  | error {e e' : ParseError} (hfault : e'.fault.settled = e.fault.settled)
      (hexact : r.tail = [] → e' = e.moved r.place) :
    Carries g n size (.error e) (.error e')

variable {r} {c c' : Cursor}

theorem Carries.mono {α : Type} {g : α → α} {n m size size' : Nat}
    {o o' : Except ParseError (α × Cursor)} (h : r.Carries g n size o o')
    (hread : ∀ k, k + n ≤ size → k + m ≤ size') : r.Carries g m size' o o' := by
  cases h with
  | ok a hc hn => exact .ok a hc (hread _ hn)
  | error hfault hexact => exact .error hfault hexact

theorem Corresponds.token?_some (h : r.Corresponds c c') {t : Token} (ht : c.token? = some t) :
    c'.token? = some t := by
  obtain ⟨rest, last⟩ := c
  cases rest with
  | nil => cases ht
  | cons l ls =>
    cases ht
    rw [Cursor.token?, h.rest]
    rfl

theorem Corresponds.token?_none (h : r.Corresponds c c') (ht : c.token? = none) :
    c'.token?.getD .eof = .eof := by
  obtain ⟨rest, last⟩ := c
  cases rest with
  | nil =>
    rw [Cursor.token?, h.rest]
    exact r.tail_ends
  | cons l ls => cases ht

/-- The two cursors see the same token, except that the second one may see an end mark where the
first one sees nothing. -/
theorem Corresponds.token?_cases (h : r.Corresponds c c') :
    c'.token? = c.token? ∨ c.token? = none ∧ c'.token? = some .eof := by
  cases ht : c.token? with
  | some t => exact .inl (h.token?_some ht)
  | none =>
    have hend := h.token?_none ht
    cases ht' : c'.token? with
    | none => exact .inl rfl
    | some t =>
      rw [ht', Option.getD_some] at hend
      exact .inr ⟨rfl, congrArg some hend⟩

theorem Corresponds.pos_of_some (h : r.Corresponds c c') {t : Token} (ht : c.token? = some t) :
    c'.pos = r.place c.pos := by
  obtain ⟨rest, last⟩ := c
  cases rest with
  | nil => cases ht
  | cons l ls =>
    rw [Cursor.pos, h.rest]
    rfl

theorem Corresponds.pos_of_tail (h : r.Corresponds c c') (htail : r.tail = []) :
    c'.pos = r.place c.pos := by
  cases ht : c.token? with
  | some t => exact h.pos_of_some ht
  | none =>
    obtain ⟨rest, last⟩ := c
    cases rest with
    | cons l ls => cases ht
    | nil =>
      have hlast := h.last rfl htail
      rw [Cursor.pos, h.rest, htail]
      exact hlast

theorem Corresponds.token?_of_tail (h : r.Corresponds c c') (htail : r.tail = []) :
    c'.token? = c.token? := by
  rw [Cursor.token?, h.rest, htail, List.append_nil, Cursor.token?, List.head?_map, Option.map_map]
  rfl

theorem Corresponds.next (h : r.Corresponds c c') {t : Token} (ht : c.token? = some t) :
    r.Corresponds c.next c'.next ∧ c.rest.length = c.next.rest.length + 1 := by
  obtain ⟨rest, last⟩ := c
  cases rest with
  | nil => cases ht
  | cons l ls =>
    refine ⟨?_, rfl⟩
    obtain ⟨rest', last'⟩ := c'
    obtain rfl : rest' = (l :: ls).map (Lexeme.moved r.place) ++ r.tail := h.rest
    exact ⟨rfl, fun _ _ ↦ rfl⟩

end Relocation

namespace Parser

/-- Run at a cursor before the token `t`, and at one before the same token elsewhere, the second
reader has the outcome of the first one elsewhere, and where they succeed at least `n` tokens are
read. -/
def Relocates {α : Type} (r : Relocation) (t : Option Token) (n : Nat) (g : α → α)
    (x y : Parser α) : Prop :=
  ∀ c c', r.Corresponds c c' → c.token? = t →
    r.Carries g n c.rest.length (x.run c) (y.run c')

namespace Relocates

variable {α β σ : Type} {r : Relocation} {t : Option Token} {m n : Nat} {g : α → α} {h : β → β}
  {x y : Parser α} {f f' : α → Parser β}

theorem pure {a b : α} (hb : b = g a) : Relocates r t 0 g (pure a) (pure b) := by
  intro c c' hc _
  subst hb
  exact .ok a hc (Nat.le_refl _)

theorem bind (hx : Relocates r t n g x y)
    (hf : ∀ a t', Relocates r t' m h (f a) (f' (g a))) :
    Relocates r t n h (x >>= f) (y >>= f') := by
  intro c c' hc ht
  rw [StateT.run_bind, StateT.run_bind]
  have hrun := hx c c' hc ht
  generalize x.run c = o at hrun
  generalize y.run c' = o' at hrun
  cases hrun with
  | ok a hc₁ hread => exact (hf a _ _ _ hc₁ rfl).mono fun k hk ↦ by omega
  | error hfault hexact => exact .error hfault hexact

/-- Where there is no token, a reader of at least one fails, and what would follow does not
matter. -/
theorem bind_of_none (hx : Relocates r none 1 g x y) :
    Relocates r none n h (x >>= f) (y >>= f') := by
  intro c c' hc ht
  rw [StateT.run_bind, StateT.run_bind]
  have hrun := hx c c' hc ht
  generalize x.run c = o at hrun
  generalize y.run c' = o' at hrun
  cases hrun with
  | error hfault hexact => exact .error hfault hexact
  | ok a hc₁ hread =>
    obtain ⟨_ | ⟨l, ls⟩, last⟩ := c
    · exact absurd hread (Nat.not_succ_le_zero _)
    · cases ht

theorem weaken (hx : Relocates r t n g x y) : Relocates r t 0 g x y :=
  fun c c' hc ht ↦ (hx c c' hc ht).mono fun k hk ↦ by omega

theorem fail {fault : ParseFault} : Relocates r t n g (fail fault) (fail fault) := by
  intro c c' hc _
  refine .error rfl fun htail ↦ ?_
  show ParseError.mk c'.pos fault = ⟨r.place c.pos, fault⟩
  rw [hc.pos_of_tail htail]

theorem unexpected {wanted : Expectation} :
    Relocates r t n g (unexpected wanted) (unexpected wanted) := by
  intro c c' hc _
  refine .error ?_ fun htail ↦ ?_
  · show ParseFault.unexpected wanted (some (c'.token?.getD .eof)) =
      .unexpected wanted (some (c.token?.getD .eof))
    rcases hc.token?_cases with heq | ⟨hnone, heof⟩
    · rw [heq]
    · rw [hnone, heof]
      rfl
  · show ParseError.mk c'.pos (.unexpected wanted c'.token?) =
      ⟨r.place c.pos, .unexpected wanted c.token?⟩
    rw [hc.pos_of_tail htail, hc.token?_of_tail htail]

theorem unexpected_bind {wanted : Expectation} :
    Relocates r t n h (Parser.unexpected wanted >>= f) (Parser.unexpected wanted >>= f') :=
  fun c c' hc ht ↦ unexpected (α := β) c c' hc ht

/-- What is done next may depend on the next token, but not on whether the end is marked. -/
theorem peek {k k' : Option Token → Parser β} (hend : k' (some .eof) = k' none)
    (hk : Relocates r t n h (k t) (k' t)) : Relocates r t n h (peek >>= k) (peek >>= k') := by
  intro c c' hc ht
  have hrun := hk c c' hc ht
  subst ht
  show r.Carries h n c.rest.length ((k c.token?).run c) ((k' c'.token?).run c')
  rcases hc.token?_cases with heq | ⟨hnone, heof⟩
  · rwa [heq]
  · rwa [heof, hend, ← hnone]

/-- Where there is no next token, the places that two readers find are unrelated. -/
theorem here {k k' : Pos → Parser β}
    (hk : ∀ p p', (t ≠ none → p' = r.place p) → Relocates r t n h (k p) (k' p')) :
    Relocates r t n h (here >>= k) (here >>= k') := by
  intro c c' hc ht
  refine hk c.pos c'.pos (fun hsome ↦ ?_) c c' hc ht
  obtain ⟨t₀, ht₀⟩ := Option.ne_none_iff_exists'.mp (ht ▸ hsome)
  exact hc.pos_of_some ht₀

theorem here_some {t₀ : Token} {k k' : Pos → Parser β}
    (hk : ∀ p, Relocates r (some t₀) n h (k p) (k' (r.place p))) :
    Relocates r (some t₀) n h (Parser.here >>= k) (Parser.here >>= k') :=
  here fun p p' hp ↦ by rw [hp nofun]; exact hk p

theorem advance {t₀ : Token} {k k' : Unit → Parser β}
    (hk : ∀ t', Relocates r t' m h (k ()) (k' ())) :
    Relocates r (some t₀) 1 h (advance >>= k) (advance >>= k') := by
  intro c c' hc ht
  obtain ⟨hnext, hlength⟩ := hc.next ht
  exact (hk _ c.next c'.next hnext rfl).mono fun k hk ↦ by omega

theorem ifSees {t₀ : Token} {y y' z z' : Parser β} (hne : t₀ ≠ .eof)
    (hy : t = some t₀ → Relocates r (some t₀) n h y y') (hz : Relocates r t n h z z') :
    Relocates r t n h (sees t₀ >>= fun b ↦ if b = true then y else z)
      (sees t₀ >>= fun b ↦ if b = true then y' else z') := by
  have hend : (if decide (some Token.eof = some t₀) = true then y' else z') =
      if decide ((none : Option Token) = some t₀) = true then y' else z' := by
    rw [if_neg (by simpa using hne.symm), if_neg (by simp)]
  show Relocates r t n h (Parser.peek >>= fun t ↦ if decide (t = some t₀) = true then y else z)
    (Parser.peek >>= fun t ↦ if decide (t = some t₀) = true then y' else z')
  refine peek hend ?_
  by_cases ht : t = some t₀
  · subst ht
    simpa using hy rfl
  · simpa [ht] using hz

/-- If one round of a loop is relocated, then all rounds together are: a round reads a token, so
that neither loop runs out of rounds before it runs out of tokens. -/
theorem loopFor {more : σ → Option Token → Bool} {step step' : σ → Parser σ} {g : σ → σ}
    (hmore : ∀ s t, more (g s) t = more s t) (hend : ∀ s, more s (some .eof) = more s none)
    (hstep : ∀ s t, more s t = true → Relocates r t 1 g (step s) (step' (g s)))
    {rounds rounds' : Nat} {s : σ} {c c' : Cursor} (hlt : c.rest.length < rounds)
    (hlt' : c.rest.length < rounds') (hc : r.Corresponds c c') :
    r.Carries g 0 c.rest.length ((loopFor more step rounds s).run c)
      ((loopFor more step' rounds' (g s)).run c') := by
  induction rounds generalizing rounds' s c c' with
  | zero => exact absurd hlt (Nat.not_lt_zero _)
  | succ rounds ih =>
    obtain _ | rounds' := rounds'
    · exact absurd hlt' (Nat.not_lt_zero _)
    have hsame : more (g s) c'.token? = more s c.token? := by
      rw [hmore]
      rcases hc.token?_cases with heq | ⟨hnone, heof⟩
      · rw [heq]
      · rw [hnone, heof, hend]
    show r.Carries g 0 c.rest.length
      ((if more s c.token? then step s >>= Parser.loopFor more step rounds
        else Pure.pure s).run c)
      ((if more (g s) c'.token? then step' (g s) >>= Parser.loopFor more step' rounds'
        else Pure.pure (g s)).run c')
    rw [hsame]
    cases hgo : more s c.token? with
    | false => exact .ok s hc (Nat.le_refl _)
    | true =>
      rw [if_pos rfl, if_pos rfl, StateT.run_bind, StateT.run_bind]
      have hround := hstep s _ hgo c c' hc rfl
      generalize (step s).run c = o at hround
      generalize (step' (g s)).run c' = o' at hround
      cases hround with
      | error hfault hexact => exact .error hfault hexact
      | ok s₁ hc₁ hread =>
        exact (ih (by omega) (by omega) hc₁).mono fun k hk ↦ by omega

theorem loop {more : σ → Option Token → Bool} {step step' : σ → Parser σ} {g : σ → σ} {s s' : σ}
    (hs : s' = g s) (hmore : ∀ s t, more (g s) t = more s t)
    (hend : ∀ s, more s (some .eof) = more s none)
    (hstep : ∀ s t, more s t = true → Relocates r t 1 g (step s) (step' (g s))) :
    Relocates r t 0 g (loop more step s) (loop more step' s') := by
  subst hs
  intro c c' hc _
  have hlonger : c.rest.length ≤ c'.rest.length := by
    rw [hc.rest, List.length_append, List.length_map]
    omega
  show r.Carries g 0 c.rest.length ((Parser.loopFor more step (c.rest.length + 1) s).run c)
    ((Parser.loopFor more step' (c'.rest.length + 1) (g s)).run c')
  exact loopFor hmore hend hstep (Nat.lt_succ_self _) (Nat.lt_succ_of_le hlonger) hc

/-- Another wording of the failures does not depend on where they are. -/
theorem tryCatch {k : ParseError → Parser α} (reword : ParseFault → ParseFault)
    (hk : ∀ e, k e = throw ⟨e.pos, reword e.fault⟩)
    (hreword : ∀ f, (reword f).settled = reword f.settled)
    (hx : Relocates r t n g x y) : Relocates r t n g (tryCatch x k) (tryCatch y k) := by
  intro c c' hc ht
  show r.Carries g n c.rest.length (MonadExcept.tryCatch (x.run c) fun e ↦ (k e).run c)
    (MonadExcept.tryCatch (y.run c') fun e ↦ (k e).run c')
  have hrun := hx c c' hc ht
  generalize x.run c = o at hrun
  generalize y.run c' = o' at hrun
  cases hrun with
  | ok a hc₁ hread => exact .ok a hc₁ hread
  | @error e e' hfault hexact =>
    show r.Carries g n c.rest.length ((k e).run c) ((k e').run c')
    rw [hk, hk]
    refine .error ?_ fun htail ↦ ?_
    · rw [hreword, hreword, hfault]
    · rw [hexact htail]
      rfl

end Relocates

section
variable {r : Relocation} {t : Option Token}

/-! ## Single tokens -/

theorem relocates_expect {t₀ : Token} (hne : t₀ ≠ .eof) :
    Relocates r t 1 r.place (expect t₀) (expect t₀) :=
  .ifSees hne (fun _ ↦ .here_some fun _ ↦ .advance fun _ ↦ .pure rfl) .unexpected

theorem relocates_expectPunct {p : Punct} :
    Relocates r t 1 id (expectPunct p) (expectPunct p) :=
  have hne : Token.punct p ≠ .eof := nofun
  (relocates_expect hne).bind fun _ _ ↦ .pure rfl

theorem relocates_name {wanted : Expectation} :
    Relocates r t 1 (Name.moved r.place) (name wanted) (name wanted) := by
  refine .peek rfl ?_
  split
  · exact .here_some fun _ ↦ .advance fun _ ↦ .pure rfl
  · exact .unexpected

/-! ## Lists -/

theorem relocates_commaList {α : Type} {close : Punct} {item : Parser α} {g : α → α}
    (hitem : ∀ t, Relocates r t 0 g item item) :
    Relocates r t 0 (List.map g) (commaList close item) (commaList close item) := by
  refine .ifSees nofun (fun _ ↦ ?_) ?_
  · exact .weaken (.advance fun _ ↦ .pure rfl)
  · refine (hitem t).bind (m := 0) fun first _ ↦
      .bind (m := 1)
        (.loop (g := List.map g) rfl (fun _ _ ↦ rfl) (fun _ ↦ rfl) fun items t hcomma ↦ ?_)
        fun items _ ↦ ?_
    · obtain rfl := of_decide_eq_true hcomma
      exact .advance fun _ ↦ (hitem _).bind fun _ _ ↦ .pure rfl
    · exact relocates_expectPunct.bind fun _ _ ↦ .pure List.map_reverse.symm

/-! ## Types -/

theorem relocates_typeName : Relocates r t 1 id typeName typeName := by
  have hword : ∀ (t₀ : Token) (found : TypeName), Relocates r (some t₀) 1 id
      (advance >>= fun _ ↦ pure found) (advance >>= fun _ ↦ pure found) :=
    fun _ _ ↦ .advance fun _ ↦ .pure rfl
  refine .peek rfl ?_
  split
  · exact hword _ .int
  · exact hword _ .double
  · exact hword _ .bool
  · exact hword _ .string
  · next x => exact hword _ (.struct x)
  · exact .unexpected_bind

theorem relocates_typeRef : Relocates r t 1 (TypeRef.moved r.place) typeRef typeRef := by
  refine .here fun p p' hp ↦ .ifSees nofun ?_ ?_
  · rintro rfl
    rw [hp nofun]
    exact .advance fun _ ↦ relocates_typeName.bind fun _ _ ↦
      relocates_expectPunct.bind fun _ _ ↦ .pure rfl
  · cases t with
    | none => exact relocates_typeName.bind_of_none
    | some t₀ =>
      rw [hp nofun]
      exact relocates_typeName.bind fun _ _ ↦ .pure rfl

theorem relocates_varDef : Relocates r t 1 (VarDef.moved r.place) varDef varDef :=
  relocates_name.bind fun _ _ ↦ relocates_expectPunct.bind fun _ _ ↦
    relocates_typeRef.bind fun _ _ ↦ .pure rfl

/-! ## Expressions -/

section
variable {p : Nat} {operand : Parser Expr}

theorem relocates_chain (hoperand : ∀ t, Relocates r t 0 (Expr.moved r.place) operand operand) :
    Relocates r t 0 (Expr.moved r.place) (chain p operand) (chain p operand) := by
  refine (hoperand t).bind fun first _ ↦ .loop rfl (fun _ _ ↦ rfl) (fun _ ↦ rfl) fun lhs t hop ↦ ?_
  refine .peek rfl ?_
  split
  · next hnone => rw [hnone] at hop; cases hop
  · next op hop =>
    obtain ⟨rfl, -⟩ := opAt?_eq_some.mp hop
    exact .here_some fun _ ↦ .advance fun _ ↦ (hoperand _).bind fun _ _ ↦ .pure rfl

theorem relocates_expression
    (hoperand : ∀ t, Relocates r t 0 (Expr.moved r.place) operand operand) :
    Relocates r t 0 (Expr.moved r.place) (expression operand) (expression operand) := by
  rw [expression]
  generalize List.range (BinOp.maxPrecedence + 1) = precedences
  induction precedences generalizing t with
  | nil => exact hoperand t
  | cons p precedences ih => exact relocates_chain fun _ ↦ ih

end

section
variable {expr : Parser Expr} (hexpr : ∀ t, Relocates r t 0 (Expr.moved r.place) expr expr)
include hexpr

theorem relocates_arguments :
    Relocates r t 1 (argsMoved r.place) (arguments expr) (arguments expr) := by
  rw [funext (argsMoved_eq r.place)]
  exact relocates_expectPunct.bind fun _ _ ↦ relocates_commaList hexpr

theorem relocates_bracketed :
    Relocates r t 1 (Expr.moved r.place) (bracketed expr) (bracketed expr) :=
  relocates_expectPunct.bind fun _ _ ↦ (hexpr _).bind fun _ _ ↦
    relocates_expectPunct.bind fun _ _ ↦ .pure rfl

theorem relocates_index? :
    Relocates r t 0 (indexMoved r.place) (index? expr) (index? expr) := by
  refine .ifSees nofun (fun _ ↦ ?_) (.pure rfl)
  exact .weaken ((relocates_bracketed hexpr).bind fun _ _ ↦ .pure rfl)

theorem relocates_pathFrom {x : Name} :
    Relocates r t 0 (Path.moved r.place) (pathFrom expr x) (pathFrom expr (x.moved r.place)) := by
  refine (relocates_index? hexpr).bind fun index _ ↦
    .loop rfl (fun _ _ ↦ rfl) (fun _ ↦ rfl) fun base t hdot ↦ ?_
  obtain rfl := of_decide_eq_true hdot
  exact .advance fun _ ↦ relocates_name.bind fun _ _ ↦
    (relocates_index? hexpr).bind fun _ _ ↦ .pure rfl

theorem relocates_newObject :
    Relocates r t 1 (Expr.moved r.place) (newObject expr) (newObject expr) := by
  refine .here fun p p' hp ↦ .peek rfl ?_
  cases t with
  | none => exact .unexpected
  | some t₀ =>
    rw [hp nofun]
    split
    · refine relocates_name.bind (m := 1) fun x _ ↦
        .ifSees nofun (fun _ ↦ ?_) (.ifSees nofun (fun _ ↦ ?_) ?_)
      · exact (relocates_arguments hexpr).bind fun _ _ ↦ .pure rfl
      · exact (relocates_bracketed hexpr).bind fun _ _ ↦ .pure rfl
      · exact .unexpected
    · split
      · exact relocates_typeName.bind fun _ _ ↦
          (relocates_bracketed hexpr).bind fun _ _ ↦ .pure rfl
      · exact .unexpected
    · exact .unexpected

theorem relocates_basic : Relocates r t 1 (Expr.moved r.place) (basic expr) (basic expr) := by
  refine .here fun p p' hp ↦ .peek rfl ?_
  cases t with
  | none => exact .unexpected
  | some t₀ =>
    rw [hp nofun]
    split
    · exact .advance fun _ ↦ .pure rfl
    · exact .advance fun _ ↦ relocates_newObject hexpr
    · refine relocates_name.bind (m := 0) fun x _ ↦ .ifSees nofun (fun _ ↦ ?_) ?_
      · exact .weaken ((relocates_arguments hexpr).bind fun _ _ ↦ .pure rfl)
      · exact (relocates_pathFrom hexpr).bind fun _ _ ↦ .pure rfl
    · exact .unexpected

end

theorem relocates_primaryWithin (levels : Nat) :
    Relocates r t 1 (Expr.moved r.place) (primaryWithin levels) (primaryWithin levels) := by
  induction levels generalizing t with
  | zero => exact .fail
  | succ levels ih =>
    have hexpr : ∀ t, Relocates r t 0 (Expr.moved r.place) (expression (primaryWithin levels))
        (expression (primaryWithin levels)) :=
      fun _ ↦ relocates_expression fun _ ↦ ih.weaken
    refine .peek rfl ?_
    split
    · exact .advance fun _ ↦ (hexpr _).bind fun _ _ ↦
        relocates_expectPunct.bind fun _ _ ↦ .pure rfl
    · exact .here_some fun _ ↦ .advance fun _ ↦ ih.bind fun _ _ ↦ .pure rfl
    · exact relocates_basic hexpr

theorem relocates_exprWithin (levels : Nat) :
    Relocates r t 0 (Expr.moved r.place) (exprWithin levels) (exprWithin levels) :=
  relocates_expression fun _ ↦ (relocates_primaryWithin levels).weaken

/-! ## Statements -/

/-- The branches of an `if` that have been read, elsewhere. -/
def Branches.moved (f : Pos → Pos) (read : Branches) : Branches :=
  (read.1.map fun b ↦ (b.1.moved f, stmtsMoved f b.2), read.2.map (stmtsMoved f))

section
variable {expr : Parser Expr} {block : Parser (List Stmt)}
  (hexpr : ∀ t, Relocates r t 0 (Expr.moved r.place) expr expr)
include hexpr

theorem relocates_varStmt {t₀ : Token} :
    Relocates r (some t₀) 1 (Stmt.moved r.place) (varStmt expr) (varStmt expr) := by
  refine .advance fun _ ↦ relocates_name.bind (m := 1) fun x _ ↦
    .ifSees nofun (fun _ ↦ ?_) (.ifSees nofun (fun _ ↦ ?_) .unexpected)
  · exact .advance fun _ ↦ (hexpr _).bind fun _ _ ↦ .pure rfl
  · refine .advance fun _ ↦ relocates_typeRef.bind (m := 0) fun type _ ↦
      .ifSees nofun (fun _ ↦ ?_) ?_
    · exact .weaken (.advance fun _ ↦ (hexpr _).bind fun _ _ ↦ .pure rfl)
    · exact .pure rfl

theorem relocates_nameStmt :
    Relocates r t 1 (Stmt.moved r.place) (nameStmt expr) (nameStmt expr) := by
  refine relocates_name.bind (m := 0) fun x _ ↦ .ifSees nofun (fun _ ↦ ?_) ?_
  · exact .weaken ((relocates_arguments hexpr).bind fun _ _ ↦ .pure rfl)
  · exact (relocates_pathFrom hexpr).bind fun _ _ ↦ relocates_expectPunct.bind fun _ _ ↦
      (hexpr _).bind fun _ _ ↦ .pure rfl

variable (hblock : ∀ t, Relocates r t 0 (stmtsMoved r.place) block block)
include hblock

theorem relocates_whileStmt {t₀ : Token} :
    Relocates r (some t₀) 1 (Stmt.moved r.place) (whileStmt expr block) (whileStmt expr block) :=
  .advance fun _ ↦ (hexpr _).bind fun _ _ ↦ (hblock _).bind fun _ _ ↦ .pure rfl

theorem relocates_forStmt {t₀ : Token} :
    Relocates r (some t₀) 1 (Stmt.moved r.place) (forStmt expr block) (forStmt expr block) := by
  have hkeyword : ∀ k t, Relocates r t 1 r.place (expect (.keyword k)) (expect (.keyword k)) :=
    fun k _ ↦ relocates_expect nofun
  exact .advance fun _ ↦ relocates_name.bind fun _ _ ↦ (hkeyword _ _).bind fun _ _ ↦
    (hexpr _).bind fun _ _ ↦ (hkeyword _ _).bind fun _ _ ↦ (hexpr _).bind fun _ _ ↦
    (hblock _).bind fun _ _ ↦ .pure rfl

theorem relocates_elseBranch {t₀ : Token} {read : Branches} :
    Relocates r (some t₀) 1 (Branches.moved r.place) (elseBranch expr block read)
      (elseBranch expr block (read.moved r.place)) := by
  refine .advance (m := 0) fun _ ↦
    .ifSees nofun (fun _ ↦ ?_) (.ifSees nofun (fun _ ↦ ?_) .unexpected)
  · exact (hblock _).bind fun _ _ ↦ .pure rfl
  · exact .weaken (.advance fun _ ↦ (hexpr _).bind fun _ _ ↦ (hblock _).bind fun _ _ ↦ .pure rfl)

theorem relocates_ifStmt {t₀ : Token} :
    Relocates r (some t₀) 1 (Stmt.moved r.place) (ifStmt expr block) (ifStmt expr block) := by
  refine .advance fun _ ↦ (hexpr _).bind fun cond _ ↦ (hblock _).bind fun body _ ↦
    .bind (m := 0) (.loop (g := Branches.moved r.place) rfl ?_ (fun _ ↦ rfl) ?_) fun others _ ↦ ?_
  · intro read t
    rw [Branches.moved, Option.isNone_map]
  · intro read t helse
    obtain rfl := of_decide_eq_true (Bool.and_eq_true_iff.mp helse).2
    exact relocates_elseBranch hexpr hblock
  · refine .pure ?_
    rw [Stmt.moved, Else.moved_ofBranches, List.map_reverse]
    rfl

theorem relocates_stmt :
    Relocates r t 1 (Stmt.moved r.place) (stmt expr block) (stmt expr block) := by
  refine .peek rfl ?_
  split
  · exact relocates_varStmt hexpr
  · exact relocates_whileStmt hexpr hblock
  · exact relocates_ifStmt hexpr hblock
  · exact relocates_forStmt hexpr hblock
  · exact .here_some fun _ ↦ .advance fun _ ↦ (hexpr _).bind fun _ _ ↦ .pure rfl
  · exact relocates_nameStmt hexpr
  · exact .unexpected

end

theorem relocates_braced {stmt : Parser Stmt}
    (hstmt : ∀ t, Relocates r t 1 (Stmt.moved r.place) stmt stmt) :
    Relocates r t 1 (stmtsMoved r.place) (braced stmt) (braced stmt) := by
  refine relocates_expectPunct.bind fun _ _ ↦
    .bind (m := 1) (.loop (g := stmtsMoved r.place) rfl (fun _ _ ↦ rfl) (fun _ ↦ rfl) ?_)
      fun stmts _ ↦ ?_
  · intro stmts t _
    refine .peek rfl ?_
    split
    · exact .unexpected
    · exact (hstmt t).bind fun _ _ ↦ .pure rfl
  · refine relocates_expectPunct.bind fun _ _ ↦ .pure ?_
    rw [stmtsMoved_eq, stmtsMoved_eq, List.map_reverse]

theorem relocates_blockWithin (levels : Nat) :
    Relocates r t 1 (stmtsMoved r.place) (blockWithin levels) (blockWithin levels) := by
  induction levels generalizing t with
  | zero => exact .fail
  | succ levels ih =>
    exact relocates_braced fun _ ↦
      relocates_stmt (fun _ ↦ relocates_exprWithin levels) fun _ ↦ ih.weaken

/-! ## Definitions -/

theorem relocates_structDef {t₀ : Token} :
    Relocates r (some t₀) 1 (StructDef.moved r.place) structDef structDef :=
  .advance fun _ ↦ relocates_name.bind fun _ _ ↦ relocates_expectPunct.bind fun _ _ ↦
    (relocates_commaList fun _ ↦ relocates_varDef.weaken).bind fun _ _ ↦ .pure rfl

/-- What was expected instead of a return type. -/
def definitionWanted : ParseFault → ParseFault
  | .unexpected _ found => .unexpected .definition found
  | .nestingTooDeep => .nestingTooDeep

theorem relocates_returnType :
    Relocates r t 1 (TypeRef.moved r.place) returnType returnType := by
  refine .ifSees nofun (fun _ ↦ ?_) ?_
  · have hvoid : Relocates r (some (.keyword .voidKw)) 1 r.place (expect (.keyword .voidKw))
        (expect (.keyword .voidKw)) := relocates_expect nofun
    exact hvoid.bind fun _ _ ↦ .pure rfl
  · refine .tryCatch definitionWanted ?_ ?_ relocates_typeRef
    · rintro ⟨pos, _ | _⟩ <;> rfl
    · rintro (_ | _) <;> rfl

theorem relocates_funDef : Relocates r t 1 (FunDef.moved r.place) funDef funDef :=
  relocates_returnType.bind fun _ _ ↦ relocates_name.bind fun _ _ ↦
    relocates_expectPunct.bind fun _ _ ↦
    (relocates_commaList fun _ ↦ relocates_varDef.weaken).bind fun _ _ ↦
    (relocates_blockWithin maxNesting).bind fun _ _ ↦ .pure rfl

theorem relocates_program : Relocates r t 0 (Program.moved r.place) program program := by
  refine .bind (m := 0) (.loop (g := Prod.map (List.map (StructDef.moved r.place))
    (List.map (FunDef.moved r.place))) rfl (fun _ _ ↦ rfl) (fun _ ↦ rfl) ?_) fun read _ ↦ ?_
  · intro read t _
    refine .ifSees nofun (fun _ ↦ ?_) ?_
    · exact relocates_structDef.bind fun _ _ ↦ .pure rfl
    · exact relocates_funDef.bind fun _ _ ↦ .pure rfl
  · refine .pure ?_
    rw [Program.moved, List.map_reverse, List.map_reverse]
    rfl

end

end Parser

/-! ## Whole programs -/

/-- Relocated tokens have the same program, elsewhere, or the same failure. If there are no tokens
at all, then the place of a failure is not that of a token, and must be kept for its own sake. -/
theorem Relocation.parse_cases (r : Relocation) {ls ls' : List Lexeme}
    (hls : dropComments ls' = (dropComments ls).map (Lexeme.moved r.place) ++ r.tail)
    (hstart : dropComments ls = [] → r.tail = [] → r.place .start = .start) :
    (∃ p, parse ls = .ok p ∧ parse ls' = .ok (p.moved r.place)) ∨
      ∃ e e', parse ls = .error e ∧ parse ls' = .error e' ∧ e'.fault.settled = e.fault.settled ∧
        (r.tail = [] → e' = e.moved r.place) := by
  have hbegin : r.Corresponds (.ofLexemes (dropComments ls)) (.ofLexemes (dropComments ls')) :=
    ⟨hls, fun hnil htail ↦ (hstart hnil htail).symm⟩
  have hrun := Parser.relocates_program _ _ hbegin rfl
  rw [parse, parse]
  generalize Parser.program.run (.ofLexemes (dropComments ls)) = o at hrun
  generalize Parser.program.run (.ofLexemes (dropComments ls')) = o' at hrun
  cases hrun with
  | ok p => exact .inl ⟨p, rfl, rfl⟩
  | error hfault hexact => exact .inr ⟨_, _, rfl, rfl, hfault, hexact⟩

/-- A failure is reported at one of the tokens. -/
theorem exists_mem_of_parse_eq_error {ls : List Lexeme} {e : ParseError}
    (h : parse ls = .error e) : ∃ l ∈ dropComments ls, l.pos = e.pos := by
  by_contra hnone
  -- move every place that is not a token's, and with it the failure, while no token moves
  let r : Relocation :=
    { place := fun p ↦ if p ∈ (dropComments ls).map (·.pos) then p else ⟨p.line + 1, p.col⟩
      tail := []
      tail_ends := rfl }
  have hkept : (dropComments ls).map (Lexeme.moved r.place) = dropComments ls := by
    refine (List.map_congr_left fun l hl ↦ ?_).trans (List.map_id _)
    have hplace : r.place l.pos = l.pos := if_pos (List.mem_map_of_mem hl)
    rw [Lexeme.moved, hplace]
    rfl
  have hne : dropComments ls ≠ [] := by
    intro hnil
    rw [parse, hnil] at h
    cases h
  have hmoved : e = e.moved r.place := by
    rcases r.parse_cases (by rw [hkept, List.append_nil]) fun hnil ↦ absurd hnil hne with
      ⟨p, hp, -⟩ | ⟨e₁, e₂, h₁, h₂, -, hexact⟩
    · rw [h] at hp
      cases hp
    · rw [h] at h₁ h₂
      cases h₁
      cases h₂
      exact hexact rfl
  have hplace : e.pos = if e.pos ∈ (dropComments ls).map (·.pos) then e.pos
      else ⟨e.pos.line + 1, e.pos.col⟩ := congrArg ParseError.pos hmoved
  rw [if_neg fun hmem ↦ hnone (List.mem_map.mp hmem)] at hplace
  exact absurd (congrArg Pos.line hplace) (Nat.ne_of_lt (Nat.lt_succ_self _))

/-- **The end mark is optional.** With an end mark behind its tokens a program is the same program,
and where the tokens are no program the message stays the same. Only the place of the failure may
change; it is always that of a token. -/
theorem parse_endMark_optional (ls : List Lexeme) (pos : Pos) :
    (∃ p, parse ls = .ok p ∧ parse (ls ++ [⟨.eof, pos⟩]) = .ok p) ∨
      ∃ e e', parse ls = .error e ∧ parse (ls ++ [⟨.eof, pos⟩]) = .error e' ∧
        e'.fault.message = e.fault.message ∧ (∃ l ∈ dropComments ls, l.pos = e.pos) ∧
        ∃ l ∈ dropComments (ls ++ [⟨.eof, pos⟩]), l.pos = e'.pos := by
  let r : Relocation := ⟨id, [⟨.eof, pos⟩], rfl⟩
  have htokens : dropComments (ls ++ [⟨.eof, pos⟩]) =
      (dropComments ls).map (Lexeme.moved r.place) ++ r.tail := by
    have hsame : (dropComments ls).map (Lexeme.moved r.place) = dropComments ls := List.map_id _
    rw [hsame, dropComments, List.filter_append]
    rfl
  rcases r.parse_cases htokens fun _ ↦ nofun with ⟨p, hp, hp'⟩ | ⟨e, e', he, he', hfault, -⟩
  · exact .inl ⟨p, hp, p.moved_id ▸ hp'⟩
  · refine .inr ⟨e, e', he, he', ?_, exists_mem_of_parse_eq_error he,
      exists_mem_of_parse_eq_error he'⟩
    rw [← e'.fault.message_settled, hfault, e.fault.message_settled]

end Pebble
