import Mathlib.Tactic.Common
import Pebble.Syntax.Parser

/-!
# Readers that count

A reader of tokens can also be taken to be a program with counters: a position among the tokens,
which it only ever moves on, and the depth of nesting, which goes up before a block or a primary
expression is read and down after it. Repetitions go on for as long as their condition holds, and
nothing sees to it that they end: what one of them comes to is what it comes to in some number of
rounds, if there is one.

Such readers are related to those that descend on the rest of the tokens and on the levels of
nesting that are left (`Follows`). Along with the relation goes what they do to their counters: the
position does not leave the tokens, the depth is what it was, and there is an answer or a failure at
all.

## The construction

`Follows d t k q p` is about a counting reader `q` that is run at depth `d` before the token `t`,
and says that it does what `p` does and reads at least `k` tokens if it succeeds. It composes along
`do` blocks. A loop ends because each round reads a token.
-/

namespace Pebble

/-! ## Stations -/

/-- Where a counting reader is. -/
structure Station where
  tokens : List Lexeme
  /-- How many tokens have been passed. -/
  pos : Nat
  /-- Where the last token that was read stands. -/
  last : Option Pos
  /-- How many blocks and primary expressions are open. -/
  depth : Nat
  /-- How many there have been at most. -/
  deepest : Nat

namespace Station

variable {s s' s'' : Station}

/-- Before the first token. -/
def start (ls : List Lexeme) : Station := ⟨ls, 0, none, 0, 0⟩

/-- The next token. -/
def token? (s : Station) : Option Token :=
  s.tokens[s.pos]?.map (·.token)

/-- Where a failure is reported. -/
def place (s : Station) : Pos :=
  ((s.tokens[s.pos]?.map (·.pos)).or s.last).getD .start

/-- One position on, whether there is a token or not. -/
def next (s : Station) : Station :=
  { s with pos := s.pos + 1, last := (s.tokens[s.pos]?.map (·.pos)).or s.last }

/-- One level deeper. -/
def deeper (s : Station) : Station :=
  { s with depth := s.depth + 1, deepest := max s.deepest (s.depth + 1) }

/-- One level up. -/
def higher (s : Station) : Station :=
  { s with depth := s.depth - 1 }

/-- The tokens that are left. -/
def cursor (s : Station) : Cursor := ⟨s.tokens.drop s.pos, s.last⟩

theorem head?_cursor (s : Station) : s.cursor.rest.head? = s.tokens[s.pos]? :=
  List.head?_drop

theorem token?_cursor (s : Station) : s.cursor.token? = s.token? := by
  rw [Cursor.token?, head?_cursor, token?]

theorem pos_cursor (s : Station) : s.cursor.pos = s.place := by
  rw [Cursor.pos, head?_cursor, place]
  cases s.tokens[s.pos]? <;> rfl

theorem lt_length_of_token? {t : Token} (h : s.token? = some t) : s.pos < s.tokens.length := by
  obtain ⟨l, hl, -⟩ := Option.map_eq_some_iff.mp h
  exact (List.getElem?_eq_some_iff.mp hl).1

theorem cursor_next {t : Token} (h : s.token? = some t) : s.next.cursor = s.cursor.next := by
  have hlt := lt_length_of_token? h
  rw [cursor, cursor, Cursor.next, List.drop_eq_getElem_cons hlt, next, List.getElem?_eq_getElem hlt]
  rfl

/-- A reader that was begun at the first station can stop at the second one. -/
structure Settles (s s' : Station) : Prop where
  tokens : s'.tokens = s.tokens
  forward : s.pos ≤ s'.pos
  within : s'.pos ≤ s.tokens.length
  depth : s'.depth = s.depth
  deepest : s'.deepest ≤ max s.deepest maxNesting

theorem Settles.refl (h : s.pos ≤ s.tokens.length) : s.Settles s :=
  ⟨rfl, Nat.le_refl _, h, rfl, Nat.le_max_left _ _⟩

theorem Settles.trans (h : s.Settles s') (h' : s'.Settles s'') : s.Settles s'' := by
  refine ⟨h'.tokens.trans h.tokens, Nat.le_trans h.forward h'.forward, ?_, h'.depth.trans h.depth, ?_⟩
  · rw [← h.tokens]
    exact h'.within
  · have hdeepest := h.deepest
    have hdeepest' := h'.deepest
    omega

theorem Settles.fits (h : s.Settles s') : s'.pos ≤ s'.tokens.length := by
  rw [h.tokens]
  exact h.within

theorem settles_next {t : Token} (h : s.token? = some t) : s.Settles s.next :=
  ⟨rfl, Nat.le_succ _, lt_length_of_token? h, rfl, Nat.le_max_left _ _⟩

/-- Down and up again. -/
theorem Settles.higher (hdepth : s.depth < maxNesting) (h : s.deeper.Settles s') :
    s.Settles s'.higher := by
  refine ⟨h.tokens, h.forward, h.within, ?_, ?_⟩
  · rw [Station.higher, h.depth]
    rfl
  · have hdeepest : s'.deepest ≤ max (max s.deepest (s.depth + 1)) maxNesting := h.deepest
    show s'.deepest ≤ max s.deepest maxNesting
    omega

end Station

/-! ## Counting readers -/

/-- A counting reader. It answers or fails, and in both cases it stops somewhere; or it has no end
at all, which is `none`. -/
abbrev Counting (α : Type) := ExceptT ParseError (StateT Station Option) α

namespace Counting

variable {α β σ : Type}

def peek : Counting (Option Token) := do
  return (← get).token?

def here : Counting Pos := do
  return (← get).place

def advance : Counting Unit :=
  modify Station.next

def fail (f : ParseFault) : Counting α := do
  throw ⟨← here, f⟩

def unexpected (wanted : Expectation) : Counting α := do
  fail (.unexpected wanted (← peek))

def sees (t : Token) : Counting Bool := do
  return (← peek) = some t

def expect (t : Token) : Counting Pos := do
  if ← sees t then
    let pos ← here
    advance
    return pos
  else unexpected (.token t)

def expectPunct (p : Punct) : Counting Unit := do
  let _ ← expect (.punct p)

/-- No end. -/
def endless : Counting α := fun _ ↦ none

/-- Repeats `step` while `more` holds, if that has an end before this many rounds. -/
def loopFor (more : σ → Option Token → Bool) (step : σ → Counting σ) : Nat → σ → Counting σ
  | 0, _ => endless
  | rounds + 1, a => do
    if more a (← peek) then loopFor more step rounds (← step a) else return a

open Classical in
/-- Repeats `step` while `more` holds: what this comes to in any number of rounds. -/
noncomputable def loop (more : σ → Option Token → Bool) (step : σ → Counting σ) (a : σ) :
    Counting σ := fun s ↦
  if h : ∃ r rounds, loopFor more step rounds a s = some r then some h.choose else none

/-- Reads one level deeper, and comes up again whether it has succeeded or failed. -/
def nested (q : Counting α) : Counting α := fun s ↦
  if s.depth < maxNesting then
    (q s.deeper).map fun (r, s') ↦ (r, s'.higher)
  else fail .nestingTooDeep s

theorem bind_apply (q : Counting α) (f : α → Counting β) (s : Station) :
    (q >>= f) s =
      match q s with
      | none => none
      | some (.ok a, s') => f a s'
      | some (.error e, s') => some (.error e, s') := by
  simp only [Bind.bind, ExceptT.bind, ExceptT.mk, StateT.bind]
  cases q s with
  | none => rfl
  | some r => obtain ⟨_ | _, s'⟩ := r <;> rfl

theorem tryCatch_apply (q : Counting α) (handle : ParseError → Counting α) (s : Station) :
    tryCatch q handle s =
      match q s with
      | some (.error e, s') => handle e s'
      | o => o := by
  show ExceptT.tryCatch q handle s = _
  simp only [ExceptT.tryCatch, ExceptT.mk, Bind.bind, StateT.bind]
  cases q s with
  | none => rfl
  | some r => obtain ⟨_ | _, s'⟩ := r <;> rfl

theorem expect_apply (t : Token) (s : Station) :
    expect t s =
      if s.token? = some t then some (.ok s.place, s.next)
      else some (.error ⟨s.place, .unexpected (.token t) s.token?⟩, s) := by
  show (if decide (s.token? = some t) = true then
      (do let pos ← here; advance; return pos : Counting Pos) else unexpected (.token t)) s = _
  by_cases ht : s.token? = some t
  · rw [if_pos ht, if_pos (decide_eq_true ht)]
    rfl
  · rw [if_neg ht, if_neg (by simpa using ht)]
    rfl

section
variable {more : σ → Option Token → Bool} {step : σ → Counting σ} {rounds rounds' : Nat} {a : σ}
  {s : Station} {r r' : Except ParseError σ × Station}

theorem loopFor_succ_apply :
    loopFor more step (rounds + 1) a s =
      (if more a s.token? then step a >>= loopFor more step rounds else pure a) s :=
  rfl

/-- What has come to an end does so in more rounds too. -/
theorem loopFor_of_le (hle : rounds ≤ rounds') (h : loopFor more step rounds a s = some r) :
    loopFor more step rounds' a s = some r := by
  induction rounds generalizing rounds' a s with
  | zero => cases h
  | succ rounds ih =>
    obtain ⟨rounds', rfl⟩ : ∃ k, rounds' = k + 1 := ⟨rounds' - 1, by omega⟩
    rw [loopFor_succ_apply] at h ⊢
    cases hgo : more a s.token? with
    | false =>
      rw [hgo] at h
      exact h
    | true =>
      rw [hgo, if_pos rfl, bind_apply] at h
      rw [if_pos rfl, bind_apply]
      cases hstep : step a s with
      | none =>
        rw [hstep] at h
        cases h
      | some o =>
        rw [hstep] at h
        obtain ⟨_ | a', s'⟩ := o
        · exact h
        · exact ih (by omega) h

theorem loop_apply (h : loopFor more step rounds a s = some r) : loop more step a s = some r := by
  have hends : ∃ r rounds, loopFor more step rounds a s = some r := ⟨r, rounds, h⟩
  obtain ⟨rounds', h'⟩ := hends.choose_spec
  rw [loop, dif_pos hends]
  rcases Nat.le_total rounds rounds' with hle | hle
  · exact h'.symm.trans (loopFor_of_le hle h)
  · exact (loopFor_of_le hle h').symm.trans h

end

/-! ## The two kinds of readers -/

/-- What a counting reader comes to that was begun at `s`, where the other one comes to the first
outcome. A failure is reported where the reader has stopped. -/
inductive Agrees (k : Nat) (s : Station) :
    Except ParseError (α × Cursor) → Option (Except ParseError α × Station) → Prop
  | ok (a : α) {s' : Station} (h : s.Settles s') (hread : s.pos + k ≤ s'.pos) :
      Agrees k s (.ok (a, s'.cursor)) (some (.ok a, s'))
  | error {e : ParseError} {s' : Station} (h : s.Settles s') (hpos : e.pos = s'.place)
      (hfound : ∀ wanted found, e.fault = .unexpected wanted found → found = s'.token?) :
      Agrees k s (.error e) (some (.error e, s'))

theorem Agrees.mono {k j : Nat} {s s' : Station} {o : Except ParseError (α × Cursor)}
    {o' : Option (Except ParseError α × Station)} (h : Agrees k s' o o') (hs : s.Settles s')
    (hread : ∀ n, s'.pos + k ≤ n → s.pos + j ≤ n) : Agrees j s o o' := by
  cases h with
  | ok a hs' hk => exact .ok a (hs.trans hs') (hread _ hk)
  | error hs' hpos hfound => exact .error (hs.trans hs') hpos hfound

theorem Agrees.exists_eq_some {k : Nat} {s : Station} {o : Except ParseError (α × Cursor)}
    {o' : Option (Except ParseError α × Station)} (h : Agrees k s o o') : ∃ r, o' = some r := by
  cases h with
  | ok => exact ⟨_, rfl⟩
  | error => exact ⟨_, rfl⟩

/-- Run at depth `d` before the token `t`, the counting reader does what the other one does, and
reads at least `k` tokens if it succeeds. -/
def Follows (d : Nat) (t : Option Token) (k : Nat) (q : Counting α) (p : Parser α) : Prop :=
  ∀ s : Station, s.pos ≤ s.tokens.length → s.depth = d → s.token? = t →
    Agrees k s (p.run s.cursor) (q s)

namespace Follows

variable {d k j : Nat} {t : Option Token} {q : Counting α} {p : Parser α} {f : α → Counting β}
  {g : α → Parser β}

theorem pure (a : α) : Follows d t 0 (pure a) (pure a) :=
  fun _ hs _ _ ↦ .ok a (.refl hs) (Nat.le_refl _)

theorem bind (hq : Follows d t k q p) (hf : ∀ a t', Follows d t' j (f a) (g a)) :
    Follows d t k (q >>= f) (p >>= g) := by
  intro s hs hd ht
  rw [StateT.run_bind, bind_apply]
  have hrun := hq s hs hd ht
  generalize p.run s.cursor = o at hrun
  generalize q s = o' at hrun
  cases hrun with
  | ok a h hread =>
    exact (hf a _ _ h.fits (h.depth.trans hd) rfl).mono h fun n hn ↦ by omega
  | error h hpos hfound => exact .error h hpos hfound

theorem weaken (hq : Follows d t k q p) : Follows d t 0 q p :=
  fun s hs hd ht ↦ (hq s hs hd ht).mono (.refl hs) fun n hn ↦ by omega

theorem fail {fault : ParseFault} (hfault : ∀ wanted found, fault ≠ .unexpected wanted found) :
    Follows d t k (fail fault : Counting α) (.fail fault) := by
  intro s hs _ _
  have hrun : (Parser.fail fault : Parser α).run s.cursor = .error ⟨s.place, fault⟩ := by
    rw [← s.pos_cursor]
    rfl
  rw [hrun]
  exact .error (.refl hs) rfl fun wanted found h ↦ absurd h (hfault wanted found)

theorem unexpected {wanted : Expectation} :
    Follows d t k (unexpected wanted : Counting α) (.unexpected wanted) := by
  intro s hs _ _
  have hrun : (Parser.unexpected wanted : Parser α).run s.cursor =
      .error ⟨s.place, .unexpected wanted s.token?⟩ := by
    rw [← s.pos_cursor, ← s.token?_cursor]
    rfl
  rw [hrun]
  exact .error (.refl hs) rfl fun wanted' found h ↦ (ParseFault.unexpected.inj h).2.symm

theorem unexpected_bind {wanted : Expectation} :
    Follows d t k (Counting.unexpected wanted >>= f) (Parser.unexpected wanted >>= g) :=
  fun s hs hd ht ↦ unexpected (α := β) s hs hd ht

theorem peek {f : Option Token → Counting β} {g : Option Token → Parser β}
    (h : Follows d t k (f t) (g t)) : Follows d t k (peek >>= f) (Parser.peek >>= g) := by
  intro s hs hd ht
  have hrun := h s hs hd ht
  subst ht
  show Agrees k s ((g s.cursor.token?).run s.cursor) (f s.token? s)
  rw [s.token?_cursor]
  exact hrun

theorem here {f : Pos → Counting β} {g : Pos → Parser β}
    (h : ∀ pos, Follows d t k (f pos) (g pos)) : Follows d t k (here >>= f) (Parser.here >>= g) := by
  intro s hs hd ht
  show Agrees k s ((g s.cursor.pos).run s.cursor) (f s.place s)
  rw [s.pos_cursor]
  exact h s.place s hs hd ht

theorem advance {t₀ : Token} {f : Unit → Counting β} {g : Unit → Parser β}
    (h : ∀ t', Follows d t' j (f ()) (g ())) :
    Follows d (some t₀) 1 (advance >>= f) (Parser.advance >>= g) := by
  intro s hs hd ht
  have hnext := Station.settles_next ht
  show Agrees 1 s ((g ()).run s.cursor.next) (f () s.next)
  rw [← Station.cursor_next ht]
  have hpos : s.next.pos = s.pos + 1 := rfl
  exact (h _ s.next hnext.fits hd rfl).mono hnext fun n hn ↦ by omega

theorem ifSees {t₀ : Token} {x y : Counting β} {x' y' : Parser β}
    (hx : t = some t₀ → Follows d (some t₀) k x x') (hy : t ≠ some t₀ → Follows d t k y y') :
    Follows d t k (sees t₀ >>= fun b ↦ if b = true then x else y)
      (Parser.sees t₀ >>= fun b ↦ if b = true then x' else y') := by
  show Follows d t k (Counting.peek >>= fun t ↦ if decide (t = some t₀) = true then x else y)
    (Parser.peek >>= fun t ↦ if decide (t = some t₀) = true then x' else y')
  refine peek ?_
  by_cases ht : t = some t₀
  · subst ht
    simpa using hx rfl
  · simpa [ht] using hy ht

theorem ite {c : Prop} [Decidable c] {x y : Counting β} {x' y' : Parser β}
    (hx : Follows d t k x x') (hy : Follows d t k y y') :
    Follows d t k (if c then x else y) (if c then x' else y') := by
  split
  · exact hx
  · exact hy

/-- Where the caller has seen a token, looking for it again is to read it. -/
theorem expectSeen {t₀ : Token} {f : Pos → Counting β} {g : Unit → Parser β}
    (h : ∀ pos t', Follows d t' j (f pos) (g ())) :
    Follows d (some t₀) 1 (expect t₀ >>= f) (Parser.advance >>= g) := by
  intro s hs hd ht
  have hadvance := advance (f := fun _ ↦ f s.place) (h s.place) s hs hd ht
  rw [bind_apply, expect_apply, if_pos ht]
  exact hadvance

theorem expectHere {t₀ : Token} {f : Pos → Counting β} {g : Pos → Unit → Parser β}
    (h : ∀ pos t', Follows d t' j (f pos) (g pos ())) :
    Follows d (some t₀) 1 (expect t₀ >>= f) (Parser.here >>= fun pos ↦ Parser.advance >>= g pos) := by
  intro s hs hd ht
  have hadvance := advance (f := fun _ ↦ f s.place) (g := g s.place) (h s.place) s hs hd ht
  rw [bind_apply, expect_apply, if_pos ht]
  show Agrees 1 s ((Parser.advance >>= g s.cursor.pos).run s.cursor) _
  rw [s.pos_cursor]
  exact hadvance

/-- A loop stops after no more rounds than there are tokens left, so it is never cut short. -/
theorem loop {more : σ → Option Token → Bool} {step : σ → Counting σ} {step' : σ → Parser σ}
    (hstep : ∀ a t, more a t = true → Follows d t 1 (step a) (step' a)) (a : σ) :
    Follows d t 0 (loop more step a) (Parser.loop more step' a) := by
  have hrounds : ∀ rounds a (s : Station), s.pos ≤ s.tokens.length → s.depth = d →
      s.tokens.length < s.pos + rounds →
      Agrees 0 s ((Parser.loopFor more step' rounds a).run s.cursor)
        (loopFor more step rounds a s) := by
    -- Each round reads a token, so there stay more rounds than tokens.
    intro rounds
    induction rounds with
    | zero =>
      intro a s hs _ hlt
      omega
    | succ rounds ih =>
      intro a s hs hd hlt
      show Agrees 0 s
        ((if more a s.cursor.token? then step' a >>= Parser.loopFor more step' rounds
          else Pure.pure a).run s.cursor) _
      rw [s.token?_cursor, loopFor_succ_apply]
      cases hgo : more a s.token? with
      | false => exact .ok a (.refl hs) (Nat.le_refl _)
      | true =>
        rw [if_pos rfl, if_pos rfl, StateT.run_bind, bind_apply]
        have hround := hstep a _ hgo s hs hd rfl
        generalize (step' a).run s.cursor = o at hround
        generalize step a s = o' at hround
        cases hround with
        | error h hpos hfound => exact .error h hpos hfound
        | ok a' h hread =>
          have htokens := h.tokens
          exact (ih a' _ h.fits (h.depth.trans hd) (by rw [htokens]; omega)).mono h
            fun n hn ↦ by omega
  intro s hs hd _
  have hlength : s.cursor.rest.length = s.tokens.length - s.pos := List.length_drop
  have hrun := hrounds (s.cursor.rest.length + 1) a s hs hd (by omega)
  obtain ⟨r, hr⟩ := hrun.exists_eq_some
  rw [loop_apply hr, ← hr]
  exact hrun

/-- Another wording of a failure, for which the counting reader looks again at where it has
stopped. -/
theorem reword {wanted : Expectation} {handle : ParseError → Counting α}
    {handle' : ParseError → Parser α}
    (hunexpected : ∀ pos wanted' found,
      handle ⟨pos, .unexpected wanted' found⟩ = Counting.unexpected wanted ∧
      handle' ⟨pos, .unexpected wanted' found⟩ = throw ⟨pos, .unexpected wanted found⟩)
    (hdeep : ∀ pos, handle ⟨pos, .nestingTooDeep⟩ = throw ⟨pos, .nestingTooDeep⟩ ∧
      handle' ⟨pos, .nestingTooDeep⟩ = throw ⟨pos, .nestingTooDeep⟩)
    (hq : Follows d t k q p) : Follows d t k (tryCatch q handle) (tryCatch p handle') := by
  intro s hs hd ht
  rw [tryCatch_apply]
  show Agrees k s (MonadExcept.tryCatch (p.run s.cursor) fun e ↦ (handle' e).run s.cursor) _
  have hrun := hq s hs hd ht
  generalize p.run s.cursor = o at hrun
  generalize q s = o' at hrun
  cases hrun with
  | ok a h hread => exact .ok a h hread
  | @error e s' h hpos hfound =>
    show Agrees k s ((handle' e).run s.cursor) (handle e s')
    obtain ⟨pos, fault⟩ := e
    cases fault with
    | nestingTooDeep =>
      rw [(hdeep pos).1, (hdeep pos).2]
      exact .error h hpos fun _ _ ↦ nofun
    | unexpected wanted' found =>
      rw [(hunexpected pos wanted' found).1, (hunexpected pos wanted' found).2]
      obtain rfl : pos = s'.place := hpos
      obtain rfl : found = s'.token? := hfound wanted' found rfl
      exact .error h rfl fun _ _ hfault ↦ (ParseFault.unexpected.inj hfault).2.symm

theorem nested_of_ge (h : maxNesting ≤ d) :
    Follows d t k (nested q) (.fail .nestingTooDeep) := by
  intro s hs hd ht
  rw [nested, if_neg (by omega)]
  exact fail (fun _ _ ↦ ParseFault.noConfusion) s hs hd ht

theorem nested_of_lt (h : d < maxNesting) (hq : Follows (d + 1) t k q p) :
    Follows d t k (nested q) p := by
  intro s hs hd ht
  have hrun : Agrees k s.deeper (p.run s.cursor) (q s.deeper) :=
    hq s.deeper hs (congrArg (· + 1) hd) ht
  rw [nested, if_pos (by omega)]
  generalize p.run s.cursor = o at hrun
  generalize q s.deeper = o' at hrun
  cases hrun with
  | ok a hs' hread => exact .ok a (hs'.higher (by omega)) hread
  | error hs' hpos hfound => exact .error (hs'.higher (by omega)) hpos hfound

end Follows

end Counting

end Pebble
