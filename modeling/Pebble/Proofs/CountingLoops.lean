import Mathlib.Data.List.Iterate
import Pebble.Proofs.Assignments
import Pebble.Proofs.Placement

/-!
# Counting loops

The code of `for x from a to b` runs the body once for each value from the first to the last, in
order, and then goes on behind the loop. The body must not assign `x`, and it must come to its end
each time; the last value is computed anew before each round and must be the same each time.

## The largest last value

The test comes before the body and the counting after it, so behind the last round the variable has
been counted once more. If the last value is the largest there is, counting wraps around to the
smallest, the test holds again, and there is no last round: the loop never ends.

## The construction

What the parts of a loop do is told on its tree (`Yields`, `Completes`); that the code does the same
is known for each part. One round leads from the test to the test again (`CountingLoop.Round`), and
an induction on the number of rounds puts them together, with the invariant that the scope of the
loop holds its variable and nothing else.
-/

namespace Pebble

/-! ## What the parts of a loop do -/

section
variable (p : Program) (env : Env)

/-- With enough fuel, the value of an expression is `v`. -/
def Yields (e : Expr) (w : World) (v : Value) (w' : World) : Prop :=
  ∃ fuel, (e.eval p (p.call fuel) env).run w = some (.ok v w')

/-- With enough fuel, statements in a scope of their own come to their end. -/
def Completes (body : List Stmt) (w : World) (env' : Env) (w' : World) : Prop :=
  ∃ fuel, (inScope (execBlock p (p.call fuel) fuel · body) env).run w = some (.ok (.next env') w')

/-- With enough fuel, the test of a counting loop answers `b`. -/
def Tests (x : String) (last : Expr) (w : World) (b : Bool) (w' : World) : Prop :=
  ∃ fuel, (evalWithin p (p.call fuel) env x last).run w = some (.ok b w')

end

/-- The variables and the world at each test of a counting loop that begins with `env` and `w`. -/
inductive AtTest (p : Program) (x : String) (last : Expr) (body : List Stmt) (env : Env)
    (w : World) : Env → World → Prop where
  | first : AtTest p x last body env w env w
  | next {env₁ env₂ env₃ : Env} {w₁ w₂ w₃ w₄ : World} (h : AtTest p x last body env w env₁ w₁)
      (htest : Tests p env₁ x last w₁ true w₂) (hbody : Completes p env₁ body w₂ env₂ w₃)
      (hcount : (countUp x env₂).run w₃ = some (.ok (.next env₃) w₄)) :
      AtTest p x last body env w env₃ w₄

theorem Yields.tests {p : Program} {env : Env} {last : Expr} {x : String} {v hi : Int32}
    {w w' : World} (h : Yields p env last w (.int hi) w') (hx : env.lookup x = .int v) :
    Tests p env x last w (decide (v ≤ hi)) w' := by
  obtain ⟨fuel, hrun⟩ := h
  refine ⟨fuel, ?_⟩
  rw [evalWithin, Eval.run_bind, hrun, hx]
  rfl

theorem lookup_only (x : String) (v : Value) (outer : Env) :
    Env.lookup ([(x, v)] :: outer) x = v := by
  rw [Env.lookup, List.findSome?_cons, List.lookup_cons_self]
  rfl

theorem set_only (x : String) (v u : Value) (outer : Env) :
    Env.set x u ([(x, v)] :: outer) = [(x, u)] :: outer := by
  rw [Env.set, Env.setIn?, if_pos rfl]

theorem countUp_eq (x : String) (v : Int32) (outer : Env) (w : World) :
    (countUp x ([(x, .int v)] :: outer)).run w =
      some (.ok (.next ([(x, .int (v + 1))] :: outer)) w) := by
  rw [countUp, lookup_only, ← set_only x (.int v) (.int (v + 1))]
  rfl

/-! ## The code of a loop -/

/-- A counting loop whose code stands at index `n`, where the variables of `t` are in scope: its
parts have been checked, and their code stands one behind the other. -/
structure CountingLoop (p : Program) (template : Template) (t : SlotTable) (n : Nat) (var : Name)
    (first last : Expr) (body : List Stmt) where
  a : List Instr
  l : List Instr
  b : List Instr
  first_checked : ∃ s, checkBound p s .first first = .ok ()
  last_checked : ∃ s, checkBound p s .last last = .ok ()
  body_checked : ∃ result s s', checkBlock p result s body = .ok s'
  first_code : first.code p t.push = .ok a
  last_code : last.code p (t.push.declare var.text) = .ok l
  body_code : ∃ t', blockCode p (t.push.declare var.text) (loopBodyAt t n a l) body = .ok (b, t')
  stands : LoopStands template.instrs.toList t n var a l b

/-- The stack of a run that is at index `i` of a function. -/
def Template.stackAt (template : Template) (frs : List Frame) (vs : List Value)
    (slots : Array Value) (i : Nat) : Stack :=
  ⟨⟨template, slots, i⟩ :: frs, vs⟩

/-- The variables of a function at some point of a run, and the world. -/
structure LoopState (t : SlotTable) where
  env : Env
  slots : Array Value
  world : World
  laid : env.LaidOut t slots

namespace CountingLoop

variable {p : Program} {template : Template} {t : SlotTable} {n : Nat} {var : Name}
  {first last : Expr} {body : List Stmt}

section
variable (L : CountingLoop p template t n var first last body)

/-- The index of the test. -/
def test : Nat := testAt n L.a

/-- The index at which the body begins. -/
def entry : Nat := loopBodyAt t n L.a L.l

/-- The index behind the body, where the variable is counted up. -/
def count : Nat := L.entry + L.b.length

/-- The index behind the loop. -/
def exit : Nat := L.entry + L.b.length + 5

end

/-- One round of a loop, in which its variable has the value `v`: the test leads to the body, the
body is carried out once, and the variable is counted up on the way back to the test. -/
inductive Round (L : CountingLoop p template t n var first last body) (frs : List Frame)
    (vs : List Value) (v : Int32) (σ σ' : LoopState (t.push.declare var.text)) : Prop where
  | intro (τ : LoopState (t.push.declare var.text)) (w₁ : World)
      (value : σ.env.lookup var.text = .int v)
      (tests : Reaches p (template.stackAt frs vs σ.slots L.test) σ.world
        (template.stackAt frs vs σ.slots L.entry) w₁)
      (completes : Completes p σ.env body w₁ τ.env τ.world)
      (executes : Reaches p (template.stackAt frs vs σ.slots L.entry) w₁
        (template.stackAt frs vs τ.slots L.count) τ.world)
      (env_eq : σ'.env = τ.env.set var.text (.int (v + 1)))
      (counts : Reaches p (template.stackAt frs vs τ.slots L.count) τ.world
        (template.stackAt frs vs σ'.slots L.test) σ'.world)

/-- Rounds one after the other, with the values of the variable. -/
inductive Rounds (L : CountingLoop p template t n var first last body) (frs : List Frame)
    (vs : List Value) :
    List Int32 → LoopState (t.push.declare var.text) → LoopState (t.push.declare var.text) → Prop
  | nil (σ : LoopState (t.push.declare var.text)) : Rounds L frs vs [] σ σ
  | cons {v : Int32} {us : List Int32} {σ σ₁ σ₂ : LoopState (t.push.declare var.text)}
      (h : L.Round frs vs v σ σ₁) (hs : Rounds L frs vs us σ₁ σ₂) : Rounds L frs vs (v :: us) σ σ₂

/-! ## One round -/

section
variable {σ : LoopState (t.push.declare var.text)} {env : Env} {slots : Array Value} {lo : Int32}
  {b : Bool} {w w' : World}

theorem slotOf_declare (t : SlotTable) (x : Name) : (t.declare x.text).slotOf x = .ok t.next := by
  rw [SlotTable.slotOf, SlotTable.slot?, SlotTable.declare, SlotTable.slotIn?, if_pos rfl]
  rfl

/-- The first value is computed and stored in the slot of the variable. -/
theorem starts (L : CountingLoop p template t n var first last body) (frs : List Frame)
    (vs : List Value) (hp : p.Compiled) (hlaid : env.LaidOut t slots)
    (hfirst : Yields p env first w (.int lo) w') :
    ∃ σ : LoopState (t.push.declare var.text), σ.env = env.enter.declare var.text (.int lo) ∧
      σ.world = w' ∧
      Reaches p (template.stackAt frs vs slots n) w
        (template.stackAt frs vs σ.slots L.test) w' := by
  obtain ⟨fuel, hrun⟩ := hfirst
  obtain ⟨s, hs⟩ := L.first_checked
  simp only [checkBound, bind_eq_ok] at hs
  obtain ⟨ty, hty, -⟩ := hs
  obtain ⟨hcode, hstore⟩ := standsAt_append.mp L.stands.first
  have hpush : env.LaidOut t.push slots := ⟨hlaid.names, hlaid.values⟩
  have henter : env.enter.LaidOut t.push slots := ⟨hlaid.names, hlaid.values⟩
  have hcomputes := first.computes hp (answers_call hp fuel) hpush hty L.first_code
  obtain ⟨s', rfl, hreach⟩ := (hcomputes ⟨template, slots, n⟩ frs vs rfl hcode).reaches hrun
  have hlaid' : (env.enter.declare var.text (.int lo)).LaidOut (t.push.declare var.text)
      ((⟨template, slots, n + L.a.length + 1⟩ : Frame).store t.push.next (.int lo)).slots :=
    henter.add (Env.flatten_declare var.text _ env.enter)
  exact ⟨⟨_, _, w', hlaid'⟩, rfl, rfl,
    hreach.trans (reaches_store (instr_of_standsAt hstore) rfl)⟩

/-- The test leads to the body or out of the loop. -/
theorem tests (L : CountingLoop p template t n var first last body) (frs : List Frame)
    (vs : List Value) (hp : p.Compiled)
    (htest : Tests p σ.env var.text last w b w') :
    Reaches p (template.stackAt frs vs σ.slots L.test) w
      (template.stackAt frs vs σ.slots (if b then L.entry else L.exit)) w' := by
  obtain ⟨fuel, hrun⟩ := htest
  obtain ⟨s, hs⟩ := L.last_checked
  have hdecides := withinDecides hp (answers_call hp fuel) (slotOf_declare t.push var) hs
    L.last_code rfl σ.env σ.slots template frs vs σ.laid L.stands.test
  obtain ⟨s', rfl, hreach⟩ := hdecides.reaches hrun
  rw [List.length_append, List.length_singleton, ← Nat.add_assoc] at hreach
  exact hreach

/-- The body is carried out. -/
theorem executes (L : CountingLoop p template t n var first last body) (frs : List Frame)
    (vs : List Value) (hp : p.Compiled)
    (hbody : Completes p σ.env body w env w') :
    ∃ τ : LoopState (t.push.declare var.text), τ.env = env ∧ τ.world = w' ∧
      Reaches p (template.stackAt frs vs σ.slots L.entry) w
        (template.stackAt frs vs τ.slots L.count) w' := by
  obtain ⟨fuel, hrun⟩ := hbody
  obtain ⟨result, s, s', hs⟩ := L.body_checked
  obtain ⟨t', hcode⟩ := L.body_code
  have hcarries := (blockCarriesOut hp (answers_call hp fuel) fuel body hs hcode).inScope
    (t := t.push.declare var.text) rfl σ.env σ.slots template frs vs σ.laid L.stands.body
  obtain ⟨_, ⟨slots', rfl, hlaid, -⟩, hreach⟩ := hcarries.reaches hrun
  exact ⟨⟨env, slots', w', hlaid⟩, rfl, rfl, hreach⟩

/-- The variable is counted up, and the test comes next. -/
theorem counts (L : CountingLoop p template t n var first last body) (frs : List Frame)
    (vs : List Value) (hcount : (countUp var.text σ.env).run w = some (.ok (.next env) w')) :
    ∃ σ' : LoopState (t.push.declare var.text), σ'.env = env ∧ σ'.world = w' ∧
      Reaches p (template.stackAt frs vs σ.slots L.count) w
        (template.stackAt frs vs σ'.slots L.test) w' := by
  have hcarries := countCarriesOut (p := p) (slotOf_declare t.push var) (var.text ++ " += 1") σ.env
    σ.slots template frs vs σ.laid L.stands.count
  obtain ⟨_, ⟨slots', rfl, hlaid, -⟩, hreach⟩ := hcarries.reaches hcount
  exact ⟨⟨env, slots', w', hlaid⟩, rfl, rfl,
    hreach.trans (reaches_jump (instr_of_standsAt L.stands.back) rfl)⟩

end

/-! ## All rounds -/

section
variable {env : Env} {w : World} {v hi : Int32} {σ : LoopState (t.push.declare var.text)}

/-- What holds at each test of a loop that began with `env` and `w`: the variable is all there is in
the scope of the loop, and its value is `v`. -/
structure IsAt (p : Program) (last : Expr) (body : List Stmt) (env : Env) (w : World) (v : Int32)
    (σ : LoopState (t.push.declare var.text)) : Prop where
  atTest : AtTest p var.text last body env w σ.env σ.world
  scope : ∃ outer : Env, σ.env = [(var.text, .int v)] :: outer ∧ outer.names = env.names.tail

theorem IsAt.lookup (h : IsAt p last body env w v σ) : σ.env.lookup var.text = .int v := by
  obtain ⟨outer, henv, -⟩ := h.scope
  rw [henv]
  exact lookup_only var.text (.int v) outer

variable (hp : p.Compiled) (hlast : ∀ {env₁ w₁}, AtTest p var.text last body env w env₁ w₁ →
  ∃ w₂, Yields p env₁ last w₁ (.int hi) w₂)

include hp hlast

/-- Once the variable has passed the last value, the loop is left. -/
theorem leaves (L : CountingLoop p template t n var first last body) (frs : List Frame)
    (vs : List Value) (hat : IsAt p last body env w v σ) (hpassed : ¬ v ≤ hi) :
    ∃ w', Reaches p (template.stackAt frs vs σ.slots L.test) σ.world
      (template.stackAt frs vs σ.slots L.exit) w' := by
  obtain ⟨w', hyields⟩ := hlast hat.atTest
  have htest := hyields.tests hat.lookup
  rw [decide_eq_false hpassed] at htest
  exact ⟨w', L.tests frs vs hp htest⟩

variable (hassigns : blockAssigns var.text body = false) (hbody : ∀ {env₁ w₁ w₂},
  AtTest p var.text last body env w env₁ w₁ → Tests p env₁ var.text last w₁ true w₂ →
    ∃ env₂ w₃, Completes p env₁ body w₂ env₂ w₃)

include hassigns hbody

/-- As long as the variable has not passed the last value, there is another round. -/
theorem exists_round (L : CountingLoop p template t n var first last body) (frs : List Frame)
    (vs : List Value) (hat : IsAt p last body env w v σ) (hle : v ≤ hi) :
    ∃ σ', L.Round frs vs v σ σ' ∧ IsAt p last body env w (v + 1) σ' := by
  obtain ⟨w₁, hyields⟩ := hlast hat.atTest
  have htest := hyields.tests hat.lookup
  rw [decide_eq_true hle] at htest
  obtain ⟨env₂, w₂, hcompletes⟩ := hbody hat.atTest htest
  -- The body leaves the variable alone, so it is counted up from the value it had.
  obtain ⟨outer, henv, hnames⟩ := hat.scope
  obtain ⟨outer', rfl, hnames'⟩ : ∃ outer' : Env,
      env₂ = [(var.text, .int v)] :: outer' ∧ outer'.names = outer.names := by
    obtain ⟨fuel, hrun⟩ := hcompletes
    rw [henv] at hrun
    exact loopVariable_keeps hassigns hrun
  have hcount := countUp_eq var.text v outer' w₂
  obtain ⟨τ, hτ, rfl, hexecutes⟩ := L.executes frs vs hp hcompletes
  rw [← hτ] at hcount hcompletes
  obtain ⟨σ', hσ', hworld, hcounts⟩ := L.counts frs vs hcount
  have hentry := L.tests frs vs hp htest
  refine ⟨σ', .intro τ w₁ hat.lookup hentry hcompletes hexecutes ?_ ?_, ?_, outer', hσ', ?_⟩
  · rw [hσ', hτ, set_only]
  · rw [hworld]
    exact hcounts
  · rw [hσ', hworld]
    exact hat.atTest.next htest hcompletes hcount
  · rw [hnames', hnames]

/-- As many rounds as the variable can be counted up without passing the last value. The induction
is on their number. -/
theorem exists_rounds (L : CountingLoop p template t n var first last body) (frs : List Frame)
    (vs : List Value) (k : Nat) (hat : IsAt p last body env w v σ)
    (hle : ∀ u ∈ List.iterate (· + 1) v k, u ≤ hi) :
    ∃ σ', L.Rounds frs vs (List.iterate (· + 1) v k) σ σ' ∧
      IsAt p last body env w ((· + 1)^[k] v) σ' := by
  induction k generalizing v σ with
  | zero => exact ⟨σ, .nil σ, hat⟩
  | succ k ih =>
    obtain ⟨hv, hrest⟩ := List.forall_mem_cons.mp hle
    obtain ⟨σ₁, hround, hat₁⟩ := exists_round hp hlast hassigns hbody L frs vs hat hv
    obtain ⟨σ', hrounds, hat'⟩ := ih hat₁ hrest
    exact ⟨σ', .cons hround hrounds, hat'⟩

end

end CountingLoop

/-! ## Counting with 32 bits -/

section
variable {v : Int32} {k : Nat}

theorem toInt_add_one (h : v.toInt < Int32.maxValue.toInt) : (v + 1).toInt = v.toInt + 1 := by
  have hmin := v.le_toInt
  rw [Int32.toInt_maxValue] at h
  rw [Int32.toInt_add]
  exact Int.bmod_eq_of_le (by simp; omega) (by simp; omega)

theorem toInt_iterate (h : v.toInt + k ≤ Int32.maxValue.toInt) :
    ((· + 1)^[k] v).toInt = v.toInt + k := by
  induction k generalizing v with
  | zero => exact (Int.add_zero _).symm
  | succ k ih =>
    have hone := toInt_add_one (v := v) (by omega)
    rw [Function.iterate_succ_apply, ih (by omega), hone]
    omega

theorem map_toInt_iterate (h : v.toInt + k ≤ Int32.maxValue.toInt + 1) :
    (List.iterate (· + 1) v k).map Int32.toInt = (List.range k).map fun i : Nat ↦ v.toInt + i := by
  rw [← List.range_map_iterate, List.map_map]
  refine List.map_congr_left fun i hrange ↦ ?_
  have hlt := List.mem_range.mp hrange
  exact toInt_iterate (by omega)

variable {lo hi u : Int32}

/-- Counting from `lo` up to `hi` stays within 32 bits. -/
theorem toInt_add_le (hmax : hi.toInt < Int32.maxValue.toInt) :
    lo.toInt + (hi.toInt + 1 - lo.toInt).toNat ≤ Int32.maxValue.toInt + 1 := by
  have hlo := lo.toInt_le
  omega

theorem le_of_mem_iterate (hmax : hi.toInt < Int32.maxValue.toInt)
    (hu : u ∈ List.iterate (· + 1) lo (hi.toInt + 1 - lo.toInt).toNat) : u ≤ hi := by
  have hmem := List.mem_map_of_mem (f := Int32.toInt) hu
  rw [map_toInt_iterate (toInt_add_le hmax)] at hmem
  obtain ⟨i, hrange, hui⟩ := List.mem_map.mp hmem
  have hlt := List.mem_range.mp hrange
  rw [Int32.le_iff_toInt_le]
  omega

/-- Behind the last round the variable is one above the last value, or still at the first one. -/
theorem not_iterate_le (hmax : hi.toInt < Int32.maxValue.toInt) :
    ¬ (· + 1)^[(hi.toInt + 1 - lo.toInt).toNat] lo ≤ hi := by
  have hlo := lo.toInt_le
  rw [Int32.le_iff_toInt_le, toInt_iterate (by omega)]
  omega

end

/-! ## The loops of a program -/

/-- A counting loop of a checked program. -/
theorem Placed.countingLoop {p : Program} {f : FunDef} {template : Template} {t : SlotTable}
    {n : Nat} {var : Name} {first last : Expr} {body rest : List Stmt} (hp : p.Checked)
    (hf : f ∈ p.functions) (ht : f.code p = .ok template)
    (h : Placed p f t n (.stmts (.forLoop var first last body :: rest))) :
    ∃ (L : CountingLoop p template t n var first last body) (c : List Instr),
      (Stmt.forLoop var first last body).code p t n = .ok (c, t) ∧ L.exit = n + c.length := by
  obtain ⟨s, s', c, t', hcheck, hcode, hstands, -⟩ := (h.isGenerated hp hf ht).head
  obtain rfl := Stmt.code_slots _ hcode
  obtain ⟨a, l, b, t₁, ha, hl, hb, hlen, hparts⟩ := Stmt.forLoop_code hcode
  simp only [Stmt.check, bind_eq_ok] at hcheck
  obtain ⟨_, hfirst, _, hlast, s₁, hbody, -⟩ := hcheck
  exact ⟨⟨a, l, b, ⟨_, hfirst⟩, ⟨_, hlast⟩, ⟨_, _, s₁, hbody⟩, ha, hl, ⟨t₁, hb⟩, hparts hstands⟩, c,
    hcode, hlen.symm⟩

/-- **Counting loops.** In a checked program, let the bounds of a loop have the values `lo` and
`hi`, the latter at each test, and let its body come to its end each time without assigning the
variable. Unless `hi` is the largest number, the code of the loop carries out the body once for each
number from `lo` to `hi`, in order, and goes on behind the loop. If `hi` is the largest number,
there is no end to the rounds. -/
theorem forLoop_rounds {p : Program} {ts : List Template} {f : FunDef} {template : Template}
    {t : SlotTable} {n : Nat} {var : Name} {first last : Expr} {body rest : List Stmt} {env : Env}
    {slots : Array Value} {lo hi : Int32} {w w₀ : World} (hcheck : p.check = .ok ())
    (hcode : p.code = .ok ts) (hf : f ∈ p.functions) (ht : f.code p = .ok template)
    (hplaced : Placed p f t n (.stmts (.forLoop var first last body :: rest)))
    (hassigns : blockAssigns var.text body = false) (hlaid : env.LaidOut t slots)
    (hfirst : Yields p env first w (.int lo) w₀)
    (hlast : ∀ {env₁ w₁},
      AtTest p var.text last body (env.enter.declare var.text (.int lo)) w₀ env₁ w₁ →
      ∃ w₂, Yields p env₁ last w₁ (.int hi) w₂)
    (hbody : ∀ {env₁ w₁ w₂},
      AtTest p var.text last body (env.enter.declare var.text (.int lo)) w₀ env₁ w₁ →
      Tests p env₁ var.text last w₁ true w₂ → ∃ env₂ w₃, Completes p env₁ body w₂ env₂ w₃)
    (frs : List Frame) (vs : List Value) :
    ∃ (L : CountingLoop p template t n var first last body) (c : List Instr)
      (σ₀ : LoopState (t.push.declare var.text)),
      (Stmt.forLoop var first last body).code p t n = .ok (c, t) ∧
      Reaches p (template.stackAt frs vs slots n) w (template.stackAt frs vs σ₀.slots L.test) w₀ ∧
      σ₀.env = env.enter.declare var.text (.int lo) ∧ σ₀.world = w₀ ∧
      (hi < Int32.maxValue → ∃ us σ w',
        us.map Int32.toInt =
          (List.range (hi.toInt + 1 - lo.toInt).toNat).map (fun i : Nat ↦ lo.toInt + i) ∧
        L.Rounds frs vs us σ₀ σ ∧
        Reaches p (template.stackAt frs vs σ.slots L.test) σ.world
          (template.stackAt frs vs σ.slots (n + c.length)) w' ∧
        σ.env.leave.LaidOut t σ.slots) ∧
      (hi = Int32.maxValue → ∀ k, ∃ σ, L.Rounds frs vs (List.iterate (· + 1) lo k) σ₀ σ) := by
  have hchecked := Program.checked_of_check hcheck
  have hp := hchecked.compiled hcode
  obtain ⟨L, c, hc, hexit⟩ := hplaced.countingLoop hchecked hf ht
  obtain ⟨σ₀, henv, hworld, hstart⟩ := L.starts frs vs hp hlaid hfirst
  have hat : CountingLoop.IsAt p last body (env.enter.declare var.text (.int lo)) w₀ lo σ₀ := by
    refine ⟨?_, env, henv, rfl⟩
    rw [henv, hworld]
    exact .first
  refine ⟨L, c, σ₀, hc, hstart, henv, hworld, fun hlt ↦ ?_, fun heq k ↦ ?_⟩
  · have hmax : hi.toInt < Int32.maxValue.toInt := Int32.lt_iff_toInt_lt.mp hlt
    obtain ⟨σ, hrounds, hat'⟩ := CountingLoop.exists_rounds hp hlast hassigns hbody L frs vs _ hat
      fun u hu ↦ le_of_mem_iterate hmax hu
    obtain ⟨w', hleaves⟩ := CountingLoop.leaves hp hlast L frs vs hat' (not_iterate_le hmax)
    rw [hexit] at hleaves
    obtain ⟨outer, houter, hnames⟩ := hat'.scope
    refine ⟨_, σ, w', map_toInt_iterate (toInt_add_le hmax), hrounds, hleaves,
      σ.laid.leave ?_ hlaid.names⟩
    rw [houter]
    exact hnames
  · have hle : ∀ u ∈ List.iterate (· + 1) lo k, u ≤ hi := fun u _ ↦ heq ▸ u.le_maxValue
    obtain ⟨σ, hrounds, -⟩ :=
      CountingLoop.exists_rounds hp hlast hassigns hbody L frs vs k hat hle
    exact ⟨σ, hrounds⟩

/-- A body that declares and assigns a variable of its own with the name of the loop's variable:
`if true { var i = 7 i = 0 } print(i)`. -/
def shadowingBody : List Stmt :=
  [.ifElse (.lit (.bool true) .start)
      [.var ⟨"i", .start⟩ none (some (.lit (.int 7) .start)),
        .assign (.root ⟨"i", .start⟩ none) (.lit (.int 0) .start)] .none,
    .call ⟨"print", .start⟩ [.path (.root ⟨"i", .start⟩ none)]]

/-- A function whose only statement is a loop with this body: `for i from 1 to 3`. -/
def shadowingMain : FunDef where
  name := ⟨"main", .start⟩
  returnType := ⟨.void, false, .start⟩
  params := []
  body := [.forLoop ⟨"i", .start⟩ (.lit (.int 1) .start) (.lit (.int 3) .start) shadowingBody]

/-- There are three rounds. -/
theorem forLoop_rounds_shadowing :
    ∃ (p : Program) (ts : List Template) (template : Template)
      (L : CountingLoop p template SlotTable.empty.push 0 ⟨"i", .start⟩ (.lit (.int 1) .start)
        (.lit (.int 3) .start) shadowingBody)
      (c : List Instr) (us : List Int32) (σ₀ σ : LoopState (SlotTable.empty.push.push.declare "i"))
      (w' : World),
      p = ⟨[], [shadowingMain]⟩ ∧ p.check = .ok () ∧ p.code = .ok ts ∧
      Reaches p (template.stackAt [] [] #[] 0) ⟨.empty, [], ""⟩
        (template.stackAt [] [] σ₀.slots L.test) ⟨.empty, [], ""⟩ ∧
      us.map Int32.toInt = [1, 2, 3] ∧ L.Rounds [] [] us σ₀ σ ∧
      Reaches p (template.stackAt [] [] σ.slots L.test) σ.world
        (template.stackAt [] [] σ.slots (0 + c.length)) w' := by
  obtain ⟨_, hcheck⟩ := eq_ok_of_isOk
    (show (Program.check ⟨[], [shadowingMain]⟩).isOk = true by decide +kernel)
  obtain ⟨ts, hcode⟩ := eq_ok_of_isOk
    (show (Program.code ⟨[], [shadowingMain]⟩).isOk = true by decide +kernel)
  obtain ⟨template, ht⟩ := eq_ok_of_isOk
    (show (shadowingMain.code ⟨[], [shadowingMain]⟩).isOk = true by decide +kernel)
  have hplaced : Placed ⟨[], [shadowingMain]⟩ shadowingMain SlotTable.empty.push 0
      (.stmts shadowingMain.body) := .body rfl
  have hlaid : Env.LaidOut [[]] SlotTable.empty.push #[] := ⟨rfl, fun k v hk ↦ by cases hk⟩
  have hfirst : Yields ⟨[], [shadowingMain]⟩ [[]] (.lit (.int 1) .start) ⟨.empty, [], ""⟩ (.int 1)
      ⟨.empty, [], ""⟩ := ⟨0, rfl⟩
  have hlast : ∀ env w, Yields ⟨[], [shadowingMain]⟩ env (.lit (.int 3) .start) w (.int 3) w :=
    fun _ _ ↦ ⟨0, rfl⟩
  obtain ⟨L, c, σ₀, -, hstart, -, -, hrounds, -⟩ := forLoop_rounds hcheck hcode List.mem_cons_self
    ht hplaced (by decide) hlaid hfirst (fun _ ↦ ⟨_, hlast _ _⟩) (fun _ _ ↦ ⟨_, _, 0, rfl⟩) [] []
  obtain ⟨us, σ, w', hus, hrounds, hend, -⟩ := hrounds (by decide)
  exact ⟨_, ts, template, L, c, us, σ₀, σ, w', rfl, hcheck, hcode, hstart, hus, hrounds, hend⟩

/-- The loop from the largest number to itself goes on with the smallest one. -/
theorem forLoop_wraps_around :
    ∃ p ts m, parseSource
        "void main() \x7b for i from 2147483647 to 2147483647 \x7b print(i) \x7d \x7d" = .ok p ∧
      p.check = .ok () ∧ p.code = .ok ts ∧
      (Machine.fresh .standard []).startTemplates ts = (.ok (), m) ∧
      (m.runFor 40).1 = .running ∧ (m.runFor 40).2.output = "2147483647-2147483648-2147483647" := by
  have hok : (parseSource
      "void main() \x7b for i from 2147483647 to 2147483647 \x7b print(i) \x7d \x7d").toOption.any
      (fun p ↦ p.check.isOk && p.code.toOption.any fun ts ↦
        let r := ((Machine.fresh .standard []).startTemplates ts).2.runFor 40
        r.1 = .running && r.2.output = "2147483647-2147483648-2147483647") = true := by
    decide +kernel
  obtain ⟨p, hp, h⟩ := eq_ok_of_any hok
  rw [Bool.and_eq_true] at h
  obtain ⟨hcheck, hcode⟩ := h
  obtain ⟨_, hcheck⟩ := eq_ok_of_isOk hcheck
  obtain ⟨ts, hcode, h⟩ := eq_ok_of_any hcode
  simp only [Bool.and_eq_true, decide_eq_true_eq] at h
  obtain ⟨hrunning, hout⟩ := h
  obtain ⟨m, _, _, -, -, -, -, hstart⟩ :=
    (Program.checked_of_check hcheck).startTemplates hcode .standard []
  rw [hstart] at hrunning hout
  exact ⟨p, ts, _, hp, hcheck, hcode, hstart, hrunning, hout⟩

end Pebble
