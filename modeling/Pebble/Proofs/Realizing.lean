import Pebble.Proofs.Evaluation
import Pebble.Proofs.Starting

/-!
# Runs that realize computations

The machine *realizes* a computation from a stack if it acts on the world as the computation does:
where the computation answers, the machine comes to a stack that goes with the answer, and where
the computation faults, so does the machine.

## Limits

Evaluation knows no limits, so all of this holds unless a limit cuts the run short. A run that is
cut short is one whose limits do not suffice for its number of steps: a step pushes at most one
operand and enters at most one frame. `Goes` carries the exception along, and it is discharged
once, at the end.

## Faults

A tree has no jumps, so faults are compared without the targets of jumps.
-/

namespace Pebble

/-- The frames and the operands of a machine. -/
structure Stack where
  frames : List Frame
  operands : List Value

/-- A machine with a given stack. -/
def Stack.on (s : Stack) (m : Machine) (w : World) (k : Nat) : Machine :=
  m.put s.frames s.operands w k

/-- The limits leave room for `n` more steps after `k` of them. -/
structure Limits.Suffice (l : Limits) (s : Stack) (k n : Nat) : Prop where
  steps : ∀ limit ∈ l.steps, k + n ≤ limit
  operands : s.operands.length + n ≤ l.operands
  callDepth : s.frames.length + n ≤ l.callDepth
  cells : ∀ size : Int32, size.toInt.toNat ≤ l.cells
  memory : ∀ size : Int32, size.toInt.toNat ≤ l.memory

/-- `n` steps lead from one stack to another that is not much larger. -/
structure Stack.Within (s s' : Stack) (n : Nat) : Prop where
  frames : s'.frames.length ≤ s.frames.length + n
  operands : s'.operands.length ≤ s.operands.length + n

theorem Limits.Suffice.mono {l : Limits} {s : Stack} {k n n' : Nat} (h : l.Suffice s k n)
    (hle : n' ≤ n) : l.Suffice s k n' where
  steps limit hlimit := by
    have := h.steps limit hlimit
    omega
  operands := by
    have := h.operands
    omega
  callDepth := by
    have := h.callDepth
    omega
  cells := h.cells
  memory := h.memory

theorem Limits.Suffice.after {l : Limits} {s s' : Stack} {k n n' : Nat}
    (h : l.Suffice s k (n + n')) (hs : s.Within s' n) : l.Suffice s' (k + n) n' where
  steps limit hlimit := by
    have := h.steps limit hlimit
    omega
  operands := by
    have := h.operands
    have := hs.operands
    omega
  callDepth := by
    have := h.callDepth
    have := hs.frames
    omega
  cells := h.cells
  memory := h.memory

namespace Machine

/-- A limit has ended the run within `n` steps. -/
def Cut (m : Machine) (n : Nat) : Prop :=
  ∃ r m', m.runFor n = (.failed r, m') ∧ r.fault.isLimit = true

theorem Cut.mono {m : Machine} {n : Nat} (h : m.Cut n) (n' : Nat) : m.Cut (n + n') := by
  obtain ⟨r, m', hrun, hr⟩ := h
  exact ⟨r, m', runFor_add_of_ended hrun (by simp) n', hr⟩

theorem Cut.after {m m' : Machine} {n n' : Nat} (h : m'.Cut n')
    (hrun : m.runFor n = (.running, m')) : m.Cut (n + n') := by
  obtain ⟨r, m'', hrun', hr⟩ := h
  exact ⟨r, m'', by rw [runFor_add_of_running hrun, hrun'], hr⟩

end Machine

section
variable {p : Program}

/-! ## Going somewhere -/

/-- On every machine with the code of `p`, `n` steps from a stack lead where `Q` says, unless the
limits do not suffice for them. -/
def Goes (p : Program) (s : Stack) (w : World) (n : Nat)
    (Q : Machine → Nat → Status × Machine → Prop) : Prop :=
  ∀ m k, m.Linked p →
    ((s.on m w k).Cut n ∧ ¬ m.limits.Suffice s k n) ∨ Q m (k + n) ((s.on m w k).runFor n)

/-- The machine comes from one stack to another. -/
def Reaches (p : Program) (s : Stack) (w : World) (s' : Stack) (w' : World) : Prop :=
  ∃ n, s.Within s' n ∧ Goes p s w n fun m k r ↦ r = (.running, s'.on m w' k)

/-- The machine comes to a fault. -/
def Fails (p : Program) (s : Stack) (w : World) (e : Fault) (w' : World) : Prop :=
  ∃ n, Goes p s w n fun _ _ r ↦
    ∃ report m', r = (.failed report, m') ∧ report.fault.untargeted = e.untargeted ∧ m'.world = w'

variable {s s' s'' : Stack} {w w' w'' : World} {n n' : Nat}

theorem Goes.trans {Q : Machine → Nat → Status × Machine → Prop} (hs : s.Within s' n)
    (h : Goes p s w n fun m k r ↦ r = (.running, s'.on m w' k)) (h' : Goes p s' w' n' Q) :
    Goes p s w (n + n') Q := by
  intro m k hm
  rcases h m k hm with ⟨hcut, hno⟩ | hrun
  · exact .inl ⟨hcut.mono n', fun hl ↦ hno (hl.mono (Nat.le_add_right _ _))⟩
  · rcases h' m (k + n) hm with ⟨hcut, hno⟩ | hq
    · exact .inl ⟨hcut.after hrun, fun hl ↦ hno (hl.after hs)⟩
    · refine .inr ?_
      rw [Machine.runFor_add_of_running hrun, ← Nat.add_assoc]
      exact hq

theorem Reaches.refl (p : Program) (s : Stack) (w : World) : Reaches p s w s w :=
  ⟨0, ⟨Nat.le_refl _, Nat.le_refl _⟩, fun _ _ _ ↦ .inr rfl⟩

theorem Reaches.trans (h : Reaches p s w s' w') (h' : Reaches p s' w' s'' w'') :
    Reaches p s w s'' w'' := by
  obtain ⟨n, hs, hgoes⟩ := h
  obtain ⟨n', hs', hgoes'⟩ := h'
  refine ⟨n + n', ⟨?_, ?_⟩, hgoes.trans hs hgoes'⟩
  · have := hs.frames
    have := hs'.frames
    omega
  · have := hs.operands
    have := hs'.operands
    omega

theorem Reaches.fails {e : Fault} (h : Reaches p s w s' w') (h' : Fails p s' w' e w'') :
    Fails p s w e w'' := by
  obtain ⟨n, hs, hgoes⟩ := h
  obtain ⟨n', hgoes'⟩ := h'
  exact ⟨n + n', hgoes.trans hs hgoes'⟩

/-! ## Realizing a computation -/

variable {α β : Type}

/-- From a stack the machine does what a computation does, and ends up at a stack that `post`
admits for the answer. -/
def Realizes (p : Program) (s : Stack) (x : Eval α) (post : α → Stack → Prop) : Prop :=
  ∀ w, match x.run w with
    | none => True
    | some (.ok a w') => ∃ s', post a s' ∧ Reaches p s w s' w'
    | some (.error e w') => Fails p s w e w'

namespace Realizes

variable {x : Eval α} {post : α → Stack → Prop}

theorem pure {a : α} (h : post a s) : Realizes p s (Pure.pure a) post :=
  fun w ↦ ⟨s, h, Reaches.refl p s w⟩

theorem exhausted : Realizes p s .exhausted post := fun _ ↦ trivial

/-- Where the computation answers, the machine comes to a stack for the answer. -/
theorem reaches {a : α} (hx : Realizes p s x post) (hrun : x.run w = some (.ok a w')) :
    ∃ s', post a s' ∧ Reaches p s w s' w' := by
  have h := hx w
  rw [hrun] at h
  exact h

/-- First the machine comes to another stack. -/
theorem after (hs : ∀ w, Reaches p s w s' w) (hx : Realizes p s' x post) :
    Realizes p s x post := by
  intro w
  have h := hx w
  cases hr : x.run w with
  | none => trivial
  | some r =>
    rw [hr] at h
    cases r with
    | ok a w' =>
      obtain ⟨s'', hpost, hreach⟩ := h
      exact ⟨s'', hpost, (hs w).trans hreach⟩
    | error e w' => exact (hs w).fails h

/-- One computation after the other. -/
theorem bind {f : α → Eval β} {mid : α → Stack → Prop} {post : β → Stack → Prop}
    (hx : Realizes p s x mid) (hf : ∀ a s', mid a s' → Realizes p s' (f a) post) :
    Realizes p s (x >>= f) post := by
  intro w
  have h := hx w
  rw [Eval.run_bind]
  cases hr : x.run w with
  | none => trivial
  | some r =>
    rw [hr] at h
    cases r with
    | error e w' => exact h
    | ok a w' =>
      obtain ⟨s', hmid, hreach⟩ := h
      have h' := hf a s' hmid w'
      simp only
      cases hr' : (f a).run w' with
      | none => trivial
      | some r' =>
        rw [hr'] at h'
        cases r' with
        | ok b w'' =>
          obtain ⟨s'', hpost, hreach'⟩ := h'
          exact ⟨s'', hpost, hreach.trans hreach'⟩
        | error e w'' => exact hreach.fails h'

/-- From the stack for an answer the machine goes on to another one, which `post'` admits for it. -/
theorem goesOn {post' : α → Stack → Prop} (hx : Realizes p s x post)
    (h : ∀ w a w' s', x.run w = some (.ok a w') → post a s' →
      ∃ s'', post' a s'' ∧ Reaches p s' w' s'' w') : Realizes p s x post' := by
  intro w
  have hw := hx w
  cases hr : x.run w with
  | none => trivial
  | some r =>
    rw [hr] at hw
    cases r with
    | ok a w' =>
      obtain ⟨s', hpost, hreach⟩ := hw
      obtain ⟨s'', hpost', hreach'⟩ := h w a w' s' hr hpost
      exact ⟨s'', hpost', hreach.trans hreach'⟩
    | error e w' => exact hw

/-- At last the machine goes on to another stack. -/
theorem thenReach {post' : α → Stack → Prop} (hx : Realizes p s x post)
    (h : ∀ a s', post a s' → ∃ s'', post' a s'' ∧ ∀ w, Reaches p s' w s'' w) :
    Realizes p s x post' := by
  refine hx.goesOn fun _ a w' s' _ hpost ↦ ?_
  obtain ⟨s'', hpost', hreach⟩ := h a s' hpost
  exact ⟨s'', hpost', hreach w'⟩

/-- What is known about the answers holds of the answer. -/
theorem yielding {P : α → Prop} (hx : Realizes p s x post)
    (hP : ∀ w a w', x.run w = some (.ok a w') → P a) :
    Realizes p s x fun a s' ↦ P a ∧ post a s' :=
  hx.goesOn fun w a w' s' hrun hpost ↦ ⟨s', ⟨hP w a w' hrun, hpost⟩, .refl p s' w'⟩

end Realizes

/-! ## One instruction -/

variable {fr : Frame} {frs : List Frame} {vs args : List Value} {i : Instr}

/-- What executing an instruction at a stack comes to, if the step is to end as `Q` says. -/
def Executes (m : Machine) (s : Stack) (site : Site) (Q : Status × Machine → Prop) :
    EStateM.Result Fault Machine Unit → Prop
  | .ok _ m' =>
    m'.limits = m.limits ∧ m'.operands.length ≤ s.operands.length + 1 ∧ Q (.running, m')
  | .error e m' =>
    (e.isLimit = true ∧ ∀ k, ¬ m.limits.Suffice s k 1) ∨ Q (.failed ⟨e, some site⟩, m')

/-- A step counts itself, executes the instruction and counts the operands. -/
theorem goes_step {Q : Machine → Nat → Status × Machine → Prop}
    (hi : fr.template.instrs[fr.pc]? = some i)
    (h : ∀ m k, m.Linked p → Executes m ⟨fr :: frs, vs⟩ (Machine.siteOf fr i) (Q m k)
      (i.op.exec (m.put (Machine.past fr :: frs) vs w k))) :
    Goes p ⟨fr :: frs, vs⟩ w 1 Q := by
  intro m k hm
  have hstep : (m.put (fr :: frs) vs w k).step = _ := Machine.step_put hm.untraced hi
  have hexec := h m (k + 1) hm
  simp only [Stack.on, Machine.Cut, Machine.runFor_succ 0]
  -- A limit that stops the step does not suffice for it.
  cases hlimit : m.limits.steps.filter (· ≤ k) with
  | some limit =>
    rw [hlimit] at hstep
    obtain ⟨hmem, hle⟩ := Option.filter_eq_some_iff.mp hlimit
    refine .inl ⟨⟨_, _, by rw [hstep], rfl⟩, fun hl ↦ ?_⟩
    have := hl.steps limit hmem
    have : limit ≤ k := by simpa using hle
    omega
  | none =>
    rw [hlimit] at hstep
    cases hr : i.op.exec (m.put (Machine.past fr :: frs) vs w (k + 1)) with
    | error e m' =>
      rw [hr] at hexec hstep
      rcases hexec with ⟨he, hno⟩ | hq
      · exact .inl ⟨⟨_, _, by rw [hstep], he⟩, hno k⟩
      · exact .inr (by rw [hstep]; exact hq)
    | ok u m' =>
      rw [hr] at hexec hstep
      obtain ⟨hlimits, hlen, hq⟩ := hexec
      by_cases hover : m'.limits.operands < m'.operands.length
      · simp only [if_pos hover] at hstep
        refine .inl ⟨⟨_, _, by rw [hstep], rfl⟩, fun hl ↦ ?_⟩
        have := hl.operands
        rw [hlimits] at hover
        simp only at hlen this
        omega
      · simp only [if_neg hover] at hstep
        exact .inr (by rw [hstep]; exact hq)

/-- An instruction that always succeeds. -/
theorem reaches_step {frs' : List Frame} {vs' : List Value}
    (hi : fr.template.instrs[fr.pc]? = some i)
    (hs : Stack.Within ⟨fr :: frs, vs⟩ ⟨frs', vs'⟩ 1)
    (h : ∀ (m : Machine) (k : Nat), m.Linked p →
      i.op.exec (m.put (Machine.past fr :: frs) vs w k) = .ok () (m.put frs' vs' w' k)) :
    Reaches p ⟨fr :: frs, vs⟩ w ⟨frs', vs'⟩ w' := by
  refine ⟨1, hs, goes_step hi fun m k hm ↦ ?_⟩
  rw [h m k hm]
  exact ⟨rfl, hs.operands, rfl⟩

/-- An operation that acts on its operands and the world alone. If limits stop it, they do not
suffice. -/
theorem realizes_of_does {act : Act α} {g : α → List Value} {f : Limits → Act (List Value)}
    (hi : fr.template.instrs[fr.pc]? = some i) (hg : ∀ a, (g a).length ≤ 1)
    (hdoes : ∀ l, i.op.Does l args (f l))
    (hf : ∀ l w, f l w = (act >>= fun a ↦ pure (g a)) w ∨
      ∃ e w', f l w = .error e w' ∧ e.isLimit = true ∧
        ∃ size : Int32, min l.cells l.memory < size.toInt.toNat) :
    Realizes p ⟨fr :: frs, args ++ vs⟩ (liftM act)
      fun a s' ↦ s' = ⟨Machine.past fr :: frs, g a ++ vs⟩ := by
  intro w
  -- What execution comes to: a limit that does not suffice, or what the action comes to.
  have hexec : ∀ (m : Machine) (k : Nat),
      (∃ e m', i.op.exec (m.put (Machine.past fr :: frs) (args ++ vs) w k) = .error e m' ∧
        e.isLimit = true ∧ ∀ k, ¬ m.limits.Suffice ⟨fr :: frs, args ++ vs⟩ k 1) ∨
      Performs m (Machine.past fr :: frs) vs args k ((act >>= fun a ↦ pure (g a)) w)
        (i.op.exec (m.put (Machine.past fr :: frs) (args ++ vs) w k)) := by
    intro m k
    have hperf := (hdoes m.limits).exec (Machine.past fr :: frs) vs w k
    rcases hf m.limits w with heq | ⟨e, w', heq, he, size, hsize⟩
    · exact .inr (heq ▸ hperf)
    · rw [heq] at hperf
      obtain ⟨left, -, hleft⟩ := hperf
      refine .inl ⟨e, _, hleft, he, fun k hl ↦ ?_⟩
      have := hl.cells size
      have := hl.memory size
      omega
  have hrun : (liftM act : Eval α).run w = some (act w) := rfl
  rw [hrun]
  cases hact : act w with
  | ok a w' =>
    have hbind : (act >>= fun a ↦ pure (g a)) w = .ok (g a) w' := by
      simp only [Bind.bind, EStateM.bind, hact]
      rfl
    rw [hbind] at hexec
    have hlen : (g a ++ vs).length ≤ (args ++ vs).length + 1 := by
      have := hg a
      rw [List.length_append, List.length_append]
      omega
    refine ⟨_, rfl, 1, ⟨by simp, hlen⟩, goes_step hi fun m k _ ↦ ?_⟩
    rcases hexec m k with ⟨e, m', hr, he, hno⟩ | hr
    · rw [hr]
      exact .inl ⟨he, hno⟩
    · rw [show i.op.exec _ = _ from hr]
      exact ⟨rfl, hlen, rfl⟩
  | error e w' =>
    have hbind : (act >>= fun a ↦ pure (g a)) w = .error e w' := by
      simp only [Bind.bind, EStateM.bind, hact]
    rw [hbind] at hexec
    refine ⟨1, goes_step hi fun m k _ ↦ ?_⟩
    rcases hexec m k with ⟨e', m', hr, he, hno⟩ | ⟨left, -, hr⟩
    · rw [hr]
      exact .inl ⟨he, hno⟩
    · rw [hr]
      exact .inr ⟨_, _, rfl, rfl, rfl⟩

/-- An operation whose action does not depend on limits. -/
theorem realizes_does {act : Act α} {g : α → List Value}
    (hi : fr.template.instrs[fr.pc]? = some i) (hg : ∀ a, (g a).length ≤ 1)
    (hdoes : ∀ l, i.op.Does l args (act >>= fun a ↦ pure (g a))) :
    Realizes p ⟨fr :: frs, args ++ vs⟩ (liftM act)
      fun a s' ↦ s' = ⟨Machine.past fr :: frs, g a ++ vs⟩ :=
  realizes_of_does hi hg hdoes fun _ _ ↦ .inl rfl

/-- Evaluation does not bound arrays. -/
theorem newArray_eq_or (size : Value) (l : Limits) (w : World) :
    (Act.newArray l size >>= fun v ↦ pure [v]) w =
        (Act.buildArray size >>= fun v ↦ pure [v]) w ∨
      ∃ e w', (Act.newArray l size >>= fun v ↦ pure [v]) w = .error e w' ∧
        e.isLimit = true ∧ ∃ size : Int32, min l.cells l.memory < size.toInt.toNat := by
  cases size with
  | null | double | bool | str | ref => exact .inl rfl
  | int n =>
    simp only [Act.newArray, Act.buildArray, Act.arraySize, Act.asInt, pure_bind, Store.newArray]
    by_cases hneg : n < 0
    · simp only [if_pos hneg]
      exact .inl rfl
    · simp only [if_neg hneg, pure_bind]
      by_cases hlarge : l.cells < n.toInt.toNat
      · simp only [if_pos hlarge]
        exact .inr ⟨.arrayTooLarge n.toInt.toNat l.cells, w, rfl, rfl, n, by omega⟩
      · simp only [if_neg hlarge]
        by_cases hmemory : l.memory < n.toInt.toNat
        · simp only [if_pos hmemory]
          exact .inr ⟨.store (.outOfMemory n.toInt.toNat), w, rfl, rfl, n, by omega⟩
        · simp only [if_neg hmemory]
          exact .inl rfl

theorem reaches_does {left : List Value} (hi : fr.template.instrs[fr.pc]? = some i)
    (hlen : left.length ≤ args.length + 1) (hdoes : ∀ l, i.op.Does l args (pure left)) :
    Reaches p ⟨fr :: frs, args ++ vs⟩ w ⟨Machine.past fr :: frs, left ++ vs⟩ w := by
  refine reaches_step hi ⟨by simp, ?_⟩ fun m k _ ↦ (hdoes m.limits).exec _ vs w k
  simp only [List.length_append]
  omega

/-- The operation of an operator does what the operator says, to operands in the order in which
they are evaluated. -/
theorem BinOp.does (op : BinOp) (limits : Limits) (l r : Value) :
    op.code.Does limits (if op.isSwapped then [l, r] else [r, l])
      (op.apply l r >>= fun v ↦ pure [v]) := by
  cases op with
  | add | sub | mul | div => exact .arith _ l r
  | and | or => exact .logic _ l r
  | eq => exact .equal l r
  | ne => exact .unequal l r
  | lt | le =>
    simp only [BinOp.apply, bind_assoc, pure_bind]
    exact .order _ l r
  | gt | ge =>
    simp only [BinOp.apply, bind_assoc, pure_bind]
    exact .order _ r l

/-! ## Instructions on frames -/

theorem reaches_load {slot : Nat} {v : Value} (hi : fr.template.instrs[fr.pc]? = some i)
    (hop : i.op = .load slot) (hslot : fr.slots[slot]? = some v) :
    Reaches p ⟨fr :: frs, vs⟩ w ⟨Machine.past fr :: frs, v :: vs⟩ w := by
  refine reaches_step hi ⟨by simp, by simp⟩ fun m k _ ↦ ?_
  rw [hop]
  exact Op.exec_load hslot

theorem reaches_store {slot : Nat} {v : Value} (hi : fr.template.instrs[fr.pc]? = some i)
    (hop : i.op = .store slot) :
    Reaches p ⟨fr :: frs, v :: vs⟩ w ⟨(Machine.past fr).store slot v :: frs, vs⟩ w := by
  refine reaches_step hi ⟨by simp, by simp; omega⟩ fun m k _ ↦ ?_
  rw [hop, Op.exec_store]

theorem reaches_jump {target : Nat} (hi : fr.template.instrs[fr.pc]? = some i)
    (hop : i.op = .jump target) :
    Reaches p ⟨fr :: frs, vs⟩ w ⟨fr.goto target :: frs, vs⟩ w := by
  refine reaches_step hi ⟨by simp, by simp⟩ fun m k _ ↦ ?_
  rw [hop, Op.exec_jump]
  rfl

theorem reaches_jumpUnless {target : Nat} (b : Bool) (hi : fr.template.instrs[fr.pc]? = some i)
    (hop : i.op = .jumpUnless target) :
    Reaches p ⟨fr :: frs, .bool b :: vs⟩ w
      ⟨(if b then Machine.past fr else fr.goto target) :: frs, vs⟩ w := by
  refine reaches_step hi ⟨by simp, by simp; omega⟩ fun m k _ ↦ ?_
  rw [hop, Op.exec_jumpUnless]
  cases b <;> rfl

/-- A conditional jump looks at its operand as a condition does. -/
theorem realizes_jumpUnless {target : Nat} {v : Value}
    (hi : fr.template.instrs[fr.pc]? = some i) (hop : i.op = .jumpUnless target) :
    Realizes p ⟨fr :: frs, v :: vs⟩ (liftM (Act.asBool (.jumpUnless 0) v))
      fun b s' ↦ s' = ⟨(if b then Machine.past fr else fr.goto target) :: frs, vs⟩ := by
  have hfail : ∀ (w : World) (e e' : Fault), Act.asBool (.jumpUnless target) v w = .error e w →
      e.untargeted = e'.untargeted → Fails p ⟨fr :: frs, v :: vs⟩ w e' w := by
    intro w e e' he hee
    refine ⟨1, goes_step hi fun m k _ ↦ ?_⟩
    rw [hop, Op.exec_jumpUnless, he]
    exact .inr ⟨_, _, rfl, hee, rfl⟩
  intro w
  cases v with
  | bool b => exact ⟨_, rfl, reaches_jumpUnless b hi hop⟩
  | null | int | double | str | ref => exact hfail w _ _ rfl rfl

theorem reaches_call {x : String} {f : FunDef} {t : Template}
    (hi : fr.template.instrs[fr.pc]? = some i) (hop : i.op = .call x)
    (hf : p.function? x = some f) (ht : f.code p = .ok t) :
    Reaches p ⟨fr :: frs, vs⟩ w ⟨.enter t :: Machine.past fr :: frs, vs⟩ w := by
  refine ⟨1, ⟨by simp, by simp⟩, goes_step hi fun m k hm ↦ ?_⟩
  obtain ⟨t', ht', hcode⟩ := hm.templates x f hf
  obtain rfl : t' = t := Except.ok.inj (hcode.symm.trans ht)
  rw [hop, Op.exec_call ht']
  by_cases hdepth : m.limits.callDepth ≤ (Machine.past fr :: frs).length
  · rw [if_pos hdepth]
    refine .inl ⟨rfl, fun k hl ↦ ?_⟩
    have := hl.callDepth
    simp only [List.length_cons] at this hdepth
    omega
  · rw [if_neg hdepth]
    exact ⟨rfl, Nat.le_add_right _ _, rfl⟩

/-- The operands after a return: the value goes to the caller, if there is one. -/
def answered (frs : List Frame) (v : Value) (vs : List Value) : List Value :=
  if frs.isEmpty then vs else v :: vs

theorem reaches_ret {v : Value} (hi : fr.template.instrs[fr.pc]? = some i) (hop : i.op = .ret) :
    Reaches p ⟨fr :: frs, v :: vs⟩ w ⟨frs, answered frs v vs⟩ w := by
  refine reaches_step hi ⟨by simp; omega, ?_⟩ fun m k _ ↦ ?_
  · simp only [answered]
    split
    · simp; omega
    · simp
  · rw [hop, Op.exec_ret]
    rfl

end

end Pebble
