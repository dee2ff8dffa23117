import Mathlib.Tactic.Common
import Pebble.Machine.Run

/-!
# How a machine steps

Equations for a step and for a run of several steps, in a form in which the parts of the state that
instructions change stand apart from those that they leave alone. On a machine that is not traced,
`step_put` computes the step; on any machine, `stepped` says what a step can come to.

## The shape of a state

`Machine.put` replaces the frames, the operands, the world outside the stack and the step count of
a machine. Templates, limits and the tracing flag are what a run never changes, so a run is
described by the arguments of `put` alone, and the action of an instruction on `m.put …` is found
by computation.
-/

namespace Pebble

/-- What instructions share apart from the stack: the store, the input that is left and the output
so far. -/
structure World where
  store : Store
  input : List UInt8
  output : String

namespace Machine

def world (m : Machine) : World := ⟨m.store, m.input, m.output⟩

/-- A machine with the given frames, operands, world and step count. -/
def put (m : Machine) (frames : List Frame) (operands : List Value) (w : World) (steps : Nat) :
    Machine :=
  { m with
    frames := frames
    operands := operands
    store := w.store
    input := w.input
    output := w.output
    steps := steps }

theorem put_self (m : Machine) : m.put m.frames m.operands m.world m.steps = m := rfl

theorem put_self_of_frames {m : Machine} {frames : List Frame} (h : m.frames = frames) :
    m.put frames m.operands m.world m.steps = m := by
  rw [← h, put_self]

section
variable (m : Machine) (frames : List Frame) (operands : List Value) (w : World) (steps : Nat)

@[simp] theorem put_frames : (m.put frames operands w steps).frames = frames := rfl

@[simp] theorem put_operands : (m.put frames operands w steps).operands = operands := rfl

@[simp] theorem put_world : (m.put frames operands w steps).world = w := rfl

@[simp] theorem put_steps : (m.put frames operands w steps).steps = steps := rfl

@[simp] theorem put_templates : (m.put frames operands w steps).templates = m.templates := rfl

@[simp] theorem put_limits : (m.put frames operands w steps).limits = m.limits := rfl

@[simp] theorem put_tracing : (m.put frames operands w steps).tracing = m.tracing := rfl

@[simp] theorem put_template? (x : String) :
    (m.put frames operands w steps).template? x = m.template? x := rfl

@[simp] theorem put_put (frames' : List Frame) (operands' : List Value) (w' : World)
    (steps' : Nat) :
    (m.put frames operands w steps).put frames' operands' w' steps' =
      m.put frames' operands' w' steps' := rfl

end

/-! ## One step -/

section

variable {ε σ α : Type}

theorem get_bind (f : σ → EStateM ε σ α) (s : σ) : (get >>= f) s = f s s := rfl

theorem modify_bind (g : σ → σ) (f : PUnit → EStateM ε σ α) (s : σ) :
    (modify g >>= f) s = f ⟨⟩ (g s) := rfl

end

/-- The limit on steps, if no further step may be taken. -/
def exhausted? (m : Machine) : Option Nat :=
  m.limits.steps.filter (· ≤ m.steps)

/-- The machine when a trace has been written, if it is wanted. -/
def traced (m : Machine) (site : Site) : Machine :=
  if m.tracing then { m with output := m.output ++ m.traceLine site } else m

theorem trace_eq (m : Machine) (site : Site) : trace site m = .ok () (m.traced site) := by
  rw [trace, get_bind, traced]
  split
  · rfl
  · rfl

theorem traced_of_not_tracing {m : Machine} (h : m.tracing = false) (site : Site) :
    m.traced site = m := by
  rw [traced, h]
  exact if_neg Bool.false_ne_true

/-- A trace changes the output only. -/
theorem traced_eq (m : Machine) (site : Site) :
    ∃ out, m.traced site = { m with output := out } := by
  rw [traced]
  split
  · exact ⟨_, rfl⟩
  · exact ⟨m.output, rfl⟩

theorem countStep_eq (m : Machine) :
    countStep m = match m.exhausted? with
      | none => .ok () { m with steps := m.steps + 1 }
      | some limit => .error (.stepLimit limit) { m with steps := m.steps + 1 } := by
  obtain ⟨ts, ops, frs, st, ⟨lc, ls, lo, lce⟩, steps, tr, inp, out⟩ := m
  cases ls with
  | none => rfl
  | some limit =>
    simp only [countStep, modify_bind, get_bind, exhausted?, Option.filter]
    by_cases hl : limit ≤ steps
    · have hlt : limit < steps + 1 := by omega
      rw [if_pos hlt]
      simp only [hl, decide_true]
      rfl
    · have hlt : ¬ limit < steps + 1 := by omega
      rw [if_neg hlt]
      simp only [hl, decide_false]
      rfl

theorem countOperands_eq (m : Machine) :
    countOperands m =
      if m.limits.operands < m.operands.length then .error (.stackOverflow m.limits.operands) m
      else .ok () m := by
  rw [countOperands, get_bind]
  split <;> rfl

theorem execute_eq (m : Machine) (site : Site) :
    (execute site).run m =
      match (m.traced site).exhausted? with
      | some limit => .error (.stepLimit limit)
          { m.traced site with steps := (m.traced site).steps + 1 }
      | none =>
        match site.instr.op.exec { m.traced site with steps := (m.traced site).steps + 1 } with
        | .error e m' => .error e m'
        | .ok _ m' =>
          if m'.limits.operands < m'.operands.length then
            .error (.stackOverflow m'.limits.operands) m'
          else .ok () m' := by
  simp only [EStateM.run, execute, bind, EStateM.bind, trace_eq, countStep_eq, countOperands_eq]
  cases (m.traced site).exhausted? with
  | some limit => rfl
  | none =>
    simp only
    cases site.instr.op.exec { m.traced site with steps := (m.traced site).steps + 1 } <;> rfl

/-- The machine when it is about to execute the instruction at a site: its frame has moved on, the
trace has been written and the step is counted. -/
def begun (m : Machine) (site : Site) : Machine :=
  { m.advance.traced site with steps := m.steps + 1 }

/-- Neither moving on nor writing the trace touches the limits or the count of steps. -/
theorem traced_advance (m : Machine) (site : Site) :
    (m.advance.traced site).exhausted? = m.exhausted? ∧
      { m.advance.traced site with steps := (m.advance.traced site).steps + 1 } =
        m.begun site := by
  obtain ⟨out, hout⟩ := traced_eq m.advance site
  have hlimits : m.advance.limits = m.limits := by
    rw [advance]
    split <;> rfl
  have hsteps : m.advance.steps = m.steps := by
    rw [advance]
    split <;> rfl
  constructor
  · rw [exhausted?, exhausted?, hout]
    simp only [hlimits, hsteps]
  · rw [begun, hout]
    simp only [hsteps]

/-- A step on any machine that has an instruction left. -/
theorem step_of_site {m : Machine} {site : Site} (h : m.site? = some site) :
    m.step =
      match m.exhausted? with
      | some limit => (.failed ⟨.stepLimit limit, some site⟩, m.begun site)
      | none =>
        match site.instr.op.exec (m.begun site) with
        | .error e m' => (.failed ⟨e, some site⟩, m')
        | .ok _ m' =>
          if m'.limits.operands < m'.operands.length then
            (.failed ⟨.stackOverflow m'.limits.operands, some site⟩, m')
          else (.running, m') := by
  obtain ⟨hexhausted, hbegun⟩ := m.traced_advance site
  rw [step, h]
  simp only [execute_eq, hexhausted, hbegun]
  cases m.exhausted? with
  | some limit => rfl
  | none =>
    simp only
    cases site.instr.op.exec (m.begun site) with
    | error e m' => rfl
    | ok _ m' =>
      by_cases hcount : m'.limits.operands < m'.operands.length
      · simp only [if_pos hcount]
      · simp only [if_neg hcount]

/-- The instruction a frame stands at. -/
def siteOf (fr : Frame) (i : Instr) : Site := ⟨fr.template.name, fr.pc, i⟩

/-- A frame that has gone on to its next instruction. -/
def past (fr : Frame) : Frame := { fr with pc := fr.pc + 1 }

section
variable {m : Machine} {fr : Frame} {frs : List Frame} {vs : List Value} {w : World} {k : Nat}
  {i : Instr}

theorem site?_put (hi : fr.template.instrs[fr.pc]? = some i) :
    (m.put (fr :: frs) vs w k).site? = some (siteOf fr i) := by
  simp [site?, hi, siteOf]

/-- A step, unless there are too many of them: the instruction is executed, and then the operands
are counted. -/
theorem step_put (htr : m.tracing = false) (hi : fr.template.instrs[fr.pc]? = some i) :
    (m.put (fr :: frs) vs w k).step =
      match m.limits.steps.filter (· ≤ k) with
      | some limit =>
        (.failed ⟨.stepLimit limit, some (siteOf fr i)⟩, m.put (past fr :: frs) vs w (k + 1))
      | none =>
        match i.op.exec (m.put (past fr :: frs) vs w (k + 1)) with
        | .error e m' => (.failed ⟨e, some (siteOf fr i)⟩, m')
        | .ok _ m' =>
          if m'.limits.operands < m'.operands.length then
            (.failed ⟨.stackOverflow m'.limits.operands, some (siteOf fr i)⟩, m')
          else (.running, m') := by
  have hbegun : (m.put (fr :: frs) vs w k).begun (siteOf fr i) =
      m.put (past fr :: frs) vs w (k + 1) := by
    have hadvance : (m.put (fr :: frs) vs w k).advance = m.put (past fr :: frs) vs w k := rfl
    rw [begun, hadvance, traced_of_not_tracing (m := m.put (past fr :: frs) vs w k) htr]
    rfl
  rw [step_of_site (site?_put hi), hbegun]
  rfl

end

/-- On a machine that may be traced, the trace is all that has changed apart from the frame and the
count. -/
theorem begun_eq {m : Machine} {fr : Frame} {frs : List Frame} (h : m.frames = fr :: frs)
    (site : Site) :
    ∃ out, (m.tracing = false → out = m.output) ∧ m.begun site =
      m.put (past fr :: frs) m.operands { m.world with output := out } (m.steps + 1) := by
  have hadvance : m.advance = m.put (past fr :: frs) m.operands m.world m.steps := by
    rw [advance, h]
    rfl
  refine ⟨(m.begun site).output, fun htr ↦ ?_, ?_⟩
  · rw [begun, hadvance, traced_of_not_tracing (m := m.put (past fr :: frs) _ _ _) htr]
    rfl
  · obtain ⟨out, hout⟩ := traced_eq m.advance site
    rw [begun, hout, hadvance]
    rfl

/-- Nothing of this touches what an instruction works on. -/
theorem begun_same (m : Machine) (site : Site) :
    (m.begun site).store = m.store ∧ (m.begun site).limits = m.limits ∧
      (m.begun site).operands = m.operands := by
  obtain ⟨out, hout⟩ := traced_eq m.advance site
  rw [begun, hout, advance]
  split <;> exact ⟨rfl, rfl, rfl⟩

/-- A frame that has come to the end of its code has no instruction left. -/
theorem site?_eq_none {m : Machine} {fr : Frame} {frs : List Frame} (hm : m.frames = fr :: frs)
    (hend : fr.template.instrs[fr.pc]? = none) : m.site? = none := by
  rw [site?, hm]
  simp only [hend, Option.map_none]

theorem step_of_no_site {m : Machine} (h : m.site? = none) : m.step = (.finished, m) := by
  rw [step, h]

/-- What a step comes to, on a machine that may be traced: there is nothing left to execute, or the
instruction is executed in a state that has more output. -/
inductive Stepped (m : Machine) : Status → Machine → Prop where
  | finished (h : m.site? = none) : Stepped m .finished m
  | exhausted {fr : Frame} {frs : List Frame} {i : Instr} {out : String} {limit : Nat}
      (frames : m.frames = fr :: frs) (instr : fr.template.instrs[fr.pc]? = some i) :
      Stepped m (.failed ⟨.stepLimit limit, some (siteOf fr i)⟩)
        (m.put (past fr :: frs) m.operands { m.world with output := out } (m.steps + 1))
  | faulted {fr : Frame} {frs : List Frame} {i : Instr} {out : String} {e : Fault} {m' : Machine}
      (frames : m.frames = fr :: frs) (instr : fr.template.instrs[fr.pc]? = some i)
      (exec : i.op.exec (m.put (past fr :: frs) m.operands { m.world with output := out }
        (m.steps + 1)) = .error e m') :
      Stepped m (.failed ⟨e, some (siteOf fr i)⟩) m'
  | overflowed {fr : Frame} {frs : List Frame} {i : Instr} {out : String} {m' : Machine}
      (frames : m.frames = fr :: frs) (instr : fr.template.instrs[fr.pc]? = some i)
      (exec : i.op.exec (m.put (past fr :: frs) m.operands { m.world with output := out }
        (m.steps + 1)) = .ok () m')
      (count : m'.limits.operands < m'.operands.length) :
      Stepped m (.failed ⟨.stackOverflow m'.limits.operands, some (siteOf fr i)⟩) m'
  | running {fr : Frame} {frs : List Frame} {i : Instr} {out : String} {m' : Machine}
      (frames : m.frames = fr :: frs) (instr : fr.template.instrs[fr.pc]? = some i)
      (exec : i.op.exec (m.put (past fr :: frs) m.operands { m.world with output := out }
        (m.steps + 1)) = .ok () m')
      (count : m'.operands.length ≤ m'.limits.operands) :
      Stepped m .running m'

theorem stepped (m : Machine) : m.Stepped m.step.1 m.step.2 := by
  cases hfrs : m.frames with
  | nil =>
    have hsite : m.site? = none := by rw [site?, hfrs]
    rw [step_of_no_site hsite]
    exact .finished hsite
  | cons fr frs =>
    cases hi : fr.template.instrs[fr.pc]? with
    | none =>
      have hsite := site?_eq_none hfrs hi
      rw [step_of_no_site hsite]
      exact .finished hsite
    | some i =>
      have hsite : m.site? = some (siteOf fr i) := by
        rw [← m.put_self_of_frames hfrs]
        exact site?_put hi
      obtain ⟨out, -, hbegun⟩ := begun_eq hfrs (siteOf fr i)
      have hop : (siteOf fr i).instr.op = i.op := rfl
      rw [step_of_site hsite, hbegun, hop]
      cases m.exhausted? with
      | some limit => exact .exhausted hfrs hi
      | none =>
        simp only
        cases hexec : i.op.exec (m.put (past fr :: frs) m.operands { m.world with output := out }
          (m.steps + 1)) with
        | error e m' => exact .faulted hfrs hi hexec
        | ok _ m' =>
          by_cases hcount : m'.limits.operands < m'.operands.length
          · simp only [if_pos hcount]
            exact .overflowed hfrs hi hexec hcount
          · simp only [if_neg hcount]
            exact .running hfrs hi hexec (Nat.le_of_not_lt hcount)

theorem stepped_of_step {m m' : Machine} {st : Status} (h : m.step = (st, m')) :
    m.Stepped st m' := by
  have hstepped := m.stepped
  rw [h] at hstepped
  exact hstepped

/-! ## Several steps -/

theorem runFor_succ (n : Nat) (m : Machine) :
    m.runFor (n + 1) = match m.step with
      | (.running, m') => m'.runFor n
      | ended => ended := rfl

theorem runFor_one (m : Machine) : m.runFor 1 = m.step := by
  rw [runFor_succ]
  rcases m.step with ⟨st, m'⟩
  cases st with
  | running => rfl
  | finished => rfl
  | failed r => rfl

theorem runFor_succ_of_running {m m' : Machine} (h : m.step = (.running, m')) (n : Nat) :
    m.runFor (n + 1) = m'.runFor n := by
  rw [runFor_succ, h]

theorem runFor_succ_of_ended {m m' : Machine} {st : Status} (h : m.step = (st, m'))
    (hst : st ≠ .running) (n : Nat) : m.runFor (n + 1) = (st, m') := by
  rw [runFor_succ, h]
  cases st with
  | running => exact absurd rfl hst
  | finished => rfl
  | failed r => rfl

/-- A run can be interrupted and taken up again. -/
theorem runFor_add (a b : Nat) (m : Machine) :
    m.runFor (a + b) = match m.runFor a with
      | (.running, m') => m'.runFor b
      | ended => ended := by
  induction a generalizing m with
  | zero => rw [Nat.zero_add]; rfl
  | succ a ih =>
    rw [Nat.add_right_comm, runFor_succ, runFor_succ]
    rcases hstep : m.step with ⟨st, m'⟩
    cases st with
    | running => exact ih m'
    | finished => rfl
    | failed r => rfl

theorem runFor_add_of_running {a : Nat} {m m' : Machine} (h : m.runFor a = (.running, m'))
    (b : Nat) : m.runFor (a + b) = m'.runFor b := by
  rw [runFor_add, h]

theorem runFor_add_of_ended {a : Nat} {m m' : Machine} {st : Status}
    (h : m.runFor a = (st, m')) (hst : st ≠ .running) (b : Nat) :
    m.runFor (a + b) = (st, m') := by
  rw [runFor_add, h]
  cases st with
  | running => exact absurd rfl hst
  | finished => rfl
  | failed r => rfl

/-- A run ends in one way only. -/
theorem runFor_eq_of_ended {m : Machine} {a b : Nat} (ha : (m.runFor a).1 ≠ .running)
    (hb : (m.runFor b).1 ≠ .running) : m.runFor a = m.runFor b := by
  have hrun : ∀ n, m.runFor n = ((m.runFor n).1, (m.runFor n).2) := fun n ↦ rfl
  rcases Nat.le_total a b with hle | hle
  · obtain ⟨d, rfl⟩ := Nat.exists_eq_add_of_le hle
    exact (runFor_add_of_ended (hrun a) ha d).symm
  · obtain ⟨d, rfl⟩ := Nat.exists_eq_add_of_le hle
    exact runFor_add_of_ended (hrun b) hb d

/-- Begins a run of the main function and executes instructions until it ends, but at most `n`. -/
def runMain (n : Nat) (m : Machine) : Status × Machine :=
  match m.start with
  | (.running, m') => m'.runFor n
  | ended => ended

theorem runMain_of_running {m m' : Machine} (h : m.start = (.running, m')) (n : Nat) :
    m.runMain n = m'.runFor n := by
  rw [runMain, h]

theorem runMain_of_failed {m m' : Machine} {r : FaultReport} (h : m.start = (.failed r, m'))
    (n : Nat) : m.runMain n = (.failed r, m') := by
  rw [runMain, h]

/-- A run begins with no steps taken, or fails at once. -/
theorem start_cases (m : Machine) :
    m.start = (.failed ⟨.noMain, none⟩, m.reset) ∨
      ∃ m', m.start = (.running, m') ∧ m'.steps = 0 := by
  rw [start]
  cases m.reset.template? "main" with
  | none => exact .inl rfl
  | some t => exact .inr ⟨_, rfl, rfl⟩

theorem runMain_add_of_ended {m : Machine} {a : Nat} (h : (m.runMain a).1 ≠ .running) (b : Nat) :
    m.runMain (a + b) = m.runMain a := by
  rcases m.start_cases with hstart | ⟨m', hstart, -⟩
  · rw [runMain_of_failed hstart, runMain_of_failed hstart]
  · rw [runMain_of_running hstart] at h ⊢
    rw [runMain_of_running hstart]
    exact runFor_add_of_ended rfl h b

/-- What one step keeps, a run keeps. -/
theorem runFor_induction {P : Machine → Prop} {Q : Status → Machine → Prop}
    (hrun : ∀ m, P m → Q .running m)
    (hstep : ∀ m, P m → ∀ st m', m.step = (st, m') →
      if st = .running then P m' else Q st m') :
    ∀ (n : Nat) (m : Machine), P m → Q (m.runFor n).1 (m.runFor n).2 := by
  intro n
  induction n with
  | zero => exact fun m hm ↦ hrun m hm
  | succ n ih =>
    intro m hm
    have h := hstep m hm
    rcases hs : m.step with ⟨st, m'⟩
    specialize h st m' hs
    by_cases hst : st = .running
    · rw [if_pos hst] at h
      rw [runFor_succ_of_running (hst ▸ hs)]
      exact ih m' h
    · rw [if_neg hst] at h
      rw [runFor_succ_of_ended hs hst]
      exact h

end Machine

end Pebble
