import Pebble.Proofs.Hosting

/-!
# Limits only cut runs short

A machine under wider limits runs as it does under narrower ones, until the narrower limits stop it.
So a run that ends without coming to a limit ends in the same way under wider limits, and
one that does come to a limit has written nothing that it would not have written otherwise.

The limit on steps is exact: a run ends with it if and only if it has more instructions to dispatch.

## The construction

Wider limits are those of a host that has the same templates and nothing from before, so everything
is known from `Machine.runFor_onto`.
-/

namespace Pebble

/-- The run has come to one of its limits. -/
def Status.IsLimited : Status → Prop
  | failed r => r.fault.isLimit = true
  | _ => False

/-- How many instructions have been dispatched in a step that ends so. One that faults has been
dispatched, but not one that is refused because the steps are used up. -/
def Status.dispatched : Status → Nat
  | running => 1
  | finished => 0
  | failed r =>
    match r.fault with
    | .stepLimit _ => 0
    | _ => 1

namespace Machine

/-- The machine under other limits. -/
def within (m : Machine) (l : Limits) : Machine := { m with limits := l }

/-- How many instructions the next steps dispatch. -/
def dispatchedFor : Nat → Machine → Nat
  | 0, _ => 0
  | n + 1, m =>
    m.step.1.dispatched +
      match m.step with
      | (.running, m') => dispatchedFor n m'
      | _ => 0

/-- How many instructions a run of the main function dispatches in its first steps. -/
def dispatchedMain (n : Nat) (m : Machine) : Nat :=
  match m.start with
  | (.running, m') => m'.dispatchedFor n
  | _ => 0

/-! ## Wider limits -/

variable {m m' : Machine} {l' : Limits}

/-- Wider limits are those of a host. -/
theorem hosts_within (h : m.limits ≤ l') : (m.within l').bare.mute.Hosts m :=
  ⟨fun _ _ ht ↦ ht, h, rfl, fun _ ↦ rfl⟩

theorem onto_within (h : m.Continues m') (l' : Limits) :
    m'.onto (m.within l').bare.mute = m'.within l' := by
  rw [onto_bare_mute]
  simp only [within, ← h.templates, ← h.tracing]

end Machine

theorem Fault.CutShort.isLimit {m : Machine} {l' : Limits} {e : Fault}
    (h : e.CutShort m (m.within l').bare.mute) : e.isLimit = true := by
  cases e with
  | stepLimit | stackOverflow | callDepth | arrayTooLarge => rfl
  | unresolvedCall x => exact absurd rfl h
  | store f =>
    cases f with
    | outOfMemory => rfl
    | noSuchObject => exact h.elim
  | _ => exact h.elim

namespace Machine

variable {m m' : Machine} {l l' : Limits}

/-- A run under wider limits. -/
theorem runFor_within (h : m.limits ≤ l') (n : Nat) :
    (m.within l').runFor n = ((m.runFor n).1, (m.runFor n).2.within l') ∨
      ∃ e site, (m.runFor n).1 = .failed ⟨e, site⟩ ∧ e.CutShort m (m.within l').bare.mute ∧
        ∃ s, ((m.within l').runFor n).2.output = (m.runFor n).2.output ++ s := by
  have hrun := runFor_onto (hosts_within h) (fun _ m' _ ↦ m'.discreet_zero) n
  have hcontinues := continues_runFor n m
  rw [onto_within (.refl m)] at hrun
  generalize m.runFor n = r, (m.within l').runFor n = r' at hrun hcontinues
  cases hrun with
  | running m' | finished m' =>
    rw [onto_within hcontinues]
    exact .inl rfl
  | failed e site m' =>
    have hshift : e.shift (m.within l').bare.mute.offset = e := e.shift_zero
    rw [hshift, onto_within hcontinues]
    exact .inl rfl
  | cut short output =>
    obtain ⟨s, hs⟩ := output
    refine .inr ⟨_, _, rfl, short, s, ?_⟩
    rw [hs]
    exact congrArg (· ++ s) String.empty_append

theorem start_within (m : Machine) (l : Limits) :
    (m.within l).start = (m.start.1, m.start.2.within l) := by
  have htemplate : (m.within l).reset.template? "main" = m.reset.template? "main" := rfl
  rw [start, start, htemplate]
  cases m.reset.template? "main" <;> rfl

/-- A run of the main function under wider limits. -/
theorem runMain_within (h : l ≤ l') (m : Machine) (n : Nat) :
    (m.within l').runMain n =
        (((m.within l).runMain n).1, ((m.within l).runMain n).2.within l') ∨
      ((m.within l).runMain n).1.IsLimited ∧
        ∃ s, ((m.within l').runMain n).2.output = ((m.within l).runMain n).2.output ++ s := by
  have hstart := start_within m
  rcases m.start_cases with hmain | ⟨m', hmain, -⟩
  · rw [hmain] at hstart
    rw [runMain_of_failed (hstart l), runMain_of_failed (hstart l')]
    exact .inl rfl
  · rw [hmain] at hstart
    rw [runMain_of_running (hstart l), runMain_of_running (hstart l')]
    have hlimits : (m'.within l).limits ≤ l' := h
    rcases runFor_within hlimits n with heq | ⟨e, site, hst, short, hout⟩
    · exact .inl heq
    · refine .inr ⟨?_, hout⟩
      rw [hst]
      exact short.isLimit

/-! ## The limit on steps -/

/-- The machine without a limit on its steps. -/
def unhurried (m : Machine) : Machine := m.within { m.limits with steps := none }

theorem exhausted?_unhurried (m : Machine) : m.unhurried.exhausted? = none := rfl

end Machine

/-- No operation raises the fault of the limit on steps. -/
theorem Op.exec_ne_stepLimit {op : Op} {m m' : Machine} {n : Nat} :
    op.exec m ≠ .error (.stepLimit n) m' := by
  intro h
  have hcomes := op.comesTo m
  rw [h] at hcomes
  cases hcomes with
  | error raises =>
    cases raises with
    | ofLocal hlocal => cases hlocal

namespace Machine

variable {m m' : Machine} {site : Site} {limit k n : Nat}

/-- A step that may be taken dispatches an instruction, if there is one left. -/
theorem dispatched_step (hsite : m.site? = some site) (hex : m.exhausted? = none) :
    m.step.1.dispatched = 1 := by
  rw [step_of_site hsite, hex]
  simp only
  cases hexec : site.instr.op.exec (m.begun site) with
  | ok _ m' =>
    simp only
    split <;> rfl
  | error e m' =>
    cases e with
    | stepLimit n => exact absurd hexec Op.exec_ne_stepLimit
    | _ => rfl

theorem step_steps (h : m.step = (.running, m')) : m'.steps = m.steps + 1 := by
  cases stepped_of_step h with
  | @running fr frs i out _ frames instr exec count =>
    have hcomes := i.op.comesTo (m.put (past fr :: frs) m.operands { m.world with output := out }
      (m.steps + 1))
    rw [exec] at hcomes
    cases hcomes with
    | ok => rfl

/-- A step that may be taken is the same without a limit on steps. -/
theorem step_unhurried (hex : m.exhausted? = none) :
    m.unhurried.step = (m.step.1, m.step.2.unhurried) := by
  have hlimits : m.limits ≤ { m.limits with steps := none } :=
    ⟨Nat.le_refl _, (fun _ h ↦ nomatch h), Nat.le_refl _, Nat.le_refl _, Nat.le_refl _⟩
  have hcontinues := m.continues_step
  have hrun := runFor_within hlimits 1
  rw [runFor_one, runFor_one] at hrun
  rcases hrun with heq | ⟨e, st, hst, short, -⟩
  · rw [unhurried, unhurried, hcontinues.limits]
    exact heq
  · -- All other limits are the same, so the run could only have used up its steps.
    cases e with
    | stepLimit n =>
      cases hsite : m.site? with
      | none =>
        rw [step_of_no_site hsite] at hst
        cases hst
      | some site =>
        have hone := dispatched_step hsite hex
        rw [hst] at hone
        cases hone
    | stackOverflow | callDepth | arrayTooLarge | unresolvedCall => exact absurd rfl short
    | store f =>
      cases f with
      | outOfMemory => exact absurd rfl short
      | noSuchObject => exact short.elim
    | _ => exact short.elim

theorem dispatchedFor_succ_of_running (h : m.step = (.running, m')) (n : Nat) :
    m.dispatchedFor (n + 1) = m'.dispatchedFor n + 1 := by
  rw [dispatchedFor, h]
  exact Nat.add_comm ..

theorem dispatchedFor_succ_of_ended (h : m.step.1 ≠ .running) (n : Nat) :
    m.dispatchedFor (n + 1) = m.step.1.dispatched := by
  rw [dispatchedFor]
  generalize m.step = r at h
  obtain ⟨st, m'⟩ := r
  cases st with
  | running => exact absurd rfl h
  | finished | failed => rfl

/-- What a limit of `k` steps means for a run that may still take `left` of them: it ends, it takes
no more, and it comes to the limit if and only if there are more to take. -/
structure Paced (k left : Nat) (m : Machine) : Prop where
  ends : (m.runFor (left + 1)).1 ≠ .running
  dispatched : ∀ n, m.dispatchedFor n ≤ left
  limited : (∃ n site, (m.runFor n).1 = .failed ⟨.stepLimit k, site⟩) ↔
    ∃ n, left < m.unhurried.dispatchedFor n

/-- A run that ends with its next step, for another reason. -/
theorem paced_of_ended {left : Nat} (hsame : m.unhurried.step.1 = m.step.1)
    (hst : m.step.1 ≠ .running) (hlimit : ∀ site, m.step.1 ≠ .failed ⟨.stepLimit k, site⟩)
    (hleft : m.step.1.dispatched ≤ left) : m.Paced k left := by
  have hrun : ∀ n, m.runFor (n + 1) = m.step := fun n ↦ runFor_succ_of_ended rfl hst n
  refine ⟨?_, fun n ↦ ?_, ?_, ?_⟩
  · rw [hrun]
    exact hst
  · cases n with
    | zero => exact Nat.zero_le _
    | succ n =>
      rw [dispatchedFor_succ_of_ended hst]
      exact hleft
  · rintro ⟨n, site, hn⟩
    cases n with
    | zero => cases hn
    | succ n =>
      rw [hrun] at hn
      exact absurd hn (hlimit site)
  · rintro ⟨n, hn⟩
    cases n with
    | zero => exact absurd hn (Nat.not_lt_zero _)
    | succ n =>
      rw [dispatchedFor_succ_of_ended (hsame ▸ hst), hsame] at hn
      exact absurd hn (Nat.not_lt_of_le hleft)

/-- A run that has used up its steps and is not over. -/
theorem paced_of_exhausted (hsite : m.site? = some site) (hex : m.exhausted? = some k) :
    m.Paced k 0 := by
  have hstep : m.step = (.failed ⟨.stepLimit k, some site⟩, m.begun site) := by
    rw [step_of_site hsite, hex]
  have hst : Status.failed ⟨.stepLimit k, some site⟩ ≠ .running := Status.noConfusion
  have hrun := runFor_succ_of_ended hstep hst
  refine ⟨?_, fun n ↦ ?_, fun _ ↦ ⟨1, ?_⟩, fun _ ↦ ⟨1, some site, ?_⟩⟩
  · rw [hrun]
    exact hst
  · cases n with
    | zero => exact Nat.le_refl _
    | succ n =>
      rw [dispatchedFor_succ_of_ended (by rw [hstep]; exact hst), hstep]
      exact Nat.le_refl _
  · have hsite' : m.unhurried.site? = some site := hsite
    have hone := dispatched_step hsite' m.exhausted?_unhurried
    rw [dispatchedFor, hone]
    exact Nat.lt_of_lt_of_le Nat.zero_lt_one (Nat.le_add_right ..)
  · rw [hrun]

/-- A run that takes one more step. -/
theorem Paced.step {left : Nat} (h : m'.Paced k left) (hex : m.exhausted? = none)
    (hstep : m.step = (.running, m')) : m.Paced k (left + 1) := by
  have hstep' := step_unhurried hex
  rw [hstep] at hstep'
  refine ⟨?_, fun n ↦ ?_, ?_, ?_⟩
  · rw [runFor_succ_of_running hstep]
    exact h.ends
  · cases n with
    | zero => exact Nat.zero_le _
    | succ n =>
      rw [dispatchedFor_succ_of_running hstep]
      exact Nat.succ_le_succ (h.dispatched n)
  · rintro ⟨n, site, hn⟩
    cases n with
    | zero => cases hn
    | succ n =>
      rw [runFor_succ_of_running hstep] at hn
      obtain ⟨n', hn'⟩ := h.limited.mp ⟨n, site, hn⟩
      refine ⟨n' + 1, ?_⟩
      rw [dispatchedFor_succ_of_running hstep']
      exact Nat.succ_lt_succ hn'
  · rintro ⟨n, hn⟩
    cases n with
    | zero => exact absurd hn (Nat.not_lt_zero _)
    | succ n =>
      rw [dispatchedFor_succ_of_running hstep'] at hn
      obtain ⟨n', site, hn'⟩ := h.limited.mpr ⟨n, Nat.lt_of_succ_lt_succ hn⟩
      refine ⟨n' + 1, site, ?_⟩
      rw [runFor_succ_of_running hstep]
      exact hn'

/-- A run that is over. -/
theorem paced_of_no_site (hsite : m.site? = none) (left : Nat) : m.Paced k left := by
  have hsite' : m.unhurried.site? = none := hsite
  refine paced_of_ended ?_ ?_ (fun site ↦ ?_) ?_
  · rw [step_of_no_site hsite, step_of_no_site hsite']
  · rw [step_of_no_site hsite]
    exact Status.noConfusion
  · rw [step_of_no_site hsite]
    exact Status.noConfusion
  · rw [step_of_no_site hsite]
    exact Nat.zero_le _

theorem paced {left : Nat} (hlimit : m.limits.steps = some k) (hleft : m.steps + left = k) :
    m.Paced k left := by
  -- The counter of the machine is what ties the steps that are left to the limit; every step that
  -- is taken moves it by one, so the induction is on the steps that are left.
  induction left generalizing m with
  | zero =>
    cases hsite : m.site? with
    | none => exact paced_of_no_site hsite 0
    | some site =>
      refine paced_of_exhausted hsite ?_
      rw [exhausted?, hlimit, Option.filter_some, decide_eq_true (by omega), if_pos rfl]
  | succ left ih =>
    cases hsite : m.site? with
    | none => exact paced_of_no_site hsite _
    | some site =>
      have hex : m.exhausted? = none := by
        rw [exhausted?, hlimit, Option.filter_some, decide_eq_false (by omega)]
        exact if_neg Bool.false_ne_true
      have hone := dispatched_step hsite hex
      have hsame := congrArg Prod.fst (step_unhurried hex)
      rcases hstep : m.step with ⟨st, m'⟩
      rw [hstep] at hone hsame
      cases st with
      | running =>
        refine (ih ?_ ?_).step hex hstep
        · have hlimits := m.continues_step.limits
          rw [hstep] at hlimits
          rw [hlimits]
          exact hlimit
        · rw [step_steps hstep]
          omega
      | finished => cases hone
      | failed r =>
        -- The instruction was dispatched, so the fault is its own.
        have hst : m.step.1 = .failed r := by rw [hstep]
        refine paced_of_ended (hsame.trans hst.symm) ?_ (fun site ↦ ?_) ?_
        · rw [hst]
          exact Status.noConfusion
        · rw [hst]
          rintro ⟨⟩
          cases hone
        · rw [hst, hone]
          exact Nat.le_add_left ..

/-- **Limits only cut runs short.**
* Let the limits be widened. A run that ends without coming to a limit ends in the same
  state, and for the same reason. However two runs end, the second has written what the first has
  written, and then perhaps more.
* Let a run be limited to `k` steps. It ends, having dispatched no more than `k` instructions, and
  it ends with the limit if and only if it would dispatch more than `k` without it. -/
theorem runs_within_limits (m : Machine) :
    (∀ l l' : Limits, l ≤ l' →
      (∀ n st m', (m.within l).runMain n = (st, m') → st ≠ .running → ¬ st.IsLimited →
        (m.within l').runMain n = (st, m'.within l')) ∧
      ∀ n n', ((m.within l).runMain n).1 ≠ .running → ((m.within l').runMain n').1 ≠ .running →
        ∃ s, ((m.within l').runMain n').2.output = ((m.within l).runMain n).2.output ++ s) ∧
    ∀ (l : Limits) (k : Nat), l.steps = some k →
      (∃ n, ((m.within l).runMain n).1 ≠ .running) ∧
      (∀ n, (m.within l).dispatchedMain n ≤ k) ∧
      ((∃ n site, ((m.within l).runMain n).1 = .failed ⟨.stepLimit k, site⟩) ↔
        ∃ n, k < (m.within { l with steps := none }).dispatchedMain n) := by
  refine ⟨fun l l' hle ↦ ⟨fun n st m' hrun hst hlimited ↦ ?_, fun n n' hn hn' ↦ ?_⟩,
    fun l k hk ↦ ?_⟩
  · rcases runMain_within hle m n with heq | ⟨hlim, -⟩
    · rw [heq, hrun]
    · rw [hrun] at hlim
      exact absurd hlim hlimited
  · -- Both runs have ended, so they can be followed for the same number of steps.
    have heq := runMain_add_of_ended hn n'
    have heq' := runMain_add_of_ended hn' n
    rw [Nat.add_comm] at heq'
    rw [← heq, ← heq']
    rcases runMain_within hle m (n + n') with hsame | ⟨-, hout⟩
    · rw [hsame]
      exact ⟨"", String.append_empty.symm⟩
    · exact hout
  · have hwithin := start_within m
    rcases m.start_cases with hstart | ⟨m', hstart, hsteps⟩
    · rw [hstart] at hwithin
      have hrun := runMain_of_failed (hwithin l)
      have hnone : ∀ l n, (m.within l).dispatchedMain n = 0 := by
        intro l n
        rw [dispatchedMain, hwithin]
      refine ⟨⟨0, ?_⟩, fun n ↦ ?_, ?_, ?_⟩
      · rw [hrun]
        exact Status.noConfusion
      · rw [hnone]
        exact Nat.zero_le _
      · rintro ⟨n, site, hn⟩
        rw [hrun] at hn
        cases hn
      · rintro ⟨n, hn⟩
        rw [hnone] at hn
        exact absurd hn (Nat.not_lt_zero _)
    · rw [hstart] at hwithin
      have hpaced : (m'.within l).Paced k k := paced hk (by rw [within, hsteps, Nat.zero_add])
      have hdispatched : ∀ l n, (m.within l).dispatchedMain n = (m'.within l).dispatchedFor n := by
        intro l n
        rw [dispatchedMain, hwithin]
      simp only [runMain_of_running (hwithin l), hdispatched]
      exact ⟨⟨k + 1, hpaced.ends⟩, hpaced.dispatched, hpaced.limited⟩

end Machine

end Pebble
