import Pebble.Proofs.Grafting
import Pebble.Proofs.StoreHistories
import Pebble.Source

/-!
# Safety of arbitrary code

Templates are verified when they are registered, and that is all the machine asks of code: operands
may be missing or of the wrong kind, functions may end without a return, and templates may be
replaced between runs. Whatever code it runs, the machine stays in bounds: frames stand within
their code, there are not too many of them, arrays are not too large, and no run comes upon a jump
that goes nowhere or upon an operation without a frame.

What an operation does to the frames is known from `Op.ComesTo`, and what it does to the store from
`Op.Effect`; a step stays in bounds whether it succeeds or not.
-/

namespace Pebble

/-! ## Frames within their code -/

/-- The jumps of a template that passes verification stay in it. -/
theorem Template.target_le_of_verify {t : Template} (h : t.verify = .ok ()) {index : Nat}
    {i : Instr} (hi : t.instrs[index]? = some i) {target : Int}
    (htarget : i.op.target? = some target) :
    0 ≤ target ∧ target ≤ t.instrs.size := by
  have hdefect : t.defect? index i = none := by
    rw [verify] at h
    split at h
    · next hnone =>
      refine List.findSome?_eq_none_iff.mp hnone (i, index) ?_
      rw [List.mem_zipIdx_iff_getElem?, Array.getElem?_toList]
      exact hi
    · cases h
  rw [defect?, htarget] at hdefect
  simp only at hdefect
  split at hdefect
  · cases hdefect
  · split at hdefect
    · cases hdefect
    · omega

/-- The frame runs code that has been verified, and has not left it. -/
structure Frame.InBounds (fr : Frame) : Prop where
  verified : fr.template.verify = .ok ()
  within : fr.pc ≤ fr.template.instrs.size

section
variable {fr : Frame}

theorem Frame.InBounds.enter {t : Template} (h : t.verify = .ok ()) : (Frame.enter t).InBounds :=
  ⟨h, Nat.zero_le _⟩

theorem Frame.InBounds.past (h : fr.InBounds) {i : Instr}
    (hi : fr.template.instrs[fr.pc]? = some i) : (Machine.past fr).InBounds :=
  ⟨h.verified, (Array.getElem?_eq_some_iff.mp hi).1⟩

/-- Whatever an instruction does to the frames, those that are left are in bounds. -/
theorem Op.Moves.inBounds {m : Machine} {op : Op} {frs' : List Frame} (h : op.Moves m frs')
    (htemplates : ∀ t ∈ m.templates, t.verify = .ok ()) (hframes : ∀ fr ∈ m.frames, fr.InBounds)
    (htarget : ∀ target, op.target? = some target → ∀ fr ∈ m.frames.head?,
      target ≤ fr.template.instrs.size)
    (hdepth : m.frames.length ≤ max 1 m.limits.callDepth) :
    (∀ fr ∈ frs', fr.InBounds) ∧ frs'.length ≤ max 1 m.limits.callDepth := by
  cases h with
  | stay => exact ⟨hframes, hdepth⟩
  | store frames =>
    rw [frames] at hframes hdepth
    obtain ⟨hfr, hrest⟩ := List.forall_mem_cons.mp hframes
    exact ⟨List.forall_mem_cons.mpr ⟨⟨hfr.verified, hfr.within⟩, hrest⟩, hdepth⟩
  | @jump _ n fr frs frames target =>
    rw [frames] at hframes hdepth
    obtain ⟨hfr, hrest⟩ := List.forall_mem_cons.mp hframes
    have hn := htarget n target fr (by rw [frames]; rfl)
    exact ⟨List.forall_mem_cons.mpr ⟨⟨hfr.verified, Int.ofNat_le.mp hn⟩, hrest⟩, hdepth⟩
  | call found depth =>
    refine ⟨List.forall_mem_cons.mpr ⟨.enter ?_, hframes⟩, ?_⟩
    · exact htemplates _ (List.mem_of_find?_eq_some found)
    · rw [List.length_cons]
      omega
  | ret =>
    refine ⟨fun fr hfr ↦ hframes fr (List.mem_of_mem_tail hfr), ?_⟩
    rw [List.length_tail]
    omega

end

/-! ## Arrays within their limit -/

/-- No array has more than `n` cells. -/
def Store.ArraysWithin (n : Nat) (σ : Store) : Prop :=
  ∀ r cells, σ.get? r = some (.array cells) → cells.size ≤ n

theorem Store.arraysWithin_empty (n : Nat) : Store.empty.ArraysWithin n := by
  intro r cells hr
  obtain ⟨hone, hlt⟩ := Store.lt_next_of_get? hr
  have hnext : Store.empty.next = 1 := rfl
  omega

section
variable {n : Nat} {σ : Store}

theorem Store.ArraysWithin.add (h : σ.ArraysWithin n) {o : Obj}
    (ho : ∀ cells, o = .array cells → cells.size ≤ n) : (σ.add o).ArraysWithin n := by
  intro r cells hr
  by_cases heq : r = σ.next
  · subst heq
    rw [Store.get?_add_next] at hr
    exact ho cells (Option.some.inj hr)
  · rw [Store.get?_add_of_ne σ o heq] at hr
    exact h r cells hr

theorem Store.ArraysWithin.update (h : σ.ArraysWithin n) (r : Nat) {f : Obj → Obj}
    (hf : ∀ o cells, f o = .array cells → ∃ cells', o = .array cells' ∧ cells.size = cells'.size) :
    (σ.update r f).ArraysWithin n := by
  intro r' cells hr
  by_cases heq : r' = r
  · subst heq
    rw [Store.get?_update_self, Option.map_eq_some_iff] at hr
    obtain ⟨o, ho, hcells⟩ := hr
    obtain ⟨cells', rfl, hsize⟩ := hf o cells hcells
    rw [hsize]
    exact h r' cells' ho
  · rw [Store.get?_update_of_ne σ f heq] at hr
    exact h r' cells hr

theorem Store.ArraysWithin.setField (h : σ.ArraysWithin n) (r : Nat) (x : String) (v : Value) :
    (σ.setField r x v).ArraysWithin n := by
  refine h.update r fun o cells ho ↦ ?_
  cases o with
  | record fs => cases ho
  | array cells' =>
    cases ho
    exact ⟨_, rfl, rfl⟩

theorem Store.ArraysWithin.setCell (h : σ.ArraysWithin n) (r i : Nat) (v : Value) :
    (σ.setCell r i v).ArraysWithin n := by
  refine h.update r fun o cells ho ↦ ?_
  cases o with
  | record fs => cases ho
  | array cells' =>
    cases ho
    exact ⟨cells', rfl, Array.size_setIfInBounds⟩

theorem Op.Effect.arraysWithin {V : Value → Prop} {T : Template → Prop} {l : Limits}
    {vs : List Value} {op : Op} {m : Machine} (h : op.Effect V T σ l vs m)
    (hn : ∀ size, size ≤ l.cells → size < 2 ^ 31 → size ≤ n) (hσ : σ.ArraysWithin n) :
    m.store.ArraysWithin n := by
  cases h with
  | keep _ keeps =>
    rw [keeps.store]
    exact hσ
  | allocate new store =>
    rw [store]
    refine hσ.add fun cells ho ↦ ?_
    cases new with
    | record => cases ho
    | @array size _ _ cells =>
      cases ho
      have hword := size.toInt_lt
      rw [Array.size_replicate]
      exact hn _ cells (by omega)
  | setField _ _ _ store =>
    rw [store]
    exact hσ.setField _ _ _
  | setItem _ _ _ _ _ store =>
    rw [store]
    exact hσ.setCell _ _ _

end

theorem Machine.step_arraysWithin {m : Machine} {n : Nat}
    (hn : ∀ size, size ≤ m.limits.cells → size < 2 ^ 31 → size ≤ n) (h : m.store.ArraysWithin n) :
    m.step.2.store.ArraysWithin n := by
  rcases m.step_effect_true with ⟨-, hkeeps⟩ | ⟨op, -, -, heffect, -⟩
  · rw [hkeeps.store]
    exact h
  · exact heffect.arraysWithin hn h

/-! ## Machines in bounds -/

/-- The faults of code that has left its bounds. -/
def Fault.isStray : Fault → Bool
  | badJump _ | noFrame => true
  | _ => false

/-- The run has not ended with such a fault. -/
def Status.NotStray : Status → Prop
  | failed r => r.fault.isStray = false
  | _ => True

namespace Machine

/-- A machine with the limits `l`. All its code has been verified, its frames have not left their
code, and there are neither too many frames nor too large arrays. -/
structure InBounds (l : Limits) (m : Machine) : Prop where
  limits : m.limits = l
  templates : ∀ t ∈ m.templates, t.verify = .ok ()
  frames : ∀ fr ∈ m.frames, fr.InBounds
  depth : m.frames.length ≤ max 1 l.callDepth
  arrays : m.store.ArraysWithin l.cells

variable {l : Limits} {m m' : Machine}

/-- A machine whose frame has gone on to its next instruction. -/
theorem InBounds.begin (h : m.InBounds l) {fr : Frame} {frs : List Frame}
    (hfrs : m.frames = fr :: frs) {i : Instr} (hi : fr.template.instrs[fr.pc]? = some i)
    {w : World} (hw : w.store = m.store) (k : Nat) :
    (m.put (past fr :: frs) m.operands w k).InBounds l := by
  have hframes := h.frames
  have hdepth := h.depth
  rw [hfrs] at hframes hdepth
  obtain ⟨hfr, hrest⟩ := List.forall_mem_cons.mp hframes
  refine ⟨h.limits, h.templates, List.forall_mem_cons.mpr ⟨hfr.past hi, hrest⟩, hdepth, ?_⟩
  show w.store.ArraysWithin l.cells
  rw [hw]
  exact h.arrays

/-- An operation that succeeds, on a frame in which its target lies. -/
theorem InBounds.exec_ok {op : Op} (h : m.InBounds l) (hexec : op.exec m = .ok () m')
    (htarget : ∀ target, op.target? = some target → ∀ fr ∈ m.frames.head?,
      target ≤ fr.template.instrs.size)
    (harrays : m'.store.ArraysWithin l.cells) : m'.InBounds l := by
  have hdepth := h.depth
  rw [← h.limits] at hdepth
  have hcomes := op.comesTo m
  rw [hexec] at hcomes
  cases hcomes with
  | ok moves =>
    obtain ⟨hframes, hdepth⟩ := moves.inBounds h.templates h.frames htarget hdepth
    rw [h.limits] at hdepth
    exact ⟨h.limits, h.templates, hframes, hdepth, harrays⟩

/-- An operation that faults, on a machine that has a frame. -/
theorem InBounds.exec_error {op : Op} {e : Fault} (h : m.InBounds l)
    (hexec : op.exec m = .error e m') (htarget : ∀ target, op.target? = some target → 0 ≤ target)
    (hframe : m.frames ≠ []) (harrays : m'.store.ArraysWithin l.cells) :
    m'.InBounds l ∧ e.isStray = false := by
  have hcomes := op.comesTo m
  rw [hexec] at hcomes
  cases hcomes with
  | error raises =>
    -- A fault leaves the frames alone, so only its kind is in question.
    refine ⟨⟨h.limits, h.templates, h.frames, h.depth, harrays⟩, ?_⟩
    cases raises with
    | ofLocal hlocal => cases e <;> first | rfl | cases hlocal
    | noFrame hnone => exact absurd hnone hframe
    | badJump hop hneg => exact absurd (htarget _ hop) (Int.not_le.mpr hneg)
    | uninitialized | unresolved | depth => rfl

/-- A step stays in bounds, and does not come upon code that has left them. -/
theorem InBounds.step {st : Status} (h : m.InBounds l) (hstep : m.step = (st, m')) :
    m'.InBounds l ∧ st.NotStray := by
  have harrays : m'.store.ArraysWithin l.cells := by
    have harrays : m.step.2.store.ArraysWithin m.limits.cells :=
      step_arraysWithin (fun _ hsize _ ↦ hsize) (h.limits.symm ▸ h.arrays)
    rw [hstep, h.limits] at harrays
    exact harrays
  -- Jumps have been verified, so they go to an instruction of the frame or to its end.
  have htarget : ∀ {fr frs i}, m.frames = fr :: frs → fr.template.instrs[fr.pc]? = some i →
      ∀ target, i.op.target? = some target → 0 ≤ target ∧ target ≤ fr.template.instrs.size := by
    intro fr frs i hfrs hi target htarget
    have hfr := h.frames fr (hfrs ▸ List.mem_cons_self ..)
    exact Template.target_le_of_verify hfr.verified hi htarget
  have hinside : ∀ {fr frs i}, m.frames = fr :: frs → fr.template.instrs[fr.pc]? = some i →
      ∀ target, i.op.target? = some target → ∀ fr' ∈ (past fr :: frs).head?,
        target ≤ fr'.template.instrs.size := by
    intro fr frs i hfrs hi target ht fr' hfr'
    obtain rfl := Option.some.inj hfr'
    exact (htarget hfrs hi target ht).2
  cases stepped_of_step hstep with
  | finished => exact ⟨h, trivial⟩
  | exhausted frames instr => exact ⟨h.begin frames instr rfl _, rfl⟩
  | faulted frames instr exec =>
    exact (h.begin frames instr rfl _).exec_error exec
      (fun target ht ↦ (htarget frames instr target ht).1) (List.cons_ne_nil _ _) harrays
  | overflowed frames instr exec count =>
    exact ⟨(h.begin frames instr rfl _).exec_ok exec (hinside frames instr) harrays, rfl⟩
  | running frames instr exec count =>
    exact ⟨(h.begin frames instr rfl _).exec_ok exec (hinside frames instr) harrays, trivial⟩

/-- A run stays in bounds, and does not end with code that has left them. -/
theorem InBounds.runFor (h : m.InBounds l) (n : Nat) :
    (m.runFor n).2.InBounds l ∧ (m.runFor n).1.NotStray := by
  refine runFor_induction (P := InBounds l) (Q := fun st m' ↦ m'.InBounds l ∧ st.NotStray)
    (fun _ h ↦ ⟨h, trivial⟩) ?_ n m h
  intro m₁ h₁ st m₂ hstep
  split
  · exact (h₁.step hstep).1
  · exact h₁.step hstep

/-! ## Histories in bounds -/

theorem InBounds.reset (h : m.InBounds l) : m.reset.InBounds l :=
  ⟨h.limits, h.templates, fun _ hfr ↦ absurd hfr List.not_mem_nil, Nat.zero_le _, h.arrays⟩

/-- A run begins in bounds, whether there is a main function or not. -/
theorem InBounds.start (h : m.InBounds l) : m.start.2.InBounds l ∧ m.start.1.NotStray := by
  rw [Machine.start]
  cases ht : m.reset.template? "main" with
  | none => exact ⟨h.reset, rfl⟩
  | some t =>
    have hverify := h.templates t (List.mem_of_find?_eq_some ht)
    refine ⟨⟨h.limits, h.templates, List.forall_mem_singleton.mpr (.enter hverify), ?_, h.arrays⟩,
      trivial⟩
    exact Nat.le_max_left ..

theorem InBounds.runMain (h : m.InBounds l) (n : Nat) :
    (m.runMain n).2.InBounds l ∧ (m.runMain n).1.NotStray := by
  have hstart := h.start
  rw [Machine.runMain]
  rcases heq : m.start with ⟨st, m'⟩
  rw [heq] at hstart
  cases st with
  | running => exact hstart.1.runFor n
  | finished | failed => exact hstart

theorem perform_run (m : Machine) (n : Nat) : m.perform (.run n) = (m.runMain n).2 := by
  rw [perform, Machine.runMain]
  rcases m.start with ⟨st, m'⟩
  cases st <;> rfl

theorem InBounds.perform (h : m.InBounds l) (e : Event) : (m.perform e).InBounds l := by
  cases e with
  | register t =>
    rw [Machine.perform]
    rcases m.register_cases t with ⟨e, -, hreg⟩ | ⟨hverify, hreg⟩
    · rw [hreg]
      exact h
    · rw [hreg]
      refine ⟨h.limits, List.forall_mem_cons.mpr ⟨hverify, fun t' ht' ↦ ?_⟩, h.frames, h.depth,
        h.arrays⟩
      exact h.templates t' (List.mem_of_mem_filter ht')
  | trace on => exact ⟨h.limits, h.templates, h.frames, h.depth, h.arrays⟩
  | reset => exact h.reset
  | run n =>
    rw [perform_run]
    exact (h.runMain n).1

theorem InBounds.performAll (h : m.InBounds l) (events : List Event) :
    (m.performAll events).InBounds l := by
  induction events generalizing m with
  | nil => exact h
  | cons e events ih => exact ih (h.perform e)

theorem inBounds_fresh (l : Limits) (input : List UInt8) : (fresh l input).InBounds l := by
  exact ⟨rfl, fun _ ht ↦ absurd ht List.not_mem_nil, fun _ hfr ↦ absurd hfr List.not_mem_nil,
    Nat.zero_le _, Store.arraysWithin_empty _⟩

/-- While a run goes on, there are not too many operands. -/
theorem operands_of_runMain {n : Nat} (h : m.runMain n = (.running, m')) :
    m'.operands.length ≤ m'.limits.operands := by
  have hops := m.start_eq.2.2.1
  rw [Machine.runMain] at h
  rcases hstart : m.start with ⟨st, m₁⟩
  rw [hstart] at h hops
  cases st with
  | running =>
    refine operands_of_running ?_ h
    rw [hops]
    exact Nat.zero_le _
  | finished | failed => cases h

/-- **Safety of arbitrary code.** Let a machine have gone through any events, with any templates.
* While it runs, its templates and the code of its frames have passed verification, no frame stands
  behind the end of its code, and there are not too many frames or operands and no too large arrays.
* No run ends with a jump that goes nowhere or an operation without a frame.
* A template that is refused leaves the machine as it is. -/
theorem runs_stay_in_bounds (limits : Limits) (input : List UInt8) (events : List Event) :
    let m := (fresh limits input).performAll events
    (∀ n m', m.runMain n = (.running, m') →
      (∀ t ∈ m'.templates, t.verify = .ok ()) ∧
      (∀ fr ∈ m'.frames, fr.template.verify = .ok () ∧ fr.pc ≤ fr.template.instrs.size) ∧
      m'.frames.length ≤ max 1 limits.callDepth ∧
      m'.operands.length ≤ limits.operands ∧
      ∀ r cells, m'.store.get? r = some (.array cells) → cells.size ≤ limits.cells) ∧
    (∀ n r, (m.runMain n).1 = .failed r →
      (∀ target, r.fault ≠ .badJump target) ∧ r.fault ≠ .noFrame) ∧
    ∀ t e, (m.register t).1 = .error e →
      t.verify = .error e ∧ (m.register t).2 = m ∧
        m.registerAll [t] = (.error (.verify e), m) ∧ m.perform (.register t) = m := by
  intro m
  have hm : m.InBounds limits := (inBounds_fresh limits input).performAll events
  refine ⟨fun n m' hrun ↦ ?_, fun n r hrun ↦ ?_, fun t e hreg ↦ ?_⟩
  · have hin := (hm.runMain n).1
    have hoperands := operands_of_runMain hrun
    rw [hrun] at hin
    rw [hin.limits] at hoperands
    exact ⟨hin.templates, fun fr hfr ↦ ⟨(hin.frames fr hfr).verified, (hin.frames fr hfr).within⟩,
      hin.depth, hoperands, hin.arrays⟩
  · have hstray := (hm.runMain n).2
    rw [hrun] at hstray
    refine ⟨fun target hfault ↦ ?_, fun hfault ↦ ?_⟩
    · rw [Status.NotStray, hfault] at hstray
      cases hstray
    · rw [Status.NotStray, hfault] at hstray
      cases hstray
  · rcases m.register_cases t with ⟨e', hverify, heq⟩ | ⟨-, heq⟩
    · rw [heq] at hreg
      obtain rfl : e' = e := Except.error.inj hreg
      rw [registerAll, Machine.perform, heq]
      exact ⟨hverify, rfl, rfl, rfl⟩
    · rw [heq] at hreg
      cases hreg

end Machine

end Pebble
