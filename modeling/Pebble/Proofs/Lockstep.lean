import Mathlib.Data.Option.Basic
import Mathlib.Data.List.Forall2
import Pebble.Proofs.Grafting

/-!
# Machines in lockstep

Two machines are *alike* if they have the same operands, world and limits and their frames are
related one by one. An operation that does not jump takes alike machines to alike machines, or
faults on both in the same way, whatever the frames are as long as related frames have the same
slots.

## The construction

`Follows` relates two actions: from alike machines, both succeed with the same answer or both fault
alike, and leave alike machines behind. Alike machines are one machine grafted onto two hosts, so an
operation on operands follows itself by what is known of grafting. The others need a look at the
frames.
-/

namespace Pebble

/-- Machines that differ in their code and in how far they have counted. Frames are related by `F`,
and so are the frames that a call enters. -/
structure Machine.Alike (F : Frame → Frame → Prop) (m m' : Machine) : Prop where
  operands : m'.operands = m.operands
  world : m'.world = m.world
  limits : m'.limits = m.limits
  frames : List.Forall₂ F m.frames m'.frames
  templates : ∀ x, Option.Rel (fun t t' ↦ F (.enter t) (.enter t')) (m.template? x) (m'.template? x)
  untraced : m.tracing = false
  untraced' : m'.tracing = false
  steps : m'.steps ≤ m.steps

/-- Both sides have succeeded with the same answer, or faulted alike. -/
inductive Outcomes (F : Frame → Frame → Prop) {α : Type} :
    EStateM.Result Fault Machine α → EStateM.Result Fault Machine α → Prop where
  | ok (a : α) {m m' : Machine} (h : m.Alike F m') : Outcomes F (.ok a m) (.ok a m')
  | error {e e' : Fault} {m m' : Machine} (he : e'.untargeted = e.untargeted)
      (h : m.Alike F m') : Outcomes F (.error e m) (.error e' m')

/-- On alike machines both actions come to the same. -/
def Follows (F : Frame → Frame → Prop) {α : Type} (x y : Exec α) : Prop :=
  ∀ m m', m.Alike F m' → Outcomes F (x m) (y m')

section
variable {F : Frame → Frame → Prop}

/-- Alike machines with other operands and related frames on top. -/
theorem Machine.Alike.putTop {m m' : Machine} {fr fr' : Frame} {frs frs' : List Frame}
    (h : m.Alike F m') (hm : m.frames = fr :: frs) (hm' : m'.frames = fr' :: frs')
    {g g' : Frame} (hg : F g g') (vs : List Value) :
    (m.put (g :: frs) vs m.world m.steps).Alike F
      (m'.put (g' :: frs') vs m'.world m'.steps) := by
  have hframes := h.frames
  rw [hm, hm'] at hframes
  exact { h with operands := rfl, frames := .cons hg (List.forall₂_cons.mp hframes).2 }

/-! ## Operations -/

section
variable (hslots : ∀ fr fr', F fr fr' → fr'.slots = fr.slots)
  (hstore : ∀ fr fr' slot v, F fr fr' → F (fr.store slot v) (fr'.store slot v))

/-- Of two alike machines the first can be put onto the second, with the second as the result, so an
operation that works on operands alone does on the second what it does on the first. -/
theorem Follows.action {op : Op} (hop : op.isAction = true) : Follows F op.exec op.exec := by
  intro m m' h
  have hgraft : m'.bare.mute.graft m = m' := by
    rw [Machine.bare_mute_graft, ← h.operands, ← h.world, Machine.put_self]
  have hgrafted : Grafted m'.bare.mute id (op.exec m) (op.exec (m'.bare.mute.graft m)) :=
    Op.grafted_of_limits hop (fun v _ ↦ v.shift_zero) (fun _ v _ ↦ v.shift_zero) h.limits
  rw [hgraft] at hgrafted
  obtain ⟨vs, w, -, hexec | ⟨e, -, hexec⟩⟩ := Op.exec_isAction hop m
  · rw [hexec] at hgrafted ⊢
    rw [hgrafted.of_ok, Machine.bare_mute_graft]
    exact .ok () { h with operands := rfl, world := rfl }
  · have hshift : e.shift m'.bare.mute.offset = e := e.shift_zero
    rw [hexec] at hgrafted ⊢
    rw [hgrafted.of_error, Machine.bare_mute_graft, hshift]
    exact .error rfl { h with operands := rfl, world := rfl }

include hslots in
theorem Follows.load (slot : Nat) : Follows F (Op.load slot).exec (Op.load slot).exec := by
  intro m m' h
  have hframes := h.frames
  rw [Op.load_eq, Op.load_eq]
  generalize m.frames = frs, m'.frames = frs' at hframes
  cases hframes with
  | nil => exact .error rfl h
  | cons hfr _ =>
    simp only [Frame.load, hslots _ _ hfr]
    split
    · next v _ => exact .ok () { h with operands := congrArg (v :: ·) h.operands }
    · exact .error rfl h

include hstore in
theorem Follows.store (slot : Nat) : Follows F (Op.store slot).exec (Op.store slot).exec := by
  intro m m' h
  have hframes := h.frames
  rw [Op.store_eq, Op.store_eq, h.operands]
  generalize m.frames = frs, m'.frames = frs' at hframes
  cases m.operands with
  | nil => exact .error rfl h
  | cons v vs =>
    cases hframes with
    | nil => exact .error rfl { h with operands := rfl }
    | cons hfr hrest =>
      exact .ok () { h with operands := rfl, frames := .cons (hstore _ _ slot v hfr) hrest }

theorem Follows.call (x : String) : Follows F (Op.call x).exec (Op.call x).exec := by
  intro m m' h
  have hlength : m'.frames.length = m.frames.length := h.frames.length_eq.symm
  have ht := h.templates x
  rw [Op.call_eq, Op.call_eq, hlength, h.limits]
  generalize m.template? x = t, m'.template? x = t' at ht
  cases ht with
  | none => exact .error rfl h
  | some henter =>
    by_cases hdepth : m.limits.callDepth ≤ m.frames.length
    · simp only [if_pos hdepth]
      exact .error rfl h
    · simp only [if_neg hdepth]
      exact .ok () { h with frames := .cons henter h.frames }

theorem Follows.ret : Follows F Op.ret.exec Op.ret.exec := by
  intro m m' h
  have htail : List.Forall₂ F m.frames.tail m'.frames.tail := by
    have hframes := h.frames
    generalize m.frames = frs, m'.frames = frs' at hframes
    cases hframes with
    | nil => exact .nil
    | cons _ hrest => exact hrest
  have hback : handedBack m'.frames.tail m'.operands = handedBack m.frames.tail m.operands := by
    rw [h.operands]
    generalize m.frames.tail = frs, m'.frames.tail = frs' at htail
    cases htail with
    | nil | cons => rfl
  rw [Op.ret_eq, Op.ret_eq]
  exact .ok () { h with operands := hback, frames := htail }

include hslots hstore in
/-- An operation that does not jump does the same on alike machines. -/
theorem Op.follows {op : Op} (hop : op.target? = none) : Follows F op.exec op.exec := by
  cases haction : op.isAction with
  | true => exact .action haction
  | false =>
    cases op with
    | load slot => exact .load hslots slot
    | store slot => exact .store hstore slot
    | call x => exact .call x
    | ret => exact .ret
    | jump target | jumpUnless target => cases hop
    | _ => cases haction

end

/-! ## Steps -/

/-- Two runs that go on from alike machines, or have ended alike: both normally, or both with the
same fault in frames of the same name. -/
inductive InStep (F : Frame → Frame → Prop) : Status × Machine → Status × Machine → Prop where
  | running {m m' : Machine} (h : m.Alike F m') : InStep F (.running, m) (.running, m')
  | finished {m m' : Machine} (h : m.Alike F m') : InStep F (.finished, m) (.finished, m')
  | failed {r r' : FaultReport} {m m' : Machine} (hfault : r'.fault.untargeted = r.fault.untargeted)
      (hsite : r'.site.map (·.template) = r.site.map (·.template)) (h : m.Alike F m') :
      InStep F (.failed r, m) (.failed r', m')

theorem InStep.running_inv {r r' : Status × Machine} (h : InStep F r r') (hr : r.1 = .running) :
    ∃ m m', r = (.running, m) ∧ r' = (.running, m') ∧ m.Alike F m' := by
  cases h with
  | running h => exact ⟨_, _, rfl, rfl, h⟩
  | finished h => cases hr
  | failed _ _ h => cases hr

/-- The faults of a run that has used up its steps or its operands. -/
def Fault.isExhaustion : Fault → Bool
  | stackOverflow _ | stepLimit _ => true
  | _ => false

/-- The run has used up its steps or its operands. -/
def Status.IsExhausted : Status → Prop
  | failed r => r.fault.isExhaustion = true
  | _ => False

/-- The second machine has taken no more steps, so it may take one if the first one may. -/
theorem Machine.Alike.steps_left {m m' : Machine} (h : m.Alike F m')
    (hlimit : m.limits.steps.filter (· ≤ m.steps) = none) :
    m'.limits.steps.filter (· ≤ m'.steps) = none := by
  rw [h.limits]
  rw [Option.filter_eq_none_iff] at hlimit ⊢
  intro limit hmem
  have hlt := hlimit limit hmem
  have := h.steps
  simp only [decide_eq_true_eq] at hlt ⊢
  omega

/-- Two instructions that come to the same are a step in which the runs keep in step, unless the
first uses up its steps or operands. -/
theorem Machine.Alike.step {m m' : Machine} {fr fr' : Frame} {frs frs' : List Frame}
    {i i' : Instr} (h : m.Alike F m') (hm : m.frames = fr :: frs) (hm' : m'.frames = fr' :: frs')
    (hi : fr.template.instrs[fr.pc]? = some i) (hi' : fr'.template.instrs[fr'.pc]? = some i')
    (hname : fr'.template.name = fr.template.name) (hpast : F (past fr) (past fr'))
    (hop : ∀ m₁ m₁' : Machine, m₁.Alike F m₁' → m₁.frames = past fr :: frs →
      m₁'.frames = past fr' :: frs' → Outcomes F (i.op.exec m₁) (i'.op.exec m₁')) :
    m.step.1.IsExhausted ∨ InStep F m.step m'.step := by
  have hstep : (m.put (fr :: frs) m.operands m.world m.steps).step = _ := step_put h.untraced hi
  have hstep' : (m'.put (fr' :: frs') m'.operands m'.world m'.steps).step = _ :=
    step_put h.untraced' hi'
  rw [put_self_of_frames hm] at hstep
  rw [put_self_of_frames hm'] at hstep'
  -- The second run has taken no more steps than the first, so it has steps left if the first has.
  cases hlimit : m.limits.steps.filter (· ≤ m.steps) with
  | some limit =>
    refine .inl ?_
    rw [hstep, hlimit]
    rfl
  | none =>
    have hlimit' := h.steps_left hlimit
    rw [hlimit] at hstep
    rw [hlimit'] at hstep'
    have hframes := h.frames
    rw [hm, hm'] at hframes
    have hbegun : Machine.Alike F (m.put (past fr :: frs) m.operands m.world (m.steps + 1))
        (m'.put (past fr' :: frs') m'.operands m'.world (m'.steps + 1)) :=
      ⟨h.operands, h.world, h.limits, .cons hpast (List.forall₂_cons.mp hframes).2, h.templates,
        h.untraced, h.untraced', Nat.succ_le_succ h.steps⟩
    have hexec := hop _ _ hbegun rfl rfl
    generalize i.op.exec (m.put (past fr :: frs) m.operands m.world (m.steps + 1)) = r
      at hexec hstep
    generalize i'.op.exec (m'.put (past fr' :: frs') m'.operands m'.world (m'.steps + 1)) = r'
      at hexec hstep'
    cases hexec with
    | error he h₁ =>
      rw [hstep, hstep']
      exact .inr (.failed he (congrArg some hname) h₁)
    | @ok _ m₁ m₁' h₁ =>
      by_cases hover : m₁.limits.operands < m₁.operands.length
      · simp only [if_pos hover] at hstep
        refine .inl ?_
        rw [hstep]
        rfl
      · have hover' : ¬ m₁'.limits.operands < m₁'.operands.length := by
          rw [h₁.limits, h₁.operands]
          exact hover
        simp only [if_neg hover] at hstep
        simp only [if_neg hover'] at hstep'
        rw [hstep, hstep']
        exact .inr (.running h₁)

end

end Pebble
