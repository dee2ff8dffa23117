import Pebble.Proofs.FoldedTypes
import Pebble.Proofs.MachineTypes
import Pebble.Proofs.Starting

/-!
# Type soundness

A program that has been checked runs through well-typed states only: from a well-typed state, a
step leads to a well-typed state, ends the run, or faults in one of the expected ways. By induction
this holds of whole runs.

## Which states are well typed

The innermost frame stands at a spot that says what its slots and operands are. Each frame below it
waits for the result of a call, so it stands at a spot where a value of the result type of the
callee is pending, and owns the operands below that value.

A fault leaves the state of the last instruction behind, from which the operands it had taken are
gone. Such a state is *interrupted*: store and slots are those of a well-typed state.
-/

namespace Pebble

/-! ## States -/

/-- The frame `fr` runs the function `f`, stands at the spot `a`, and its slots are as `a`
says. -/
structure Frame.At (p : Program) (Ψ : StoreTy) (fr : Frame) (f : FunDef) (a : Spot) : Prop where
  mem : f ∈ p.functions
  code : f.code p = .ok fr.template
  spot : (f.spots p)[fr.pc]? = some a
  slots : SlotsTyped Ψ a.scopes.bindings fr.slots

/-- Frames that wait for a value of type `t`, with the operands that they own. -/
inductive Waiting (p : Program) (Ψ : StoreTy) : Ty → List Frame → List Value → Prop where
  /-- Nobody waits for the value of the first function. -/
  | nobody (t : Ty) : Waiting p Ψ t [] []
  | caller {t : Ty} {fr : Frame} {frs : List Frame} {f : FunDef} {s : Scopes} {ps : List Pending}
      {own rest : List Value} (stands : fr.At p Ψ f ⟨s, .val t :: ps⟩)
      (operands : OperandsTyped Ψ own ps) (below : Waiting p Ψ f.resultType frs rest) :
      Waiting p Ψ t (fr :: frs) (own ++ rest)

/-- The active frames with all operands. -/
inductive StackTyped (p : Program) (Ψ : StoreTy) : List Frame → List Value → Prop where
  /-- The first function has returned. -/
  | ended : StackTyped p Ψ [] []
  | active {fr : Frame} {frs : List Frame} {f : FunDef} {a : Spot} {own rest : List Value}
      (stands : fr.At p Ψ f a) (operands : OperandsTyped Ψ own a.pending)
      (below : Waiting p Ψ f.resultType frs rest) : StackTyped p Ψ (fr :: frs) (own ++ rest)

namespace Machine

/-- A state in which everything is of its static type. -/
structure WellTyped (p : Program) (m : Machine) : Prop where
  linked : m.Linked p
  typed : ∃ Ψ, m.store.Typed p Ψ ∧ StackTyped p Ψ m.frames m.operands

/-- A well-typed state in which the execution of an instruction has begun: operands may have been
taken, and nothing else has happened yet. -/
def Interrupted (p : Program) (m : Machine) : Prop :=
  ∃ m₀ : Machine, m₀.WellTyped p ∧ m.store = m₀.store ∧ m.frames = m₀.advance.frames ∧
    m.operands <:+ m₀.operands

end Machine

section
variable {p : Program} {Ψ Ψ' : StoreTy}

theorem Frame.At.mono {fr : Frame} {f : FunDef} {a : Spot} (hg : Ψ.Grows Ψ')
    (h : fr.At p Ψ f a) : fr.At p Ψ' f a :=
  ⟨h.mem, h.code, h.spot, h.slots.mono hg⟩

theorem Waiting.mono {t : Ty} {frs : List Frame} {vs : List Value} (hg : Ψ.Grows Ψ')
    (h : Waiting p Ψ t frs vs) : Waiting p Ψ' t frs vs := by
  induction h with
  | nobody t => exact .nobody t
  | caller stands operands _ ih => exact .caller (stands.mono hg) (operands.mono hg) ih

/-- A frame goes on where the spot can be entered. -/
theorem Frame.At.enter {fr : Frame} {f : FunDef} {a b : Spot} {slots : Array Value} {n : Nat}
    (h : fr.At p Ψ f a) (henter : Enters (f.spots p) n b)
    (hslots : SlotsTyped Ψ' b.scopes.bindings slots) :
    ∃ c, Frame.At p Ψ' ⟨fr.template, slots, n⟩ f c ∧ c.pending = b.pending := by
  obtain ⟨c, hc, hpending, hsuffix⟩ := henter
  exact ⟨c, ⟨h.mem, h.code, hc, hslots.of_suffix hsuffix⟩, hpending.symm⟩

/-- The next instruction of a frame leads on from where the frame stands. -/
theorem Frame.At.leads (hp : p.Checked) {fr : Frame} {f : FunDef} {a : Spot} {i : Instr}
    (h : fr.At p Ψ f a) (hi : fr.template.instrs[fr.pc]? = some i) :
    i.op.Leads p f (f.spots p) fr.pc a := by
  obtain ⟨-, hleads⟩ := FunDef.leads hp (hp.functions f h.mem) h.code
  obtain ⟨a', ha', hlead⟩ := hleads fr.pc i (by rw [Array.getElem?_toList]; exact hi)
  rw [Nat.zero_add] at ha' hlead
  obtain rfl : a = a' := Option.some.inj (h.spot.symm.trans ha')
  exact hlead

/-! ## One instruction -/

/-- What an instruction comes to. -/
def ExecTyped (p : Program) : EStateM.Result Fault Machine Unit → Prop
  | .ok _ m => m.WellTyped p
  | .error e m => e.isExpected = true ∧ m.Interrupted p

variable {m : Machine} {fr : Frame} {frs : List Frame} {f : FunDef} {a b : Spot}
  {own rest : List Value} {w : World} {k : Nat}

theorem interrupted {own' : List Value} {w' : World} {k' : Nat} (hlink : m.Linked p)
    (hσ : w.store.Typed p Ψ) (stands : fr.At p Ψ f a) (operands : OperandsTyped Ψ own a.pending)
    (below : Waiting p Ψ f.resultType frs rest) (hw : w'.store = w.store)
    (hown : own' <:+ own) :
    (m.put (Machine.past fr :: frs) (own' ++ rest) w' k').Interrupted p := by
  refine ⟨m.put (fr :: frs) (own ++ rest) w k', ⟨hlink.put .., Ψ, hσ, .active stands operands
    below⟩, hw, rfl, ?_⟩
  obtain ⟨taken, rfl⟩ := hown
  exact ⟨taken, (List.append_assoc ..).symm⟩

/-- A frame goes on at a spot that can be entered. -/
theorem wellTyped_enter (m : Machine) (fr : Frame) {n : Nat} {slots : Array Value}
    (hlink : m.Linked p) (hg : Ψ.Grows Ψ') (hσ : w.store.Typed p Ψ') (stands : fr.At p Ψ f a)
    (henter : Enters (f.spots p) n b) (hslots : SlotsTyped Ψ' b.scopes.bindings slots)
    (operands : OperandsTyped Ψ' own b.pending) (below : Waiting p Ψ f.resultType frs rest) :
    (m.put (⟨fr.template, slots, n⟩ :: frs) (own ++ rest) w k).WellTyped p := by
  obtain ⟨c, hc, hpending⟩ := stands.enter henter hslots
  exact ⟨hlink.put .., Ψ', hσ, .active hc (hpending ▸ operands) (below.mono hg)⟩

/-- A call finds the arguments on the stack and leaves a frame that waits for its value. -/
theorem execTyped_call (hp : p.Checked) {x : String} {g : FunDef} {s : Scopes}
    {ps : List Pending} {ts : List Ty} (hlink : m.Linked p) (hσ : w.store.Typed p Ψ)
    (stands : fr.At p Ψ f ⟨s, ts.map .val ++ ps⟩)
    (operands : OperandsTyped Ψ own (ts.map .val ++ ps))
    (below : Waiting p Ψ f.resultType frs rest) (hg : p.function? x = some g)
    (hargs : List.Forall₂ (fun t (v : VarDef) ↦ Ty.fits t (.ofRef v.type) = true) ts g.params)
    (henter : Enters (f.spots p) (fr.pc + 1) ⟨s, .val g.resultType :: ps⟩) :
    ExecTyped p ((Op.call x).exec (m.put (Machine.past fr :: frs) (own ++ rest) w k)) := by
  obtain ⟨t, ht, hcode⟩ := hlink.templates x g hg
  rw [Op.exec_call ht]
  split
  · exact ⟨rfl, interrupted hlink hσ stands operands below rfl (List.suffix_refl _)⟩
  · obtain ⟨args, own', rfl, hargs, hown⟩ := operands.params hargs
    obtain ⟨⟨s', ps'⟩, hcaller, hpending⟩ := stands.enter henter stands.slots
    subst hpending
    have hmem := (Program.function?_some hg).1
    obtain ⟨⟨c, hc, hparams, hsuffix⟩, -⟩ := FunDef.leads hp (hp.functions g hmem) hcode
    have hslots : SlotsTyped Ψ c.scopes.bindings #[] := (SlotsTyped.nil Ψ #[]).of_suffix hsuffix
    rw [List.append_assoc]
    refine ⟨hlink.put .., Ψ, hσ, .active ⟨hmem, hcode, hc, hslots⟩ (hparams ▸ hargs) ?_⟩
    exact .caller hcaller hown below

/-- A return hands its value to the frame that waits for it. -/
theorem execTyped_ret {t : Ty} (hlink : m.Linked p) (hσ : w.store.Typed p Ψ)
    (operands : OperandsTyped Ψ own [.val t]) (below : Waiting p Ψ f.resultType frs rest)
    (hfit : t.fits f.resultType = true) :
    ExecTyped p (Op.ret.exec (m.put (fr :: frs) (own ++ rest) w k)) := by
  obtain ⟨v, vs, rfl, hv, hnil⟩ := operands.val_inv
  cases hnil
  cases below with
  | nobody => exact ⟨hlink.put .., Ψ, hσ, .ended⟩
  | caller stands operands below =>
    exact ⟨hlink.put .., Ψ, hσ, .active stands (.val (hv.of_fits hfit) operands) below⟩

theorem execTyped_jumpUnless {n : Nat} {s : Scopes} {ps : List Pending} (hlink : m.Linked p)
    (hσ : w.store.Typed p Ψ) (stands : fr.At p Ψ f ⟨s, .val .bool :: ps⟩)
    (operands : OperandsTyped Ψ own (.val .bool :: ps))
    (below : Waiting p Ψ f.resultType frs rest)
    (hnext : Enters (f.spots p) (fr.pc + 1) ⟨s, ps⟩) (hjump : Enters (f.spots p) n ⟨s, ps⟩) :
    ExecTyped p ((Op.jumpUnless n).exec (m.put (Machine.past fr :: frs) (own ++ rest) w k)) := by
  obtain ⟨v, vs, rfl, hv, hown⟩ := operands.val_inv
  rw [List.cons_append, Op.exec_jumpUnless]
  cases hv with
  | null => exact ⟨rfl, interrupted hlink hσ stands operands below rfl (List.suffix_cons _ _)⟩
  | bool c =>
    cases c with
    | true =>
      exact wellTyped_enter m fr hlink (.refl Ψ) hσ stands hnext stands.slots hown below
    | false =>
      exact wellTyped_enter m fr hlink (.refl Ψ) hσ stands hjump stands.slots hown below

/-- An instruction of a checked function, executed in a well-typed state. -/
theorem execTyped (hp : p.Checked) {i : Instr} (hlink : m.Linked p) (hσ : w.store.Typed p Ψ)
    (stands : fr.At p Ψ f a) (operands : OperandsTyped Ψ own a.pending)
    (below : Waiting p Ψ f.resultType frs rest) (hi : fr.template.instrs[fr.pc]? = some i) :
    ExecTyped p (i.op.exec (m.put (Machine.past fr :: frs) (own ++ rest) w k)) := by
  have hlead := stands.leads hp hi
  generalize i.op = op at hlead ⊢
  cases hlead with
  | jump henter =>
    exact wellTyped_enter m fr hlink (.refl Ψ) hσ stands henter stands.slots
      operands below
  | jumpUnless hnext henter =>
    exact execTyped_jumpUnless hlink hσ stands operands below hnext henter
  | ret hfit => exact execTyped_ret hlink hσ operands below hfit
  | @next _ _ b hflow hnext =>
    by_cases hcall : ∃ x, op = .call x
    · obtain ⟨x, rfl⟩ := hcall
      cases hflow with
      | call hg hargs => exact execTyped_call hp hlink hσ stands operands below hg hargs hnext
    · have hslots : SlotsTyped Ψ a.scopes.bindings (Machine.past fr).slots := stands.slots
      have hexec := hflow.exec hp (fun x hx ↦ hcall ⟨x, hx⟩) hσ hslots operands m frs rest k
      generalize op.exec (m.put (Machine.past fr :: frs) (own ++ rest) w k) = r at hexec ⊢
      cases hexec with
      | done hgrow hσ' hslots hown =>
        exact wellTyped_enter m fr hlink hgrow hσ' stands hnext hslots hown below
      | fault hexpected hstore hown =>
        exact ⟨hexpected, interrupted hlink hσ stands operands below hstore hown⟩

/-! ## Runs -/

/-- How a run of a checked program can stand: its state is well typed, or it has faulted in an
expected way. -/
def Machine.Sound (p : Program) : Status → Machine → Prop
  | .running, m | .finished, m => m.WellTyped p
  | .failed r, m => r.fault.isExpected = true ∧ (m.WellTyped p ∨ m.Interrupted p)

/-- A step from a well-typed state. -/
theorem Machine.WellTyped.step (hp : p.Checked) {st : Status} {m' : Machine}
    (h : m.WellTyped p) (hstep : m.step = (st, m')) : m'.Sound p st := by
  obtain ⟨hlink, Ψ, hσ, hstack⟩ := id h
  cases hfrs : m.frames with
  | nil =>
    have hsite : m.site? = none := by rw [site?, hfrs]
    rw [Machine.step, hsite] at hstep
    cases hstep
    exact h
  | cons fr frs =>
    cases hi : fr.template.instrs[fr.pc]? with
    | none =>
      have hsite : m.site? = none := by rw [site?, hfrs]; simp [hi]
      rw [Machine.step, hsite] at hstep
      cases hstep
      exact h
    | some i =>
      rw [← m.put_self, hfrs, step_put hlink.untraced hi] at hstep
      rw [hfrs] at hstack
      generalize hvs : m.operands = vs at hstack hstep
      cases hstack with
      | active stands operands below =>
        have hexec := execTyped hp (k := m.steps + 1) (w := m.world) hlink hσ stands operands
          below hi
        generalize m.limits.steps.filter (· ≤ m.steps) = reached at hstep
        cases reached with
        | some limit =>
          cases hstep
          -- The frame has moved on, but the instruction has not been executed.
          exact ⟨rfl, .inr (interrupted (w := m.world) hlink hσ stands operands below rfl
            (List.suffix_refl _))⟩
        | none =>
          simp only at hstep
          generalize i.op.exec _ = r at hexec hstep
          cases r with
          | error e m₁ =>
            cases hstep
            exact ⟨hexec.1, .inr hexec.2⟩
          | ok _ m₁ =>
            by_cases hcount : m₁.limits.operands < m₁.operands.length
            · simp only [if_pos hcount] at hstep
              cases hstep
              exact ⟨rfl, .inl hexec⟩
            · simp only [if_neg hcount] at hstep
              cases hstep
              exact hexec

/-- A run from a well-typed state, of any number of steps. -/
theorem Machine.WellTyped.runFor (hp : p.Checked) (h : m.WellTyped p) (n : Nat) :
    (m.runFor n).2.Sound p (m.runFor n).1 := by
  refine runFor_induction (P := fun m ↦ m.WellTyped p) (Q := fun st m ↦ m.Sound p st)
    (fun _ hm ↦ hm) (fun m hm st m' hstep ↦ ?_) n m h
  have hsound := hm.step hp hstep
  by_cases hst : st = .running
  · rw [if_pos hst]
    subst hst
    exact hsound
  · rw [if_neg hst]
    exact hsound

/-! ## Whole programs -/

theorem Store.typed_empty (p : Program) : Store.empty.Typed p fun _ ↦ none where
  typed r τ h := by cases h
  covers r o h := by
    cases r with
    | zero => cases h
    | succ n => simp [Store.get?, Store.empty] at h

/-- The state in which a checked program begins. -/
theorem Program.Checked.wellTyped_start (hp : p.Checked) {ts : List Template}
    (hcode : p.code = .ok ts) (limits : Limits) (input : List UInt8) :
    ∃ m, (Machine.fresh limits input).startTemplates ts = (.ok (), m) ∧ m.WellTyped p := by
  obtain ⟨m, f, t, hlink, -, hmain, hf, hstart⟩ := hp.startTemplates hcode limits input
  obtain ⟨hmem, hname⟩ := Program.function?_some hmain
  obtain ⟨hcheckMain, -⟩ := FunDef.check_eq_ok (hp.functions f hmem)
  obtain ⟨⟨a, ha, hpending, hsuffix⟩, -⟩ := FunDef.leads hp (hp.functions f hmem) hf
  rw [FunDef.params_of_main hcheckMain hname] at hpending
  have hslots : SlotsTyped (fun _ ↦ none) a.scopes.bindings #[] :=
    (SlotsTyped.nil _ #[]).of_suffix hsuffix
  have hoperands : OperandsTyped (fun _ ↦ none) [] a.pending := hpending ▸ .nil
  exact ⟨_, hstart, hlink.put .., _, Store.typed_empty p,
    .active ⟨hmem, hf, ha, hslots⟩ hoperands (.nobody _)⟩

/-- The program that the templates of a source text are the code of. -/
theorem compileSource_eq_ok {folding : Bool} {source : String} {ts : List Template}
    (h : compileSource folding source = .ok ts) :
    ∃ p, analyzeSource folding source = .ok p ∧ p.Checked ∧ p.code = .ok ts := by
  simp only [compileSource, bind_eq_ok, mapError_eq_ok] at h
  obtain ⟨p, hp, hcode⟩ := h
  refine ⟨p, hp, ?_, hcode⟩
  simp only [analyzeSource, bind_eq_ok, pure_eq_ok, mapError_eq_ok] at hp
  obtain ⟨q, -, _, hcheck, rfl⟩ := hp
  have hq := Program.checked_of_check hcheck
  cases folding with
  | true => exact hq.folded
  | false => exact hq

/-- **Type soundness.** The templates of a source text can be started on a fresh machine, whatever its
limits and input, and however long the run goes on, its state is well typed, or it has faulted in one
of the expected ways. A counter of 32 bits hands out the references of the store for fewer than
`2 ^ 32 - 1` objects, so for such a counter this speaks of runs with fewer allocations than that. -/
theorem compileSource_sound {folding : Bool} {source : String} {ts : List Template}
    (h : compileSource folding source = .ok ts) (limits : Limits) (input : List UInt8) :
    ∃ p m, analyzeSource folding source = .ok p ∧
      (Machine.fresh limits input).startTemplates ts = (.ok (), m) ∧
      ∀ n, (m.runFor n).2.Sound p (m.runFor n).1 := by
  obtain ⟨p, hp, hchecked, hcode⟩ := compileSource_eq_ok h
  obtain ⟨m, hstart, hwell⟩ := hchecked.wellTyped_start hcode limits input
  exact ⟨p, m, hp, hstart, fun n ↦ hwell.runFor hchecked n⟩

/-- A program that builds a record and changes it for ever. -/
theorem compileSource_sound_loop :
    ∃ ts, compileSource true
        ("struct S \x7b v: int \x7d void main() \x7b " ++
          "var s = new S(2 + 3) while true \x7b s.v = s.v / 2 \x7d \x7d") = .ok ts ∧
      ∃ p m, (Machine.fresh .standard []).startTemplates ts = (.ok (), m) ∧
        ∀ n, (m.runFor n).2.Sound p (m.runFor n).1 := by
  have hok : (compileSource true
      ("struct S \x7b v: int \x7d void main() \x7b " ++
        "var s = new S(2 + 3) while true \x7b s.v = s.v / 2 \x7d \x7d")).isOk = true := by
    decide +kernel
  obtain ⟨ts, h⟩ := eq_ok_of_isOk hok
  obtain ⟨p, m, -, hstart, hsound⟩ := compileSource_sound h .standard []
  exact ⟨ts, h, p, m, hstart, hsound⟩

end

end Pebble
