import Pebble.Proofs.Grafting

/-!
# Running on a host

A machine can be put onto a host with its frames and its count of steps. The host brings templates
and limits of its own, and objects and output from before. If it knows all templates that the
machine knows and its limits are no narrower, the run goes on there as it would have at home, up to
the renaming of references. It can differ only where the run at home is cut short, by a limit that
is wider on the host or by the lack of a template that only the host has.

## The construction

`Machine.onto` is a function, so one step of the run on the host is the image of one step at home
(`Machine.step_onto`), and what the runs have in common follows by applying that function.
-/

namespace Pebble

/-! ## What a step leaves alone -/

namespace Machine

/-- What a step leaves alone. -/
structure Continues (m m' : Machine) : Prop where
  templates : m'.templates = m.templates
  limits : m'.limits = m.limits
  tracing : m'.tracing = m.tracing
  output : ∃ s, m'.output = m.output ++ s

theorem Continues.refl (m : Machine) : m.Continues m :=
  ⟨rfl, rfl, rfl, "", String.append_empty.symm⟩

theorem Continues.trans {m m' m'' : Machine} (h : m.Continues m') (h' : m'.Continues m'') :
    m.Continues m'' := by
  obtain ⟨s, hs⟩ := h.output
  obtain ⟨s', hs'⟩ := h'.output
  refine ⟨h'.templates.trans h.templates, h'.limits.trans h.limits, h'.tracing.trans h.tracing,
    s ++ s', ?_⟩
  rw [hs', hs, String.append_assoc]

theorem continues_advance (m : Machine) : m.Continues m.advance := by
  rw [advance]
  split
  · exact .refl m
  · exact ⟨rfl, rfl, rfl, "", String.append_empty.symm⟩

theorem continues_begun (m : Machine) (site : Site) : m.Continues (m.begun site) := by
  have htraced : m.advance.Continues (m.advance.traced site) := by
    rw [traced]
    split
    · exact ⟨rfl, rfl, rfl, _, rfl⟩
    · exact .refl _
  exact m.continues_advance.trans
    ⟨htraced.templates, htraced.limits, htraced.tracing, htraced.output⟩

end Machine

theorem Op.continues_exec (op : Op) (m : Machine) :
    match op.exec m with
    | .ok _ m' | .error _ m' => m.Continues m' := by
  have hcomes := op.comesTo m
  generalize op.exec m = r at hcomes
  cases hcomes with
  | ok _ output => exact ⟨rfl, rfl, rfl, output⟩
  | error _ output => exact ⟨rfl, rfl, rfl, output⟩

namespace Machine

/-- What has been written when an instruction is begun stays. -/
theorem begun_continues_step {m : Machine} {site : Site} (h : m.site? = some site) :
    (m.begun site).Continues m.step.2 := by
  have hexec := site.instr.op.continues_exec (m.begun site)
  rw [step_of_site h]
  cases m.exhausted? with
  | some limit => exact .refl _
  | none =>
    simp only
    generalize site.instr.op.exec (m.begun site) = r at hexec
    cases r with
    | error e m' => exact hexec
    | ok _ m' =>
      simp only
      split <;> exact hexec

theorem continues_step (m : Machine) : m.Continues m.step.2 := by
  cases h : m.site? with
  | none =>
    rw [step_of_no_site h]
    exact .refl m
  | some site => exact (m.continues_begun site).trans (begun_continues_step h)

theorem continues_runFor (n : Nat) (m : Machine) : m.Continues (m.runFor n).2 := by
  refine runFor_induction (P := m.Continues) (Q := fun _ m' ↦ m.Continues m') (fun _ h ↦ h) ?_ n m
    (.refl m)
  intro m₁ h st m₂ hstep
  have hnext := m₁.continues_step
  rw [hstep] at hnext
  split <;> exact h.trans hnext

end Machine

/-! ## Hosts -/

/-- No limit of the first is wider than in the second; not to limit the steps is widest. -/
structure Limits.AtMost (l l' : Limits) : Prop where
  callDepth : l.callDepth ≤ l'.callDepth
  steps : ∀ n', l'.steps = some n' → ∃ n, l.steps = some n ∧ n ≤ n'
  operands : l.operands ≤ l'.operands
  cells : l.cells ≤ l'.cells
  memory : l.memory ≤ l'.memory

instance : LE Limits := ⟨Limits.AtMost⟩

theorem Limits.le_refl (l : Limits) : l ≤ l :=
  ⟨Nat.le_refl _, fun n h ↦ ⟨n, h, Nat.le_refl n⟩, Nat.le_refl _, Nat.le_refl _, Nat.le_refl _⟩

namespace Machine

/-- The machine on a host, with its frames and its count of steps. -/
def onto (m host : Machine) : Machine :=
  { host.graft m with frames := m.frames.map (·.shift host.offset), steps := m.steps }

section
variable (m host : Machine)

@[simp] theorem onto_frames : (m.onto host).frames = m.frames.map (·.shift host.offset) := rfl

@[simp] theorem onto_operands :
    (m.onto host).operands = m.operands.map (·.shift host.offset) := rfl

@[simp] theorem onto_steps : (m.onto host).steps = m.steps := rfl

@[simp] theorem onto_output : (m.onto host).output = host.output ++ m.output := rfl

@[simp] theorem onto_limits : (m.onto host).limits = host.limits := rfl

@[simp] theorem onto_template? (x : String) : (m.onto host).template? x = host.template? x := rfl

theorem onto_withFrames (frs : List Frame) :
    (m.onto host).withFrames (frs.map (·.shift host.offset)) = (m.withFrames frs).onto host := rfl

/-- With nothing from before on the host, all but templates and settings stays as it is. -/
theorem onto_bare_mute :
    m.onto host.bare.mute =
      { m with templates := host.templates, limits := host.limits, tracing := host.tracing } := by
  have hframes : m.frames.map (·.shift host.bare.mute.offset) = m.frames := by
    have hshift : ∀ fr : Frame, fr.shift host.bare.mute.offset = fr := Frame.shift_zero
    simp only [hshift, List.map_id']
  rw [onto, bare_mute_graft, hframes]
  rfl

end

/-- The machine can run on the host. Traces show references, so with a trace there must be no
objects from before. -/
structure Hosts (host m : Machine) : Prop where
  templates : ∀ x t, m.template? x = some t → host.template? x = some t
  limits : m.limits ≤ host.limits
  tracing : host.tracing = m.tracing
  plain : m.tracing = true → host.offset = 0

end Machine

/-- The fault cuts a run short that might go on on the host. -/
def Fault.CutShort (m host : Machine) : Fault → Prop
  | stepLimit _ => m.limits.steps ≠ host.limits.steps
  | stackOverflow _ => m.limits.operands ≠ host.limits.operands
  | callDepth _ => m.limits.callDepth ≠ host.limits.callDepth
  | arrayTooLarge _ _ => m.limits.cells ≠ host.limits.cells
  | store (.outOfMemory _) => m.limits.memory ≠ host.limits.memory
  | unresolvedCall x => m.template? x ≠ host.template? x
  | _ => False

theorem Fault.CutShort.of_narrow {m host : Machine} {e : Fault}
    (h : e.Narrow m.limits host.limits) : e.CutShort m host := by
  cases e with
  | arrayTooLarge n limit => exact h
  | store f =>
    cases f with
    | outOfMemory n => exact h
    | noSuchObject kind r => exact h.elim
  | _ => exact h.elim

/-! ## Operations -/

/-- What an operation has come to on the host if it has come to the first outcome at home, on the
machine `m`. An operation that is cut short has written nothing. -/
inductive Carried (m host : Machine) :
    EStateM.Result Fault Machine Unit → EStateM.Result Fault Machine Unit → Prop where
  | ok (m' : Machine) : Carried m host (.ok () m') (.ok () (m'.onto host))
  | error (e : Fault) (m' : Machine) :
      Carried m host (.error e m') (.error (e.shift host.offset) (m'.onto host))
  | cut {e : Fault} {m' : Machine} {r : EStateM.Result Fault Machine Unit}
      (short : e.CutShort m host) (output : m'.output = m.output) :
      Carried m host (.error e m') r

section
variable {m host : Machine} {op : Op}

theorem Op.carried_isAction (hop : op.isAction = true)
    (hpush : ∀ v, op = .push v → v.shift host.offset = v)
    (hwrite : op = .write → ∀ v ∈ m.operands.head?, v.shift host.offset = v)
    (hlimits : m.limits ≤ host.limits) :
    Carried m host (op.exec m) (op.exec (m.onto host)) := by
  -- The frames and the count of the machine are part of the host that it is grafted onto.
  rcases (Op.grafted_or_cut hop hpush hwrite hlimits.cells hlimits.memory :
    Grafted (host.put (m.onto host).frames host.operands host.world m.steps) id _ _ ∨ _)
    with hgrafted | ⟨e, us, hnarrow, hcut⟩
  · obtain ⟨vs, w, -, hexec | ⟨e, -, hexec⟩⟩ := Op.exec_isAction hop m
    · rw [hexec] at hgrafted ⊢
      have hhost : op.exec (m.onto host) = _ := hgrafted.of_ok
      rw [hhost]
      exact .ok (m.put m.frames vs w m.steps)
    · rw [hexec] at hgrafted ⊢
      have hhost : op.exec (m.onto host) = _ := hgrafted.of_error
      rw [hhost]
      exact .error e (m.put m.frames vs w m.steps)
  · rw [hcut]
    exact .cut (.of_narrow hnarrow) rfl

theorem Op.carried_jump {m₀ : Machine} (target : Int) :
    Carried m₀ host ((Op.jump target).exec m) ((Op.jump target).exec (m.onto host)) := by
  rw [Op.jump_eq, Op.jump_eq, Machine.onto_frames]
  cases target with
  | negSucc n => exact .error (.badJump _) m
  | ofNat n =>
    cases m.frames with
    | nil => exact .error .noFrame m
    | cons fr frs => exact .ok (m.withFrames (fr.goto n :: frs))

theorem Op.carried_call (h : host.Hosts m) (x : String) :
    Carried m host ((Op.call x).exec m) ((Op.call x).exec (m.onto host)) := by
  have hlength : (m.onto host).frames.length = m.frames.length := List.length_map _
  rw [Op.call_eq, Op.call_eq, Machine.onto_template?, hlength, Machine.onto_limits]
  cases ht : m.template? x with
  | none =>
    cases ht' : host.template? x with
    | none => exact .error (.unresolvedCall x) m
    | some t =>
      have hne : m.template? x ≠ host.template? x := by
        rw [ht, ht']
        exact (Option.some_ne_none t).symm
      exact .cut hne rfl
  | some t =>
    have hle := h.limits.callDepth
    simp only [h.templates x t ht]
    by_cases hdepth : m.limits.callDepth ≤ m.frames.length
    · rw [if_pos hdepth]
      by_cases heq : m.limits.callDepth = host.limits.callDepth
      · rw [← heq, if_pos hdepth]
        exact .error (.callDepth _) m
      · exact .cut heq rfl
    · rw [if_neg hdepth, if_neg (by omega)]
      have henter : (m.onto host).withFrames (.enter t :: (m.onto host).frames) =
          (m.withFrames (.enter t :: m.frames)).onto host := by
        rw [← Machine.onto_withFrames, List.map_cons, Frame.shift_enter]
        rfl
      rw [henter]
      exact .ok _

theorem handedBack_shift (d : Nat) (frs : List Frame) (vs : List Value) :
    handedBack (frs.map (·.shift d)) (vs.map (·.shift d)) =
      (handedBack frs vs).map (·.shift d) := by
  cases frs <;> cases vs <;> rfl

theorem Op.carried_ret {m₀ : Machine} :
    Carried m₀ host (Op.ret.exec m) (Op.ret.exec (m.onto host)) := by
  rw [Op.ret_eq, Op.ret_eq, Machine.onto_frames, Machine.onto_operands, ← List.map_tail,
    handedBack_shift]
  exact .ok _

/-- An operation does on the host what it does at home, unless it is cut short there. -/
theorem Op.carried (h : host.Hosts m) (hpush : ∀ v, op = .push v → v.shift host.offset = v)
    (hwrite : op = .write → ∀ v ∈ m.operands.head?, v.shift host.offset = v) :
    Carried m host (op.exec m) (op.exec (m.onto host)) := by
  -- Grafting settles the actions. The others move the renamed frames as they do at home.
  cases hop : op.isAction with
  | true => exact Op.carried_isAction hop hpush hwrite h.limits
  | false =>
    cases op with
    | load slot =>
      rw [Op.load_eq, Op.load_eq, Machine.onto_frames]
      cases m.frames with
      | nil => exact .error .noFrame m
      | cons fr frs =>
        simp only [List.map_cons, Frame.load, Frame.shift, Array.getElem?_map]
        cases fr.slots[slot]? with
        | none => exact .error (.uninitializedSlot slot) m
        | some v => exact .ok (m.withOperands (v :: m.operands))
    | store slot =>
      rw [Op.store_eq, Op.store_eq, Machine.onto_operands, Machine.onto_frames]
      cases m.operands with
      | nil => exact .error .stackUnderflow m
      | cons v vs =>
        cases m.frames with
        | nil => exact .error .noFrame (m.withOperands vs)
        | cons fr frs =>
          simp only [List.map_cons, Frame.store_shift]
          exact .ok ((m.withOperands vs).withFrames (fr.store slot v :: frs))
    | jump target => exact Op.carried_jump target
    | jumpUnless target =>
      rw [Op.jumpUnless_eq, Op.jumpUnless_eq, Machine.onto_operands]
      cases m.operands with
      | nil => exact .error .stackUnderflow m
      | cons v vs =>
        cases v with
        | bool b =>
          cases b with
          | true => exact .ok (m.withOperands vs)
          | false =>
            have hjump : Carried m host ((Op.jump target).exec (m.withOperands vs)) _ :=
              Op.carried_jump target
            exact hjump
        | null => exact .error (.null _) (m.withOperands vs)
        | int | double | str | ref => exact .error (.mismatch _ _ _) (m.withOperands vs)
    | call x => exact Op.carried_call h x
    | ret => exact Op.carried_ret
    | _ => cases hop

end

/-! ## Steps -/

namespace Machine

variable {m host : Machine}

@[simp] theorem onto_site? (m host : Machine) : (m.onto host).site? = m.site? := by
  rw [site?, site?, onto_frames]
  cases m.frames <;> rfl

theorem onto_advance (m host : Machine) : (m.onto host).advance = m.advance.onto host := by
  obtain ⟨ts, ops, frs, st, l, steps, tr, inp, out⟩ := m
  cases frs <;> rfl

theorem onto_traceLine (h : host.offset = 0) (site : Site) :
    (m.onto host).traceLine site = m.traceLine site := by
  rw [traceLine, traceLine, onto_operands, h]
  simp only [Value.shift_zero, List.map_id']

theorem onto_traced (h : host.Hosts m) (site : Site) :
    (m.onto host).traced site = (m.traced site).onto host := by
  have htracing : (m.onto host).tracing = m.tracing := h.tracing
  rw [traced, traced]
  by_cases htr : m.tracing = true
  · rw [if_pos (htracing.trans htr), if_pos htr, onto_traceLine (h.plain htr), onto_output,
      String.append_assoc]
    rfl
  · rw [if_neg (htracing ▸ htr), if_neg htr]

theorem Hosts.continues {m' : Machine} (h : host.Hosts m) (hm : m.Continues m') :
    host.Hosts m' := by
  refine ⟨?_, ?_, ?_, ?_⟩
  · intro x t ht
    rw [template?, hm.templates] at ht
    exact h.templates x t ht
  · rw [hm.limits]
    exact h.limits
  · rw [hm.tracing]
    exact h.tracing
  · rw [hm.tracing]
    exact h.plain

theorem onto_begun (h : host.Hosts m) (site : Site) :
    (m.onto host).begun site = (m.begun site).onto host := by
  rw [begun, begun, onto_advance, onto_traced (h.continues m.continues_advance)]
  rfl

/-- The limit on steps is reached on the host where it is reached at home, unless it is wider. -/
theorem onto_exhausted? (h : m.limits ≤ host.limits) :
    (m.onto host).exhausted? = m.exhausted? ∨
      m.limits.steps ≠ host.limits.steps ∧ m.exhausted?.isSome := by
  by_cases heq : m.limits.steps = host.limits.steps
  · refine .inl ?_
    rw [exhausted?, exhausted?, onto_limits, onto_steps, heq]
  · cases hex : m.exhausted? with
    | some limit => exact .inr ⟨heq, rfl⟩
    | none =>
      refine .inl ?_
      rw [exhausted?, Option.filter_eq_none_iff] at hex ⊢
      intro n' hn' hreached
      obtain ⟨n, hn, hle⟩ := h.steps n' hn'
      have hle' : n' ≤ m.steps := of_decide_eq_true hreached
      exact hex n hn (decide_eq_true (Nat.le_trans hle hle'))

/-- The next instruction neither makes a reference up nor writes one, so that it does not matter
whether `d` objects come first. -/
def Discreet (d : Nat) (m : Machine) : Prop :=
  ∀ site, m.site? = some site →
    (∀ v, site.instr.op = .push v → v.shift d = v) ∧
      (site.instr.op = .write → ∀ v ∈ m.operands.head?, v.shift d = v)

/-- Without objects from before, nothing is renamed. -/
theorem discreet_zero (m : Machine) : m.Discreet 0 :=
  fun _ _ ↦ ⟨fun v _ ↦ v.shift_zero, fun _ v _ ↦ v.shift_zero⟩

end Machine

theorem Fault.CutShort.continues {m m' host : Machine} {e : Fault} (h : e.CutShort m' host)
    (hm : m.Continues m') : e.CutShort m host := by
  cases e with
  | stepLimit n | stackOverflow n | callDepth n =>
    rw [CutShort, hm.limits] at h
    exact h
  | unresolvedCall x =>
    rw [CutShort, Machine.template?, hm.templates] at h
    exact h
  | arrayTooLarge n limit =>
    rw [CutShort, hm.limits] at h
    exact h
  | store f =>
    cases f with
    | outOfMemory n =>
      rw [CutShort, hm.limits] at h
      exact h
    | noSuchObject kind r => exact h.elim
  | _ => exact h.elim

/-- How a run on the host stands if the run at home, of the machine `m`, stands as the first. A run
that is cut short at home has not written anything that is not written on the host. -/
inductive InTune (m host : Machine) : Status × Machine → Status × Machine → Prop where
  | running (m' : Machine) : InTune m host (.running, m') (.running, m'.onto host)
  | finished (m' : Machine) : InTune m host (.finished, m') (.finished, m'.onto host)
  | failed (e : Fault) (site : Option Site) (m' : Machine) :
      InTune m host (.failed ⟨e, site⟩, m') (.failed ⟨e.shift host.offset, site⟩, m'.onto host)
  | cut {e : Fault} {site : Option Site} {m' : Machine} {r : Status × Machine}
      (short : e.CutShort m host) (output : ∃ s, r.2.output = host.output ++ m'.output ++ s) :
      InTune m host (.failed ⟨e, site⟩, m') r

theorem InTune.continues {m m' host : Machine} {r r' : Status × Machine}
    (h : InTune m' host r r') (hm : m.Continues m') : InTune m host r r' := by
  cases h with
  | running m₁ => exact .running m₁
  | finished m₁ => exact .finished m₁
  | failed e site m₁ => exact .failed e site m₁
  | cut short output => exact .cut (short.continues hm) output

namespace Machine

variable {m host : Machine}

/-- A step on the host. -/
theorem step_onto (h : host.Hosts m) (hd : m.Discreet host.offset) :
    InTune m host m.step (m.onto host).step := by
  cases hsite : m.site? with
  | none =>
    rw [step_of_no_site hsite, step_of_no_site (by rw [onto_site?, hsite])]
    exact .finished m
  | some site =>
    have hsite' : (m.onto host).site? = some site := by rw [onto_site?, hsite]
    have hbegun := m.continues_begun site
    -- Whatever happens on the host, what was written before the instruction stays.
    have hwritten : ∃ s, (m.onto host).step.2.output =
        host.output ++ (m.begun site).output ++ s := by
      have hout := (begun_continues_step hsite').output
      rw [onto_begun h site] at hout
      exact hout
    rw [step_of_site hsite]
    cases hex : m.exhausted? with
    | some limit =>
      rcases onto_exhausted? h.limits with heq | ⟨hne, -⟩
      · rw [step_of_site hsite', heq, hex, onto_begun h site]
        exact .failed (.stepLimit limit) (some site) _
      · exact .cut hne hwritten
    | none =>
      have hex' : (m.onto host).exhausted? = none := by
        rcases onto_exhausted? h.limits with heq | ⟨-, hsome⟩
        · rw [heq, hex]
        · rw [hex] at hsome
          cases hsome
      obtain ⟨hpush, hwrite⟩ := hd site hsite
      have hcarried := Op.carried (h.continues hbegun) hpush ((m.begun_same site).2.2 ▸ hwrite)
      have hexec := site.instr.op.continues_exec (m.begun site)
      have hstep' := step_of_site hsite'
      rw [hex', onto_begun h site] at hstep'
      simp only at hstep' ⊢
      generalize site.instr.op.exec (m.begun site) = r at hcarried hexec
      generalize site.instr.op.exec ((m.begun site).onto host) = r' at hcarried hstep'
      cases hcarried with
      | error e m' =>
        rw [hstep']
        exact .failed e (some site) m'
      | cut short output =>
        rw [← output] at hwritten
        exact .cut (short.continues hbegun) hwritten
      | ok m' =>
        have hlimits : m'.limits = m.limits := hexec.limits.trans hbegun.limits
        have hle := h.limits.operands
        rw [hstep']
        simp only [hlimits, onto_limits, onto_operands, List.length_map]
        by_cases hcount : m.limits.operands < m'.operands.length
        · rw [if_pos hcount]
          by_cases heq : m.limits.operands = host.limits.operands
          · rw [← heq, if_pos hcount]
            exact .failed (.stackOverflow _) (some site) m'
          · refine .cut heq ⟨"", ?_⟩
            split <;> exact String.append_empty.symm
        · rw [if_neg hcount, if_neg (by omega)]
          exact .running m'

/-! ## Runs -/

theorem step_continues_runFor (n : Nat) (m : Machine) :
    m.step.2.Continues (m.runFor (n + 1)).2 := by
  rw [runFor_succ]
  rcases m.step with ⟨st, m'⟩
  cases st with
  | running => exact continues_runFor n m'
  | finished | failed => exact .refl m'

/-- A run on the host. -/
theorem runFor_onto (h : host.Hosts m)
    (hd : ∀ k m', m.runFor k = (.running, m') → m'.Discreet host.offset) (n : Nat) :
    InTune m host (m.runFor n) ((m.onto host).runFor n) := by
  -- While both runs go on, the state on the host is the image of the state at home. Once the run at
  -- home has been cut short, nothing is left to compare but what the other one writes.
  induction n generalizing m with
  | zero => exact .running m
  | succ n ih =>
    have hstep := step_onto h (hd 0 m rfl)
    have hcontinues := m.continues_step
    have hwritten := step_continues_runFor n (m.onto host)
    generalize hr : m.step = r at hstep hcontinues
    generalize hr' : (m.onto host).step = r' at hstep hwritten
    cases hstep with
    | running m' =>
      rw [runFor_succ_of_running hr, runFor_succ_of_running hr']
      refine (ih (h.continues hcontinues) fun k m'' hk ↦ hd (k + 1) m'' ?_).continues hcontinues
      rw [runFor_succ_of_running hr, hk]
    | finished m' =>
      rw [runFor_succ_of_ended hr (by simp), runFor_succ_of_ended hr' (by simp)]
      exact .finished m'
    | failed e site m' =>
      rw [runFor_succ_of_ended hr (by simp), runFor_succ_of_ended hr' (by simp)]
      exact .failed e site m'
    | cut short output =>
      rw [runFor_succ_of_ended hr (by simp)]
      obtain ⟨s, hs⟩ := output
      obtain ⟨s', hs'⟩ := hwritten.output
      refine .cut short ⟨s ++ s', ?_⟩
      rw [hs', hs, String.append_assoc]

end Machine

end Pebble
