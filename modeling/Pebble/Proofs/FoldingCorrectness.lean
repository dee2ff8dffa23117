import Pebble.Proofs.FoldedCode
import Pebble.Proofs.Lockstep
import Pebble.Proofs.Starting

/-!
# Folding keeps what a program does

A run of the code of a program and a run of the code of the folded program go on side by side. At
the start of a block their machines are alike. Then the machine with the folded code takes one step
and the other one takes as many as the block has instructions, after which the machines are alike
again.

A run of the code that computes constants at run time takes more steps and may need more operands.
So the runs part where the first one uses up its steps or its operands, and only there.
-/

namespace Pebble

/-! ## Constants computed at run time -/

theorem Status.IsExhausted.ne_running {st : Status} (h : st.IsExhausted) : st ≠ .running := by
  rintro rfl
  exact h

/-- A run that is exhausted stays so. -/
theorem Status.IsExhausted.runFor_add {m : Machine} {n : Nat} (h : (m.runFor n).1.IsExhausted)
    (n' : Nat) : (m.runFor (n + n')).1.IsExhausted := by
  have hrun : m.runFor n = ((m.runFor n).1, (m.runFor n).2) := rfl
  rw [Machine.runFor_add_of_ended hrun h.ne_running]
  exact h

section
variable {m : Machine} {fr : Frame} {frs : List Frame} {us : List Value} {w : World} {k : Nat}

/-- An operation that is certain to succeed, on a machine with a step and enough operands left. -/
theorem Op.Does.step_eq {i : Instr} {args left : List Value} (htr : m.tracing = false)
    (hi : fr.template.instrs[fr.pc]? = some i) (hop : i.op.Does m.limits args (pure left))
    (hlimit : m.limits.steps.filter (· ≤ k) = none) :
    (m.put (fr :: frs) (args ++ us) w k).step =
      if m.limits.operands < (left ++ us).length then
        (.failed ⟨.stackOverflow m.limits.operands, some (Machine.siteOf fr i)⟩,
          m.put (Machine.past fr :: frs) (left ++ us) w (k + 1))
      else (.running, m.put (Machine.past fr :: frs) (left ++ us) w (k + 1)) := by
  have hexec : i.op.exec (m.put (Machine.past fr :: frs) (args ++ us) w (k + 1)) =
      .ok () (m.put (Machine.past fr :: frs) (left ++ us) w (k + 1)) := hop.exec _ us w (k + 1)
  rw [Machine.step_put htr hi, hlimit, hexec]
  rfl

/-- An operation that is certain to succeed, unless the machine is exhausted. -/
theorem Op.Does.step {i : Instr} {args left : List Value} (htr : m.tracing = false)
    (hi : fr.template.instrs[fr.pc]? = some i)
    (hop : i.op.Does m.limits args (pure left)) :
    (m.put (fr :: frs) (args ++ us) w k).step.1.IsExhausted ∨
      (m.put (fr :: frs) (args ++ us) w k).step =
          (.running, m.put (Machine.past fr :: frs) (left ++ us) w (k + 1)) ∧
        m.limits.steps.filter (· ≤ k) = none ∧ (left ++ us).length ≤ m.limits.operands := by
  cases hlimit : m.limits.steps.filter (· ≤ k) with
  | some limit =>
    refine .inl ?_
    rw [Machine.step_put htr hi, hlimit]
    rfl
  | none =>
    rw [hop.step_eq htr hi hlimit]
    by_cases hover : m.limits.operands < (left ++ us).length
    · rw [if_pos hover]
      exact .inl rfl
    · rw [if_neg hover]
      exact .inr ⟨rfl, rfl, Nat.not_lt.mp hover⟩

/-- Code that computes constants leaves them, unless the machine is exhausted. -/
theorem Pushes.runs {code : List Instr} {vs : List Value} (h : Pushes code vs)
    (htr : m.tracing = false) (hcode : StandsAt fr.template.instrs.toList fr.pc code) :
    ((m.put (fr :: frs) us w k).runFor code.length).1.IsExhausted ∨
      (m.put (fr :: frs) us w k).runFor code.length =
          (.running, m.put (fr.goto (fr.pc + code.length) :: frs) (vs ++ us) w (k + code.length)) ∧
        (code ≠ [] → m.limits.steps.filter (· ≤ k) = none ∧
          (vs ++ us).length ≤ m.limits.operands) := by
  induction h with
  | nil => exact .inr ⟨rfl, fun h ↦ absurd rfl h⟩
  | @step c op args left vs _ hop ih =>
    obtain ⟨hc, hlast⟩ := standsAt_append.mp hcode
    rw [List.length_append, List.length_singleton]
    rcases ih hc with hex | ⟨hrun, hlimits⟩
    · exact .inl (hex.runFor_add 1)
    · have hi : fr.template.instrs[fr.pc + c.length]? = some (.plain op) := by
        rw [← Array.getElem?_toList]
        exact (standsAt_cons.mp hlast).1
      rw [List.append_assoc] at hrun
      have hstep : (m.put (fr.goto (fr.pc + c.length) :: frs) (args ++ (vs ++ us)) w
          (k + c.length)).step.1.IsExhausted ∨ _ := (hop m.limits).step htr hi
      rw [Machine.runFor_add_of_running hrun, List.append_assoc, ← Nat.add_assoc, ← Nat.add_assoc]
      rcases hstep with hex | ⟨hstep, hlimit, hlen⟩
      · rw [Machine.runFor_one]
        exact .inl hex
      · refine .inr ⟨Machine.runFor_succ_of_running hstep 0, fun _ ↦ ⟨?_, hlen⟩⟩
        by_cases hnil : c = []
        · subst hnil
          exact hlimit
        · exact (hlimits hnil).1

end

/-! ## Frames -/

/-- Two frames with the same slots, of which the second one runs the folded code of the first. -/
structure Frame.CutInto (blocks : List Block) (fr fr' : Frame) : Prop where
  slots : fr'.slots = fr.slots
  name : fr'.template.name = fr.template.name
  code : fr.template.instrs.toList = blocksCode blocks
  folded : fr'.template.instrs.toList = blocksFolded blocks
  fits : ∀ b ∈ blocks, b.Fits (Starts 0 0 blocks)

/-- Two such frames that stand at the start of the same block. -/
def Frame.FoldsTo (fr fr' : Frame) : Prop :=
  ∃ blocks, Frame.CutInto blocks fr fr' ∧ Starts 0 0 blocks fr.pc fr'.pc

section
variable {fr fr' : Frame} {blocks before after : List Block} {b : Block}

theorem Frame.FoldsTo.slots (h : fr.FoldsTo fr') : fr'.slots = fr.slots := by
  obtain ⟨blocks, h, -⟩ := h
  exact h.slots

theorem Frame.FoldsTo.store (h : fr.FoldsTo fr') (slot : Nat) (v : Value) :
    (fr.store slot v).FoldsTo (fr'.store slot v) := by
  obtain ⟨blocks, h, hpc⟩ := h
  exact ⟨blocks, ⟨by simp only [Frame.store, h.slots], h.name, h.code, h.folded, h.fits⟩, hpc⟩

theorem Frame.foldsTo_enter {t t' : Template} (hname : t'.name = t.name)
    (h : Pebble.FoldsTo 0 0 t.instrs.toList t'.instrs.toList) :
    (Frame.enter t).FoldsTo (.enter t') := by
  obtain ⟨blocks, hcode, hfolded, hfits⟩ := h
  exact ⟨blocks, ⟨rfl, hname, hcode, hfolded, hfits⟩, [], blocks, rfl, rfl, rfl⟩

/-- Both frames go on at the start of a block. -/
theorem Frame.CutInto.goto (h : Frame.CutInto blocks fr fr') {n n' : Nat}
    (hn : Starts 0 0 blocks n n') : (fr.goto n).FoldsTo (fr'.goto n') :=
  ⟨blocks, ⟨h.slots, h.name, h.code, h.folded, h.fits⟩, hn⟩

theorem Frame.CutInto.standsAt (h : Frame.CutInto (before ++ b :: after) fr fr') :
    StandsAt fr.template.instrs.toList (blocksCode before).length b.code := by
  rw [h.code, blocksCode_append, blocksCode_cons, StandsAt, List.drop_left]
  exact List.prefix_append _ _

theorem Frame.CutInto.getElem?_folded (h : Frame.CutInto (before ++ b :: after) fr fr') :
    fr'.template.instrs[before.length]? = some b.folded := by
  rw [← Array.getElem?_toList, h.folded, blocksFolded_append, blocksFolded_cons,
    ← length_blocksFolded before, List.getElem?_append_right (Nat.le_refl _), Nat.sub_self]
  rfl

theorem starts_next : Starts 0 0 (before ++ b :: after)
    ((blocksCode before).length + b.code.length) (before.length + 1) :=
  ⟨before ++ [b], after, by simp, by simp, by simp⟩

end

/-! ## Steps -/

section
variable {m m' : Machine} {fr fr' : Frame} {frs frs' : List Frame}

theorem Op.follows_foldsTo {op : Op} (h : op.target? = none) :
    Follows Frame.FoldsTo op.exec op.exec :=
  op.follows (fun _ _ hfr ↦ hfr.slots) (fun _ _ slot v hfr ↦ hfr.store slot v) h

section
variable {a a' : Nat} (h : m.Alike Frame.FoldsTo m') (hm : m.frames = fr :: frs)
  (hm' : m'.frames = fr' :: frs') (hgoto : (fr.goto a).FoldsTo (fr'.goto a'))
include h hm hm' hgoto

theorem outcomes_jump : Outcomes Frame.FoldsTo ((Op.jump a).exec m) ((Op.jump a').exec m') := by
  rw [← Machine.put_self_of_frames hm, ← Machine.put_self_of_frames hm', h.operands, Op.exec_jump,
    Op.exec_jump]
  exact .ok () (h.putTop hm hm' hgoto _)

theorem outcomes_jumpUnless (hfr : fr.FoldsTo fr') :
    Outcomes Frame.FoldsTo ((Op.jumpUnless a).exec m) ((Op.jumpUnless a').exec m') := by
  rw [← Machine.put_self_of_frames hm, ← Machine.put_self_of_frames hm', h.operands]
  cases m.operands with
  | nil => exact .error rfl (h.putTop hm hm' hfr _)
  | cons v vs =>
    rw [Op.exec_jumpUnless, Op.exec_jumpUnless]
    cases v with
    | bool b =>
      cases b with
      | true => exact .ok () (h.putTop hm hm' hfr vs)
      | false => exact .ok () (h.putTop hm hm' hgoto vs)
    | null | int | double | str | ref => exact .error rfl (h.putTop hm hm' hfr vs)

end

/-- A block of constant code is matched by a push. -/
theorem Machine.Alike.constantStep {code : List Instr} {v : Value}
    (h : m.Alike Frame.FoldsTo m') (hm : m.frames = fr :: frs) (hm' : m'.frames = fr' :: frs')
    (hpushes : Pushes code [v]) (hcode : StandsAt fr.template.instrs.toList fr.pc code)
    (hi' : fr'.template.instrs[fr'.pc]? = some (.plain (.push v)))
    (hnext : (fr.goto (fr.pc + code.length)).FoldsTo (past fr')) :
    (m.runFor code.length).1.IsExhausted ∨
      InStep Frame.FoldsTo (m.runFor code.length) (m'.runFor 1) := by
  obtain ⟨code', i, hlast, -⟩ := hpushes.eq_append (List.cons_ne_nil _ _)
  have hne : code ≠ [] := by
    rw [hlast]
    exact List.append_ne_nil_of_right_ne_nil _ (List.cons_ne_nil _ _)
  have hlen : 1 ≤ code.length := List.length_pos_iff.mpr hne
  have hruns : ((m.put (fr :: frs) m.operands m.world m.steps).runFor code.length).1.IsExhausted ∨
      _ := hpushes.runs h.untraced hcode
  rw [put_self_of_frames hm] at hruns
  rcases hruns with hex | ⟨hrun, hlimits⟩
  · exact .inl hex
  · obtain ⟨hlimit, hoperands⟩ := hlimits hne
    have hroom : ¬ m'.limits.operands < ([v] ++ m'.operands).length := by
      rw [h.limits, h.operands]
      exact Nat.not_lt.mpr hoperands
    have hstep' : (m'.put (fr' :: frs') ([] ++ m'.operands) m'.world m'.steps).step = _ :=
      Op.Does.step_eq h.untraced' hi' (.push v) (h.steps_left hlimit)
    rw [List.nil_append, put_self_of_frames hm', if_neg hroom] at hstep'
    have hframes := h.frames
    rw [hm, hm'] at hframes
    rw [hrun, runFor_one, hstep']
    refine .inr (.running ?_)
    exact ⟨congrArg ([v] ++ ·) h.operands, h.world, h.limits,
      .cons hnext (List.forall₂_cons.mp hframes).2, h.templates, h.untraced, h.untraced',
      Nat.add_le_add h.steps hlen⟩

/-- From alike machines, the one with the folded code takes a step, and the other one the steps of a
block. -/
theorem Machine.Alike.blockStep {before after : List Block} {b : Block}
    (h : m.Alike Frame.FoldsTo m') (hm : m.frames = fr :: frs) (hm' : m'.frames = fr' :: frs')
    (hcut : Frame.CutInto (before ++ b :: after) fr fr') (hpc : fr.pc = (blocksCode before).length)
    (hpc' : fr'.pc = before.length) :
    (m.runFor b.code.length).1.IsExhausted ∨
      InStep Frame.FoldsTo (m.runFor b.code.length) (m'.runFor 1) := by
  have hcode := hcut.standsAt
  have hi' := hcut.getElem?_folded
  have hnext : (fr.goto (fr.pc + b.code.length)).FoldsTo (past fr') := by
    rw [hpc]
    have hstarts : Starts 0 0 (before ++ b :: after)
        ((blocksCode before).length + b.code.length) (fr'.pc + 1) := by
      rw [hpc']
      exact starts_next
    exact hcut.goto hstarts
  rw [← hpc] at hcode
  rw [← hpc'] at hi'
  -- What the block is decides how its code is matched.
  have hfits := hcut.fits b (by simp)
  cases hfits with
  | constant hpushes => exact h.constantStep hm hm' hpushes hcode hi' hnext
  | same htarget =>
    have hi := (standsAt_cons.mp hcode).1
    rw [Array.getElem?_toList] at hi
    rw [List.length_singleton, runFor_one, runFor_one]
    refine h.step hm hm' hi hi' hcut.name hnext fun m₁ m₁' h₁ _ _ ↦ ?_
    exact Op.follows_foldsTo htarget m₁ m₁' h₁
  | jump hstarts =>
    have hi := (standsAt_cons.mp hcode).1
    rw [Array.getElem?_toList] at hi
    rw [List.length_singleton, runFor_one, runFor_one]
    refine h.step hm hm' hi hi' hcut.name hnext fun m₁ m₁' h₁ hm₁ hm₁' ↦ ?_
    exact outcomes_jump h₁ hm₁ hm₁' (hcut.goto hstarts)
  | jumpUnless hstarts =>
    have hi := (standsAt_cons.mp hcode).1
    rw [Array.getElem?_toList] at hi
    rw [List.length_singleton, runFor_one, runFor_one]
    refine h.step hm hm' hi hi' hcut.name hnext fun m₁ m₁' h₁ hm₁ hm₁' ↦ ?_
    exact outcomes_jumpUnless h₁ hm₁ hm₁' (hcut.goto hstarts) hnext

/-- Where neither machine has an instruction left, both are finished. -/
theorem Machine.Alike.finishedStep (h : m.Alike Frame.FoldsTo m') (hsite : m.site? = none)
    (hsite' : m'.site? = none) : InStep Frame.FoldsTo (m.runFor 1) (m'.runFor 1) := by
  rw [runFor_one, runFor_one, step_of_no_site hsite, step_of_no_site hsite']
  exact .finished h

/-- From alike machines, the one with the folded code takes a step, and the other one at least
one. -/
theorem Machine.Alike.foldedStep (h : m.Alike Frame.FoldsTo m') :
    ∃ n, 0 < n ∧
      ((m.runFor n).1.IsExhausted ∨ InStep Frame.FoldsTo (m.runFor n) (m'.runFor 1)) := by
  have hframes := h.frames
  cases hm : m.frames with
  | nil =>
    rw [hm] at hframes
    have hm' : m'.frames = [] := List.forall₂_nil_left_iff.mp hframes
    refine ⟨1, Nat.one_pos, .inr (h.finishedStep ?_ ?_)⟩
    · rw [site?, hm]
    · rw [site?, hm']
  | cons fr frs =>
    rw [hm] at hframes
    obtain ⟨fr', frs', hfr, -, hm'⟩ := List.forall₂_cons_left_iff.mp hframes
    obtain ⟨blocks, hcut, before, after, rfl, hpc, hpc'⟩ := hfr
    rw [Nat.zero_add] at hpc hpc'
    cases after with
    | nil =>
      -- Both frames have come to the end of their code.
      rw [List.append_nil] at hcut
      have hend : fr.template.instrs[fr.pc]? = none := by
        rw [← Array.getElem?_toList, hcut.code, hpc]
        exact List.getElem?_eq_none (Nat.le_refl _)
      have hend' : fr'.template.instrs[fr'.pc]? = none := by
        rw [← Array.getElem?_toList, hcut.folded, hpc']
        exact List.getElem?_eq_none (Nat.le_of_eq (length_blocksFolded before))
      exact ⟨1, Nat.one_pos,
        .inr (h.finishedStep (site?_eq_none hm hend) (site?_eq_none hm' hend'))⟩
    | cons b after =>
      obtain ⟨c, i, hcode, -⟩ := (hcut.fits b (by simp)).last
      refine ⟨b.code.length, ?_, h.blockStep hm hm' hcut hpc hpc'⟩
      rw [hcode, List.length_append, List.length_singleton]
      exact Nat.succ_pos _

/-- A run of the folded code ends as the run of the code does. -/
theorem Machine.Alike.foldedRun {n : Nat} (h : m.Alike Frame.FoldsTo m')
    (hended : (m.runFor n).1 ≠ .running) (hex : ¬ (m.runFor n).1.IsExhausted) :
    ∃ n', InStep Frame.FoldsTo (m.runFor n) (m'.runFor n') := by
  -- Each step of the folded code is at least one of the code, so the induction is on how many of
  -- those are left.
  induction n using Nat.strongRecOn generalizing m m' with
  | ind n ih =>
    obtain ⟨j, hj, hexj | hstep⟩ := h.foldedStep
    · rw [runFor_eq_of_ended hended hexj.ne_running] at hex
      exact absurd hexj hex
    · by_cases hrun : (m.runFor j).1 = .running
      · obtain ⟨m₁, m₁', hr, hr', h₁⟩ := hstep.running_inv hrun
        have hlt : j < n := by
          by_contra hge
          obtain ⟨d, rfl⟩ := Nat.exists_eq_add_of_le (Nat.not_lt.mp hge)
          have hsame : m.runFor n = ((m.runFor n).1, (m.runFor n).2) := rfl
          rw [runFor_add_of_ended hsame hended] at hrun
          exact hended hrun
        obtain ⟨d, rfl⟩ := Nat.exists_eq_add_of_le (Nat.le_of_lt hlt)
        rw [runFor_add_of_running hr] at hended hex ⊢
        obtain ⟨n', hn'⟩ := ih d (by omega) h₁ hended hex
        exact ⟨1 + n', by rw [runFor_add_of_running hr']; exact hn'⟩
      · refine ⟨1, ?_⟩
        rw [runFor_eq_of_ended hended hrun]
        exact hstep

end

/-! ## Programs -/

/-- Two runs that have ended in the same way: both normally, or both with the same fault in frames
of the same name. -/
inductive Status.Agrees : Status → Status → Prop where
  | finished : Agrees .finished .finished
  | failed {r r' : FaultReport} (fault : r'.fault.untargeted = r.fault.untargeted)
      (frame : r'.site.map (·.template) = r.site.map (·.template)) : Agrees (.failed r) (.failed r')

theorem InStep.agrees {F : Frame → Frame → Prop} {r r' : Status × Machine} (h : InStep F r r')
    (hended : r.1 ≠ .running) : r.1.Agrees r'.1 ∧ r'.2.world = r.2.world := by
  cases h with
  | running h => exact absurd rfl hended
  | finished h => exact ⟨.finished, h.world⟩
  | failed hfault hsite h => exact ⟨.failed hfault hsite, h.world⟩

/-- Templates with the same names, each with the folded code of the other. -/
def TemplatesFold (ts ts' : List Template) : Prop :=
  List.Forall₂ (fun t t' ↦ t'.name = t.name ∧
    FoldsTo 0 0 t.instrs.toList t'.instrs.toList) ts ts'

/-- Under one name the frames that are entered correspond. -/
theorem TemplatesFold.find? {ts ts' : List Template} (h : TemplatesFold ts ts') (x : String) :
    Option.Rel (fun t t' ↦ (Frame.enter t).FoldsTo (.enter t')) (ts.find? (·.name == x))
      (ts'.find? (·.name == x)) := by
  induction h with
  | nil => exact .none
  | @cons t t' ts ts' ht _ ih =>
    obtain ⟨hname, hfolds⟩ := ht
    by_cases hx : t.name = x
    · rw [List.find?_cons_of_pos (by simpa using hx),
        List.find?_cons_of_pos (by simpa [hname] using hx)]
      exact .some (Frame.foldsTo_enter hname hfolds)
    · rw [List.find?_cons_of_neg (by simpa using hx),
        List.find?_cons_of_neg (by simpa [hname] using hx)]
      exact ih

/-- Templates and the folded ones start on alike machines. -/
theorem TemplatesFold.start {ts ts' : List Template} (h : TemplatesFold ts ts')
    (hverify : ∀ t ∈ ts, t.verify = .ok ()) (hverify' : ∀ t ∈ ts', t.verify = .ok ())
    {t : Template} (hmain : ts.reverse.find? (·.name == "main") = some t) (limits : Limits)
    (input : List UInt8) :
    ∃ m m', (Machine.fresh limits input).startTemplates ts = (.ok (), m) ∧
      (Machine.fresh limits input).startTemplates ts' = (.ok (), m') ∧
      m.Alike Frame.FoldsTo m' := by
  have hreverse : TemplatesFold ts.reverse ts'.reverse := List.rel_reverse h
  have henter := hreverse.find? "main"
  rw [hmain] at henter
  cases hmain' : ts'.reverse.find? (·.name == "main") with
  | none =>
    rw [hmain'] at henter
    cases henter
  | some t' =>
    rw [hmain'] at henter
    cases henter with
    | some henter =>
      obtain ⟨templates, hfind, hstart⟩ := Machine.startTemplates_eq hverify hmain limits input
      obtain ⟨templates', hfind', hstart'⟩ := Machine.startTemplates_eq hverify' hmain' limits input
      refine ⟨_, _, hstart, hstart', rfl, rfl, rfl, .cons henter .nil, ?_, rfl, rfl, Nat.le_refl _⟩
      intro x
      simp only [Machine.template?, hfind, hfind']
      exact hreverse.find? x

/-- **Folding keeps what a program does.** The code of a checked program and the code of the folded
program start on a fresh machine with any limits. If the run of the first ends, and not because it
has used up its steps or its operands, then the run of the second ends in the same way, with the
same store, the same output and the same input left over. -/
theorem Program.folded_ends_alike {p : Program} {ts : List Template} (hcheck : p.check = .ok ())
    (hcode : p.code = .ok ts) (limits : Limits) (input : List UInt8) :
    ∃ ts' m m', p.folded.code = .ok ts' ∧
      (Machine.fresh limits input).startTemplates ts = (.ok (), m) ∧
      (Machine.fresh limits input).startTemplates ts' = (.ok (), m') ∧
      ∀ n, (m.runFor n).1 ≠ .running → ¬ (m.runFor n).1.IsExhausted →
        ∃ n', (m.runFor n).1.Agrees (m'.runFor n').1 ∧
          (m'.runFor n').2.world = (m.runFor n).2.world := by
  have hchecked := Program.checked_of_check hcheck
  obtain ⟨ts', hcode', hfold⟩ := Program.code_folded hcode
  have hall := forall₂_of_mapM_eq_ok hcode
  obtain ⟨f, hf⟩ := hchecked.main
  obtain ⟨t, hmain, -⟩ := hchecked.find?_template hcode hf
  obtain ⟨m, m', hstart, hstart', halike⟩ := TemplatesFold.start hfold (verify_of_forall₂_code hall)
    (verify_of_forall₂_code (forall₂_of_mapM_eq_ok hcode')) hmain limits input
  refine ⟨ts', m, m', hcode', hstart, hstart', fun n hended hex ↦ ?_⟩
  obtain ⟨n', hinStep⟩ := halike.foldedRun hended hex
  exact ⟨n', hinStep.agrees hended⟩

/-- Whether a run fails within `n` steps, with the given fault and output. -/
def Machine.failsWithin (n : Nat) (e : Fault) (output : String) (m : Machine) : Bool :=
  match m.runFor n with
  | (.failed r, m) => r.fault = e && m.output = output
  | _ => false

theorem Machine.runFor_of_failsWithin {n : Nat} {e : Fault} {output : String} {m : Machine}
    (h : m.failsWithin n e output = true) :
    ∃ r, (m.runFor n).1 = .failed r ∧ r.fault = e ∧ (m.runFor n).2.output = output := by
  rw [failsWithin] at h
  split at h
  · next r m' hrun =>
    simp only [Bool.and_eq_true, decide_eq_true_eq] at h
    rw [hrun]
    exact ⟨r, rfl, h⟩
  · cases h

/-- Constants are folded in a size, an argument, an index and a value before the assignment
fails. -/
theorem Program.folded_ends_alike_out_of_bounds :
    ∃ p ts ts' m m' n n', parseSource
        ("void main() \x7b var a = new int[1 + 1] print(3 * 4) a[2 * 1] = 8 / 2 \x7d") = .ok p ∧
      p.check = .ok () ∧ p.code = .ok ts ∧ p.folded.code = .ok ts' ∧
      (Machine.fresh .standard []).startTemplates ts = (.ok (), m) ∧
      (Machine.fresh .standard []).startTemplates ts' = (.ok (), m') ∧
      (m.runFor n).1 ≠ .running ∧ ¬ (m.runFor n).1.IsExhausted ∧
      (m.runFor n).1.Agrees (m'.runFor n').1 ∧ (m'.runFor n').2.world.output = "12" := by
  have hok : (parseSource
      ("void main() \x7b var a = new int[1 + 1] print(3 * 4) a[2 * 1] = 8 / 2 \x7d")).toOption.any
      (fun p ↦ p.check.isOk && p.code.toOption.any fun ts ↦
        ((Machine.fresh .standard []).startTemplates ts).2.failsWithin 40
          (.indexOutOfBounds .setItem 2 2) "12") = true := by
    decide +kernel
  obtain ⟨p, hp, h⟩ := eq_ok_of_any hok
  rw [Bool.and_eq_true] at h
  obtain ⟨hcheck, hrun⟩ := h
  obtain ⟨_, hcheck⟩ := eq_ok_of_isOk hcheck
  obtain ⟨ts, hcode, hrun⟩ := eq_ok_of_any hrun
  obtain ⟨ts', m, m', hcode', hstart, hstart', hends⟩ :=
    Program.folded_ends_alike hcheck hcode .standard []
  rw [hstart] at hrun
  obtain ⟨r, hfailed, hfault, hout⟩ := Machine.runFor_of_failsWithin hrun
  have hended : (m.runFor 40).1 ≠ .running := by
    rw [hfailed]
    simp
  have hex : ¬ (m.runFor 40).1.IsExhausted := by
    rw [hfailed, Status.IsExhausted, hfault]
    exact Bool.false_ne_true
  obtain ⟨n', hagrees, hworld⟩ := hends 40 hended hex
  refine ⟨p, ts, ts', m, m', 40, n', hp, hcheck, hcode, hcode', hstart, hstart', hended, hex,
    hagrees, ?_⟩
  rw [hworld]
  exact hout

end Pebble
