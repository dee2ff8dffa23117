import Pebble.Proofs.Acting
import Pebble.Proofs.FoldedTypes
import Pebble.Proofs.Heights
import Pebble.Proofs.Starting

/-!
# Stack discipline

A run of a checked program uses the operand stack in layers, one for each active function, and the
size of each layer is the height at the index where the function stands. A function works on its own
layer only, so a call leaves the layers below as they were, with the arguments replaced by one
result, and a run that finishes has no operands left.

Types are not needed for this: it holds on every machine that has the templates of the program,
whatever its store holds.
-/

namespace Pebble

section
variable {p : Program}

/-! ## One instruction -/

/-- What an action that makes its answer from one value has answered. -/
theorem Act.exists_of_map {α β : Type} {x : Act α} {g : α → β} {w w' : World} {b : β}
    (h : (x >>= fun a ↦ pure (g a)) w = .ok b w') : ∃ a, b = g a := by
  simp only [bind, EStateM.bind] at h
  split at h
  · next a w₁ _ =>
    cases h
    exact ⟨a, rfl⟩
  · cases h

theorem Act.length_of_map {α : Type} {x : Act α} {g : α → List Value} {n : Nat}
    (hg : ∀ a, (g a).length = n) (w : World) (left : List Value) (w' : World)
    (h : (x >>= fun a ↦ pure (g a)) w = .ok left w') : left.length = n := by
  obtain ⟨a, rfl⟩ := Act.exists_of_map h
  exact hg a

/-- What an operation does to as many operands as it takes, and how many it leaves. -/
theorem Op.exists_does (l : Limits) {op : Op} (hop : op.isAction = true) {args : List Value}
    (hargs : args.length = op.pops p) :
    ∃ act, op.Does l args act ∧
      ∀ w left w', act w = .ok left w' → left.length = op.pushes := by
  match op, args, hargs with
  | .push v, [], _ => exact ⟨_, .push v, fun _ _ _ h ↦ by cases h; rfl⟩
  | .pop, [v], _ => exact ⟨_, .pop v, fun _ _ _ h ↦ by cases h; rfl⟩
  | .dup, [v], _ => exact ⟨_, .dup v, fun _ _ _ h ↦ by cases h; rfl⟩
  | .nop, [], _ => exact ⟨_, .nop, fun _ _ _ h ↦ by cases h; rfl⟩
  | .arith o, [rhs, lhs], _ => exact ⟨_, .arith o lhs rhs, Act.length_of_map fun _ ↦ rfl⟩
  | .logic o, [rhs, lhs], _ => exact ⟨_, .logic o lhs rhs, Act.length_of_map fun _ ↦ rfl⟩
  | .not, [v], _ => exact ⟨_, .not v, Act.length_of_map fun _ ↦ rfl⟩
  | .order o, [rhs, lhs], _ => exact ⟨_, .order o lhs rhs, Act.length_of_map fun _ ↦ rfl⟩
  | .equal, [rhs, lhs], _ => exact ⟨_, .equal lhs rhs, fun _ _ _ h ↦ by cases h; rfl⟩
  | .unequal, [rhs, lhs], _ => exact ⟨_, .unequal lhs rhs, fun _ _ _ h ↦ by cases h; rfl⟩
  | .newRecord, [], _ => exact ⟨_, .newRecord, Act.length_of_map fun _ ↦ rfl⟩
  | .setField x, [v, record], _ =>
    exact ⟨_, .setField x record v, Act.length_of_map fun _ ↦ rfl⟩
  | .getField x, [record], _ => exact ⟨_, .getField x record, Act.length_of_map fun _ ↦ rfl⟩
  | .newArray, [wanted], _ => exact ⟨_, .newArray wanted, Act.length_of_map fun _ ↦ rfl⟩
  | .setItem, [v, index, array], _ =>
    exact ⟨_, .setItem array index v, Act.length_of_map fun _ ↦ rfl⟩
  | .getItem, [index, array], _ =>
    exact ⟨_, .getItem array index, Act.length_of_map fun _ ↦ rfl⟩
  | .write, [v], _ => exact ⟨_, .write v, Act.length_of_map fun _ ↦ rfl⟩
  | .read, [], _ => exact ⟨_, .read, Act.length_of_map fun _ ↦ rfl⟩
  | .size, [v], _ => exact ⟨_, .size v, Act.length_of_map fun _ ↦ rfl⟩
  | .element, [index, container], _ =>
    exact ⟨_, .element container index, Act.length_of_map fun _ ↦ rfl⟩
  | .convert c, [v], _ => exact ⟨_, .convert c v, Act.length_of_map fun _ ↦ rfl⟩

section
variable {m m' : Machine} {fr : Frame} {frs : List Frame} {vs : List Value} {w : World} {k : Nat}

theorem Op.fallsThrough_of_isAction {op : Op} (h : op.isAction = true) :
    op.fallsThrough = true := by
  cases op <;> first | rfl | cases h

/-- An operation that succeeds, other than a call or a return, works on the operands that it takes
and on its own frame. -/
theorem Op.exec_inside {op : Op} (hcall : ∀ x, op ≠ .call x) (hret : op ≠ .ret)
    (htarget : ∀ target, op.target? = some target → 0 ≤ target) (hlen : op.pops p ≤ vs.length)
    (h : op.exec (m.put (Machine.past fr :: frs) vs w k) = .ok () m') :
    ∃ slots n left w', op.GoesTo fr.pc n ∧ left.length = op.pushes ∧
      m' = m.put (⟨fr.template, slots, n⟩ :: frs) (left ++ vs.drop (op.pops p)) w' k := by
  -- An action takes the operands on top and leaves alone the others and the frame.
  by_cases hact : op.isAction = true
  · obtain ⟨act, hdoes, hleft⟩ :=
      Op.exists_does m.limits hact (List.length_take_of_le hlen)
    have hexec := hdoes.exec (Machine.past fr :: frs) (vs.drop (op.pops p)) w k
    rw [List.take_append_drop, h] at hexec
    cases hw : act w with
    | ok left w' =>
      rw [hw] at hexec
      exact ⟨fr.slots, fr.pc + 1, left, w', .inl ⟨Op.fallsThrough_of_isAction hact, rfl⟩,
        hleft w left w' hw, (EStateM.Result.ok.inj hexec).2⟩
    | error e w' =>
      rw [hw] at hexec
      obtain ⟨left, -, hr⟩ := hexec
      cases hr
  · match op with
    | .load slot =>
      have hload : (Op.load slot).exec (m.put (Machine.past fr :: frs) vs w k) =
        (Exec.lift (fr.load slot) >>= Exec.push) (m.put (Machine.past fr :: frs) vs w k) := rfl
      rw [hload] at h
      cases hv : fr.load slot with
      | ok v =>
        rw [hv] at h
        cases h
        exact ⟨fr.slots, fr.pc + 1, [v], w, .inl ⟨rfl, rfl⟩, rfl, rfl⟩
      | error e =>
        rw [hv] at h
        cases h
    | .store slot =>
      obtain ⟨v, vs, rfl⟩ := List.exists_cons_of_length_pos hlen
      rw [Op.exec_store] at h
      cases h
      exact ⟨_, fr.pc + 1, [], w, .inl ⟨rfl, rfl⟩, rfl, rfl⟩
    | .jump target =>
      obtain ⟨n, rfl⟩ := Int.eq_ofNat_of_zero_le (htarget target rfl)
      rw [Op.exec_jump] at h
      cases h
      exact ⟨fr.slots, n, [], w, .inr rfl, rfl, rfl⟩
    | .jumpUnless target =>
      obtain ⟨n, rfl⟩ := Int.eq_ofNat_of_zero_le (htarget target rfl)
      obtain ⟨v, vs, rfl⟩ := List.exists_cons_of_length_pos hlen
      rw [Op.exec_jumpUnless] at h
      match v with
      | .bool true =>
        cases h
        exact ⟨fr.slots, fr.pc + 1, [], w, .inl ⟨rfl, rfl⟩, rfl, rfl⟩
      | .bool false =>
        cases h
        exact ⟨fr.slots, n, [], w, .inr rfl, rfl, rfl⟩
      | .null | .int _ | .double _ | .str _ | .ref _ => cases h
    | .call x => exact absurd rfl (hcall x)
    | .ret => exact absurd rfl hret

end

/-! ## Layers -/

/-- The frame stands at an index of its code where the height is `n`. -/
def Frame.HasHeight (p : Program) (fr : Frame) (n : Nat) : Prop :=
  ∃ f ∈ p.functions, f.code p = .ok fr.template ∧ fr.pc < fr.template.instrs.size ∧
    f.heightAt p fr.pc = n

/-- Frames with the operands that they own, a layer for each. The first frame still lacks `missing`
operands of its height, and those below it lack the result of the call they wait for. -/
inductive Layers (p : Program) : Nat → List Frame → List Value → Prop where
  | nil (missing : Nat) : Layers p missing [] []
  | cons {missing : Nat} {fr : Frame} {frs : List Frame} {own rest : List Value}
      (height : fr.HasHeight p (own.length + missing)) (below : Layers p 1 frs rest) :
      Layers p missing (fr :: frs) (own ++ rest)

/-- The machine finds the templates of a program under the names of its functions. -/
def Machine.Loaded (p : Program) (m : Machine) : Prop :=
  ∀ x f, p.function? x = some f → ∃ t, m.template? x = some t ∧ f.code p = .ok t

section
variable {m m' : Machine} {fr : Frame} {frs : List Frame} {own rest : List Value}

/-- A frame that stands at an index of its code has an instruction, and goes on at heights that
fit. -/
theorem Frame.HasHeight.fits (hp : p.Checked) {n : Nat} (h : fr.HasHeight p n) :
    ∃ i, fr.template.instrs[fr.pc]? = some i ∧ i.op.pops p ≤ n ∧
      (i.op = .ret → n = 1) ∧ (∀ x, i.op = .call x → ∃ g, p.function? x = some g) ∧
      (∀ target, i.op.target? = some target → 0 ≤ target) ∧
      ∀ slots j, i.op.GoesTo fr.pc j →
        Frame.HasHeight p ⟨fr.template, slots, j⟩ (n - i.op.pops p + i.op.pushes) := by
  obtain ⟨f, hf, hcode, hpc, rfl⟩ := h
  have hfits := FunDef.fitsHeights hp hf hcode
  have hi : fr.template.instrs[fr.pc]? = some fr.template.instrs[fr.pc] :=
    Array.getElem?_eq_getElem hpc
  have hop := hfits.instrs fr.pc _ hi
  refine ⟨_, hi, hop.operands, hop.returns, hop.calls,
    fun target htarget ↦ (hfits.targets fr.pc _ hi target htarget).1, fun slots j hj ↦ ?_⟩
  have hedge := hop.edges j hj
  have hpops := hop.operands
  refine ⟨f, hf, hcode, hfits.inside hi hj, ?_⟩
  show f.heightAt p j = _
  omega

/-- A function is entered with its arguments on the stack. -/
theorem FunDef.hasHeight_enter (hp : p.Checked) {f : FunDef} (hf : f ∈ p.functions) {t : Template}
    (hcode : f.code p = .ok t) : Frame.HasHeight p (.enter t) f.params.length := by
  have hfits := FunDef.fitsHeights hp hf hcode
  have hsize : 0 < t.instrs.size := by
    have hlast := hfits.last
    by_contra hzero
    have hempty : t.instrs = #[] := Array.eq_empty_of_size_eq_zero (by omega)
    rw [Template.lastOp?, hempty] at hlast
    cases hlast
  exact ⟨f, hf, hcode, hsize, hfits.entry⟩

/-- A call enters a function whose arguments are the upper part of the layer, and leaves the rest of
it to the caller. -/
theorem Machine.step_call (hp : p.Checked) (hl : m.Loaded p) (hfrs : m.frames = fr :: frs)
    (hheight : fr.HasHeight p own.length) {i : Instr} (hi : fr.template.instrs[fr.pc]? = some i)
    {x : String} (hop : i.op = .call x) (hstep : m.step = (.running, m')) :
    ∃ f t args own', p.function? x = some f ∧ f.code p = .ok t ∧ own = args ++ own' ∧
      args.length = f.params.length ∧ m'.templates = m.templates ∧
      m'.frames = .enter t :: past fr :: frs ∧ m'.operands = m.operands ∧
      Frame.HasHeight p (.enter t) args.length ∧ (past fr).HasHeight p (own'.length + 1) := by
  obtain ⟨i', hi', hpops, -, hcalls, -, hgoes⟩ := hheight.fits hp
  obtain rfl : i = i' := Option.some.inj (hi.symm.trans hi')
  obtain ⟨f, hf⟩ := hcalls x hop
  obtain ⟨t, ht, hcode⟩ := hl x f hf
  have hmem := (Program.function?_some hf).1
  have hcount : i.op.pops p = f.params.length := by
    rw [hop, Op.pops, hf, Option.elim_some]
  rw [hcount] at hpops
  have hcaller := hgoes fr.slots (fr.pc + 1) (.inl ⟨by rw [hop]; rfl, rfl⟩)
  rw [hcount, hop] at hcaller
  refine ⟨f, t, own.take f.params.length, own.drop f.params.length, hf, hcode,
    (List.take_append_drop ..).symm, List.length_take_of_le hpops, ?_⟩
  have henter : Frame.HasHeight p (.enter t) (own.take f.params.length).length := by
    rw [List.length_take_of_le hpops]
    exact FunDef.hasHeight_enter hp hmem hcode
  rw [List.length_drop]
  cases stepped_of_step hstep with
  | running frames instr exec count =>
    obtain ⟨rfl, rfl⟩ := List.cons.inj (hfrs.symm.trans frames)
    obtain rfl := Option.some.inj (hi.symm.trans instr)
    rw [hop, Op.exec_call ht] at exec
    split at exec
    · cases exec
    · cases exec
      exact ⟨rfl, rfl, rfl, henter, hcaller⟩

/-- What a step does to the layer on top: it works inside of it, calls a function, or returns the
only value in it. -/
theorem Machine.step_layer (hp : p.Checked) (hl : m.Loaded p) (hfrs : m.frames = fr :: frs)
    (hops : m.operands = own ++ rest) (hheight : fr.HasHeight p own.length)
    (hstep : m.step = (.running, m')) :
    m'.templates = m.templates ∧
      ((∃ fr' own', m'.frames = fr' :: frs ∧ m'.operands = own' ++ rest ∧
          fr'.HasHeight p own'.length) ∨
        (∃ callee args own', m'.frames = callee :: past fr :: frs ∧
          m'.operands = args ++ (own' ++ rest) ∧ callee.HasHeight p args.length ∧
          (past fr).HasHeight p (own'.length + 1)) ∨
        ∃ v, own = [v] ∧ m'.frames = frs ∧
          m'.operands = if frs.isEmpty then rest else v :: rest) := by
  obtain ⟨i, hi, hpops, hret, -, htarget, hgoes⟩ := hheight.fits hp
  -- A call is the only instruction that adds a frame.
  by_cases hcall : ∃ x, i.op = .call x
  · obtain ⟨x, hop⟩ := hcall
    obtain ⟨f, t, args, own', -, -, rfl, -, htemplates, hframes, hoperands, hcallee, hcaller⟩ :=
      Machine.step_call hp hl hfrs hheight hi hop hstep
    refine ⟨htemplates, .inr (.inl ⟨_, args, own', hframes, ?_, hcallee, hcaller⟩)⟩
    rw [hoperands, hops, List.append_assoc]
  cases stepped_of_step hstep with
  | running frames instr exec count =>
    obtain ⟨rfl, rfl⟩ := List.cons.inj (hfrs.symm.trans frames)
    obtain rfl := Option.some.inj (hi.symm.trans instr)
    rw [hops] at exec
    by_cases hop : i.op = .ret
    · obtain ⟨v, rfl⟩ := List.length_eq_one_iff.mp (hret hop)
      rw [hop, List.singleton_append, Op.exec_ret] at exec
      cases exec
      exact ⟨rfl, .inr (.inr ⟨v, rfl, rfl, rfl⟩)⟩
    · have hlen : i.op.pops p ≤ (own ++ rest).length := by
        rw [List.length_append]
        omega
      obtain ⟨slots, n, left, w', hto, hleft, rfl⟩ :=
        Op.exec_inside (fun x hx ↦ hcall ⟨x, hx⟩) hop htarget hlen exec
      refine ⟨rfl, .inl ⟨_, left ++ own.drop (i.op.pops p), rfl, ?_, ?_⟩⟩
      · rw [Machine.put_operands, List.drop_append_of_le_length hpops, List.append_assoc]
      · have hgo := hgoes slots n hto
        rw [List.length_append, List.length_drop, hleft, Nat.add_comm]
        exact hgo

end

/-! ## Layers above a base -/

namespace Machine

/-- The frames and operands of the machine are layers, with `base` and `rest` below them. -/
def Above (p : Program) (base : List Frame) (rest : List Value) (m : Machine) : Prop :=
  m.Loaded p ∧ ∃ fr inner own, Layers p 0 (fr :: inner) own ∧ m.frames = fr :: inner ++ base ∧
    m.operands = own ++ rest

/-- The layers are gone: the value of the last of them has gone to the base, if anybody waits for it
there. -/
def BackAt (base : List Frame) (rest : List Value) (m : Machine) : Prop :=
  m.frames = base ∧ ∃ v, m.operands = if base.isEmpty then rest else v :: rest

section
variable {m m' : Machine} {base : List Frame} {rest : List Value}

/-- A step leaves what is below the layers alone. -/
theorem Above.step (hp : p.Checked) (h : m.Above p base rest) (hstep : m.step = (.running, m')) :
    m'.Above p base rest ∨ m'.BackAt base rest := by
  obtain ⟨hl, fr, inner, _, hlayers, hfrs, hops⟩ := h
  cases hlayers with
  | @cons _ _ _ own below height hbelow =>
    rw [List.append_assoc] at hops
    obtain ⟨htemplates, hmove⟩ := Machine.step_layer hp hl hfrs hops height hstep
    have hl' : m'.Loaded p := by
      intro x f hf
      rw [template?, htemplates]
      exact hl x f hf
    rcases hmove with ⟨fr', own', hfrs', hops', height'⟩ |
      ⟨callee, args, own', hfrs', hops', hcallee, hcaller⟩ | ⟨v, rfl, hfrs', hops'⟩
    · refine .inl ⟨hl', fr', inner, own' ++ below, .cons height' hbelow, hfrs', ?_⟩
      rw [hops', List.append_assoc]
    · refine .inl ⟨hl', callee, past fr :: inner, args ++ (own' ++ below),
        .cons hcallee (.cons hcaller hbelow), hfrs', ?_⟩
      rw [hops', List.append_assoc, List.append_assoc]
    · -- The value goes to the layer below, which is the base if there is no other.
      cases hbelow with
      | nil => exact .inr ⟨hfrs', v, hops'⟩
      | @cons _ caller inner own below hcaller hbelow =>
        exact .inl ⟨hl', caller, inner, v :: own ++ below, .cons hcaller hbelow, hfrs', hops'⟩

theorem Above.length_lt (h : m.Above p base rest) : base.length < m.frames.length := by
  obtain ⟨-, fr, inner, own, -, hfrs, -⟩ := h
  rw [hfrs, List.length_append, List.length_cons]
  omega

/-- Where there are layers, there is an instruction to execute. -/
theorem Above.site?_ne_none (hp : p.Checked) (h : m.Above p base rest) : m.site? ≠ none := by
  obtain ⟨-, fr, inner, _, hlayers, hfrs, -⟩ := h
  cases hlayers with
  | cons height _ =>
    obtain ⟨i, hi, -⟩ := height.fits hp
    rw [← m.put_self_of_frames hfrs, List.cons_append, site?_put hi]
    exact Option.some_ne_none _

end

/-- The last step of a run that goes on. -/
theorem runFor_succ_running {m m' : Machine} {n : Nat} (h : m.runFor (n + 1) = (.running, m')) :
    ∃ m₁, m.runFor n = (.running, m₁) ∧ m₁.step = (.running, m') := by
  rw [runFor_add n 1] at h
  rcases hn : m.runFor n with ⟨st, m₁⟩
  rw [hn] at h
  cases st with
  | running =>
    refine ⟨m₁, rfl, ?_⟩
    rw [← runFor_one]
    exact h
  | finished | failed => cases h

/-- `m.ReturnsIn n m'`: the function of the innermost frame of `m` has returned after `n` steps, in
`m'`: this is the first state with fewer frames. -/
def ReturnsIn (m : Machine) (n : Nat) (m' : Machine) : Prop :=
  m.runFor n = (.running, m') ∧ m'.frames.length < m.frames.length ∧
    ∀ k < n, m.frames.length ≤ (m.runFor k).2.frames.length

/-- As long as the layers last, what is below them is left alone. -/
theorem Above.runFor (hp : p.Checked) {m m' : Machine} {base : List Frame} {rest : List Value}
    (h : m.Above p base rest) {n : Nat} (hrun : m.runFor n = (.running, m'))
    (hdeep : ∀ k < n, base.length < (m.runFor k).2.frames.length) :
    m'.Above p base rest ∨ m'.BackAt base rest := by
  induction n generalizing m' with
  | zero =>
    cases hrun
    exact .inl h
  | succ n ih =>
    obtain ⟨m₁, hrun₁, hstep⟩ := runFor_succ_running hrun
    rcases ih hrun₁ fun k hk ↦ hdeep k (Nat.lt_succ_of_lt hk) with habove | ⟨hback, -⟩
    · exact habove.step hp hstep
    · have hlast := hdeep n (Nat.lt_succ_self n)
      rw [hrun₁, hback] at hlast
      exact absurd hlast (Nat.lt_irrefl _)

/-- A function that returns leaves its caller as it was, with one value more. -/
theorem Above.returnsIn (hp : p.Checked) {m m' : Machine} {base : List Frame} {rest : List Value}
    (h : m.Above p base rest) (hlen : m.frames.length = base.length + 1) {n : Nat}
    (hret : m.ReturnsIn n m') : m'.BackAt base rest := by
  obtain ⟨hrun, hshort, hdeep⟩ := hret
  rcases h.runFor hp hrun (fun k hk ↦ by have := hdeep k hk; omega) with habove | hback
  · have := habove.length_lt
    omega
  · exact hback

/-- The states of a whole run. -/
def Layered (p : Program) (m : Machine) : Prop :=
  m.Above p [] [] ∨ m.frames = [] ∧ m.operands = []

theorem Layered.step (hp : p.Checked) {m m' : Machine} (h : m.Layered p)
    (hstep : m.step = (.running, m')) : m'.Layered p := by
  rcases h with habove | ⟨hfrs, -⟩
  · rcases habove.step hp hstep with habove' | ⟨hfrs', v, hops'⟩
    · exact .inl habove'
    · exact .inr ⟨hfrs', hops'⟩
  · rw [step_of_no_site (by rw [site?, hfrs])] at hstep
    cases hstep

theorem Layered.runFor (hp : p.Checked) {m : Machine} (h : m.Layered p) {n : Nat} :
    ∀ {m' : Machine}, m.runFor n = (.running, m') → m'.Layered p := by
  induction n with
  | zero =>
    rintro _ ⟨⟩
    exact h
  | succ n ih =>
    intro m' hrun
    obtain ⟨m₁, hrun₁, hstep⟩ := runFor_succ_running hrun
    exact (ih hrun₁).step hp hstep

/-- A run that finishes has no frames and no operands left. -/
theorem Layered.finished (hp : p.Checked) {m m' : Machine} (h : m.Layered p) {n : Nat}
    (hrun : m.runFor n = (.finished, m')) : m'.frames = [] ∧ m'.operands = [] := by
  induction n generalizing m with
  | zero => cases hrun
  | succ n ih =>
    rcases hstep : m.step with ⟨st, m₁⟩
    cases st with
    | running =>
      rw [runFor_succ_of_running hstep] at hrun
      exact ih (h.step hp hstep) hrun
    | failed r =>
      rw [runFor_succ_of_ended hstep (by simp)] at hrun
      cases hrun
    | finished =>
      rw [runFor_succ_of_ended hstep (by simp)] at hrun
      cases hrun
      cases stepped_of_step hstep with
      | finished hsite =>
        rcases h with habove | hdone
        · exact absurd hsite (habove.site?_ne_none hp)
        · exact hdone

end Machine

/-! ## Whole programs -/

/-- Starting a checked program on any machine enters its main function, without arguments. -/
theorem Program.Checked.layered_start (hp : p.Checked) {ts : List Template}
    (hcode : p.code = .ok ts) (m₀ : Machine) :
    ∃ m, m₀.startTemplates ts = (.ok (), m) ∧ m.Layered p := by
  obtain ⟨f, hf⟩ := hp.main
  obtain ⟨hmem, hname⟩ := Program.function?_some hf
  obtain ⟨t, ht, hft⟩ := hp.find?_template hcode hf
  have hverify := verify_of_forall₂_code (forall₂_of_mapM_eq_ok hcode)
  obtain ⟨templates, hfind, hstart⟩ := Machine.startTemplates_of_main hverify ht m₀
  have hparams := FunDef.params_of_main (FunDef.check_eq_ok (hp.functions f hmem)).1 hname
  have hheight := FunDef.hasHeight_enter hp hmem hft
  rw [hparams] at hheight
  have hlayers : Layers p 0 [.enter t] ([] ++ []) := .cons hheight (.nil 1)
  refine ⟨_, hstart, .inl ⟨fun x g hg ↦ ?_, .enter t, [], [], hlayers, rfl, rfl⟩⟩
  obtain ⟨u, hu, hgu⟩ := hp.find?_template hcode hg
  exact ⟨u, by rw [Machine.template?, hfind, hu, Option.some_or], hgu⟩

/-- A function that is called in a run returns to its caller with the stack as it was, but for the
arguments, which are replaced by the result. -/
theorem Machine.Layered.call (hp : p.Checked) {m m' : Machine} (h : m.Layered p) {x : String}
    (hx : m.site?.map (·.instr.op) = some (.call x)) (hstep : m.step = (.running, m')) :
    ∃ f args rest, p.function? x = some f ∧ args.length = f.params.length ∧
      m'.operands = args ++ rest ∧ m'.operands = m.operands ∧ m'.frames.tail = m.advance.frames ∧
      ∀ n m'', m'.ReturnsIn n m'' →
        m''.frames = m'.frames.tail ∧ ∃ v, m''.operands = v :: rest := by
  rcases h with ⟨hl, fr, inner, _, hlayers, hfrs, hops⟩ | ⟨hfrs, -⟩
  · rw [List.append_nil] at hfrs hops
    cases hlayers with
    | @cons _ _ _ own below height hbelow =>
      obtain ⟨i, hi, -⟩ := height.fits hp
      have hop : i.op = .call x := by
        rw [← m.put_self_of_frames hfrs, site?_put hi] at hx
        exact Option.some.inj hx
      obtain ⟨f, t, args, own', hf, -, rfl, hargs, htemplates, hframes, hoperands, hcallee, -⟩ :=
        Machine.step_call hp hl hfrs height hi hop hstep
      have hoperands' : m'.operands = args ++ (own' ++ below) := by
        rw [hoperands, hops, List.append_assoc]
      have habove : m'.Above p (past fr :: inner) (own' ++ below) := by
        refine ⟨?_, _, [], args ++ [], .cons hcallee (.nil 1), hframes, ?_⟩
        · intro y g hg
          rw [template?, htemplates]
          exact hl y g hg
        · rw [hoperands', List.append_nil]
      refine ⟨f, args, own' ++ below, hf, hargs, hoperands', hoperands, ?_, fun n m'' hret ↦ ?_⟩
      · rw [hframes, advance, hfrs]
        rfl
      · obtain ⟨hback, v, hv⟩ := habove.returnsIn hp (by rw [hframes]; rfl) hret
        rw [hframes]
        exact ⟨hback, v, hv⟩
  · rw [site?, hfrs] at hx
    cases hx

end

/-- **Stack discipline.** The templates of a checked program, folded or not, have heights that fit.
On any machine they can be started, and then every call takes its arguments from the top of the
stack and, when the function has returned, has left everything else as it was, with one value in
their place. A run that finishes leaves no operands. -/
theorem Program.stack_discipline {p : Program} (hcheck : p.check = .ok ()) {q : Program}
    (hq : q ∈ [p, p.folded]) {ts : List Template} (hcode : q.code = .ok ts) :
    List.Forall₂ (fun f t ↦ t.name = f.name.text ∧
      ∃ height, t.FitsHeights q f.params.length height) q.functions ts ∧
    ∀ m₀ : Machine, ∃ m, m₀.startTemplates ts = (.ok (), m) ∧
      (∀ n m₁ m₂ x, m.runFor n = (.running, m₁) →
        m₁.site?.map (·.instr.op) = some (.call x) → m₁.step = (.running, m₂) →
        ∃ f args rest, q.function? x = some f ∧ args.length = f.params.length ∧
          m₂.operands = args ++ rest ∧ m₂.operands = m₁.operands ∧
          m₂.frames.tail = m₁.advance.frames ∧
          ∀ k m₃, m₂.ReturnsIn k m₃ →
            m₃.frames = m₂.frames.tail ∧ ∃ v, m₃.operands = v :: rest) ∧
      ∀ n m', m.runFor n = (.finished, m') → m'.frames = [] ∧ m'.operands = [] := by
  have hp : q.Checked := by
    have hchecked := Program.checked_of_check hcheck
    rcases List.mem_pair.mp hq with rfl | rfl
    · exact hchecked
    · exact hchecked.folded
  refine ⟨?_, fun m₀ ↦ ?_⟩
  · have hall := (List.forall₂_and_left q.functions ts).mpr
      ⟨fun f hf ↦ hf, forall₂_of_mapM_eq_ok hcode⟩
    refine hall.imp ?_
    rintro f t ⟨hf, hft⟩
    exact ⟨FunDef.code_name hft, f.heightAt q, FunDef.fitsHeights hp hf hft⟩
  · obtain ⟨m, hstart, hlayered⟩ := hp.layered_start hcode m₀
    exact ⟨m, hstart, fun n m₁ m₂ x hrun hx hstep ↦ (hlayered.runFor hp hrun).call hp hx hstep,
      fun n m' hrun ↦ hlayered.finished hp hrun⟩

/-- Whether a machine calls `x` after `a` steps, has it return `b` steps later, and finishes in
`c` steps. -/
def Machine.callsAndFinishes (x : String) (a b c : Nat) (m : Machine) : Bool :=
  (m.runFor a).1 = .running ∧ (m.runFor a).2.site?.map (·.instr.op) = some (.call x) ∧
    (m.runFor a).2.step.1 = .running ∧ ((m.runFor a).2.step.2.runFor b).1 = .running ∧
    ((m.runFor a).2.step.2.runFor b).2.frames.length < (m.runFor a).2.step.2.frames.length ∧
    (∀ k < b, (m.runFor a).2.step.2.frames.length ≤
      ((m.runFor a).2.step.2.runFor k).2.frames.length) ∧
    (m.runFor c).1 = .finished

/-- A function that calls itself twice, called while an operand waits below its argument. -/
theorem Program.stack_discipline_recursion :
    ∃ p ts m m₁ m₂ m₃, parseSource
        ("int f(n: int) \x7b if n < 1 \x7b return 0 \x7d return n + f(n - 1) \x7d " ++
          "void main() \x7b print(10 + f(2)) \x7d") = .ok p ∧
      p.check = .ok () ∧ p.folded.code = .ok ts ∧
      (Machine.fresh .standard []).startTemplates ts = (.ok (), m) ∧
      m.runFor 2 = (.running, m₁) ∧ m₁.site?.map (·.instr.op) = some (.call "f") ∧
      m₁.step = (.running, m₂) ∧ m₂.ReturnsIn 31 m₃ ∧ m₃.frames = m₂.frames.tail ∧
      ∃ m', m.runFor 39 = (.finished, m') ∧ m'.operands = [] := by
  have hok : (parseSource
      ("int f(n: int) \x7b if n < 1 \x7b return 0 \x7d return n + f(n - 1) \x7d " ++
        "void main() \x7b print(10 + f(2)) \x7d")).toOption.any
      (fun p ↦ p.check.isOk && p.folded.code.toOption.any fun ts ↦
        ((Machine.fresh .standard []).startTemplates ts).2.callsAndFinishes "f" 2 31 39) =
      true := by
    decide +kernel
  obtain ⟨p, hp, h⟩ := eq_ok_of_any hok
  rw [Bool.and_eq_true] at h
  obtain ⟨hcheck, hrun⟩ := h
  obtain ⟨_, hcheck⟩ := eq_ok_of_isOk hcheck
  obtain ⟨ts, hcode, hrun⟩ := eq_ok_of_any hrun
  obtain ⟨-, hrest⟩ := Program.stack_discipline hcheck (List.mem_pair.mpr (.inr rfl)) hcode
  obtain ⟨m, hstart, hcalls, hends⟩ := hrest (Machine.fresh .standard [])
  rw [hstart] at hrun
  obtain ⟨hm₁, hsite, hm₂, hm₃, hshort, hdeep, hend⟩ := of_decide_eq_true hrun
  have hret : Machine.ReturnsIn (m.runFor 2).2.step.2 31 _ := ⟨Prod.ext hm₃ rfl, hshort, hdeep⟩
  obtain ⟨f, args, rest, -, -, -, -, -, hback⟩ :=
    hcalls 2 _ _ "f" (Prod.ext hm₁ rfl) hsite (Prod.ext hm₂ rfl)
  exact ⟨p, ts, m, _, _, _, hp, hcheck, hcode, hstart, Prod.ext hm₁ rfl, hsite, Prod.ext hm₂ rfl,
    hret, (hback 31 _ hret).1, _, Prod.ext hend rfl, (hends 39 _ (Prod.ext hend rfl)).2⟩

end Pebble
