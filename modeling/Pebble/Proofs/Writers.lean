import Pebble.Proofs.Tracing

/-!
# Writers that refuse

A machine writes to itself, and that cannot fail. What it writes to outside can: a pipe is closed,
or a disk is full. Here the machine writes to a `Writer` that may refuse a text, and may refuse to
be flushed when the run has ended. A run that has been refused something has no outcome.

A run that has an outcome is the run of the machine on its own, and there is one exactly if the
writer takes all pieces that the log of that run tells of (`Writer.Serves`).
-/

namespace Pebble

/-- Where the output goes. Whether a text is taken may depend on what has been taken before. -/
structure Writer where
  accepts : String → String → Bool
  /-- Nothing is written for an empty text, so there is nothing to refuse. -/
  accepts_empty : ∀ held, accepts held "" = true
  flushes : String → Bool

namespace Writer

variable (w : Writer)

/-- Writes a text, if the writer takes it. -/
def write (s : String) : OptionT Exec Unit := do
  if w.accepts (← get).output s then Exec.write s else failure

/-- Writes the trace, if it is wanted. -/
def trace (site : Site) : OptionT Exec Unit := do
  if (← get).tracing then
    w.write ((← get).traceLine site)

/-- Executes an operation. Only one of them writes. -/
def exec : Op → OptionT Exec Unit
  | .write => do w.write (← Exec.pop).text
  | op => op.exec

/-- All that is done for one instruction. -/
def execute (site : Site) : OptionT Exec Unit := do
  w.trace site
  Machine.countStep
  w.exec site.instr.op
  Machine.countOperands

/-- Executes one instruction, if there is one left. -/
def step (m : Machine) : Option (Status × Machine) :=
  match m.site? with
  | none => some (.finished, m)
  | some site =>
    match (w.execute site).run m.advance with
    | .ok none _ => none
    | .ok (some _) m => some (.running, m)
    | .error fault m => some (.failed ⟨fault, some site⟩, m)

/-- Executes instructions until the run ends, but at most `n`. -/
def runFor : Nat → Machine → Option (Status × Machine)
  | 0, m => some (.running, m)
  | n + 1, m =>
    match w.step m with
    | some (.running, m) => runFor n m
    | ended => ended

/-- A run of `main`. When it has ended, the writer is flushed. -/
def runMain (n : Nat) (m : Machine) : Option (Status × Machine) :=
  match m.start with
  | (.running, m) =>
    match w.runFor n m with
    | some (.running, m) => some (.running, m)
    | some (st, m) => if w.flushes m.output then some (st, m) else none
    | none => none
  | ended => some ended

/-- The writer takes these texts, one after the other. -/
def takes : String → List String → Bool
  | _, [] => true
  | held, s :: ss => w.accepts held s && takes (held ++ s) ss

/-- The writer takes all that a run of `main` writes, and it can be flushed at the end. -/
structure Serves (m : Machine) (n : Nat) : Prop where
  takes : w.takes m.output (logPieces m.tracing (m.mainLog n)) = true
  flushes : m.start.1 = .running → (m.runMain n).1 ≠ .running →
    w.flushes (m.runMain n).2.output = true

end Writer

/-! ## One instruction -/

/-- No operation but writing changes the output. -/
theorem Op.writing_of_ne_write {op : Op} (hop : op ≠ .write) (m : Machine) :
    op.writing m = "" := by
  have hinvariant := Machine.invariant_eq Machine.output (fun _ _ ↦ rfl) (fun _ _ ↦ rfl) ""
  have hmaintains : Exec.Maintains (·.output = "") op.exec fun _ ↦ True :=
    Op.maintains_exec hinvariant (fun _ _ ↦ trivial) (fun _ _ _ hm ↦ hm)
      (fun hwrite ↦ absurd hwrite hop) fun _ ↦ ⟨fun _ ↦ trivial, fun hm ↦ hm⟩
  have hkeeps := hmaintains m.mute rfl
  rw [Op.writing]
  generalize op.exec m.mute = r at hkeeps
  cases r with
  | ok a m' => exact hkeeps.1
  | error e m' => exact hkeeps

/-- To begin a run neither writes anything nor turns the trace on or off. -/
theorem Machine.start_output (m : Machine) :
    m.start.2.output = m.output ∧ m.start.2.tracing = m.tracing := by
  rw [Machine.start]
  cases m.reset.template? "main" <;> exact ⟨rfl, rfl⟩

/-- What an action comes to where nothing is refused. -/
def Exec.served {α : Type} :
    EStateM.Result Fault Machine α → EStateM.Result Fault Machine (Option α)
  | .ok a m => .ok (some a) m
  | .error e m => .error e m

namespace Writer

variable {w : Writer} {m : Machine} {α β : Type}

theorem run_bind (x : OptionT Exec α) (f : α → OptionT Exec β) (m : Machine) :
    (x >>= f).run m = match x.run m with
      | .ok none m' => .ok none m'
      | .ok (some a) m' => (f a).run m'
      | .error e m' => .error e m' := by
  rw [OptionT.run_bind]
  simp only [Option.elimM, bind, EStateM.bind]
  cases x.run m with
  | error e m' => rfl
  | ok a m' => cases a <;> rfl

theorem run_lift (x : Exec α) (m : Machine) :
    (liftM x : OptionT Exec α).run m = Exec.served (x m) := by
  show EStateM.bind x _ m = _
  rw [EStateM.bind]
  cases x m <;> rfl

theorem run_write (s : String) (m : Machine) :
    (w.write s).run m =
      if w.accepts m.output s then .ok (some ()) { m with output := m.output ++ s }
      else .ok none m := by
  rw [write, run_bind]
  show (if w.accepts m.output s then _ else _ : OptionT Exec Unit).run m = _
  split <;> rfl

theorem run_trace (site : Site) (m : Machine) :
    (w.trace site).run m =
      if m.tracing = true ∧ w.accepts m.output (m.traceLine site) = false then .ok none m
      else .ok (some ()) (m.traced site) := by
  rw [trace, run_bind]
  show (if m.tracing then _ else _ : OptionT Exec Unit).run m = _
  rw [Machine.traced]
  by_cases htracing : m.tracing = true
  · rw [if_pos htracing, if_pos htracing, run_bind]
    show (w.write (m.traceLine site)).run m = _
    rw [run_write]
    cases w.accepts m.output (m.traceLine site) <;> simp [htracing]
  · rw [if_neg htracing, if_neg htracing, if_neg fun h ↦ htracing h.1]
    rfl

/-- An operation is executed as it is, unless it writes a text that is refused. -/
theorem run_exec (w : Writer) (op : Op) (m : Machine) :
    (w.accepts m.output (op.writing m) = true → (w.exec op).run m = Exec.served (op.exec m)) ∧
      (w.accepts m.output (op.writing m) = false → ∃ m', (w.exec op).run m = .ok none m') := by
  by_cases hop : op = .write
  · subst hop
    cases hops : m.operands with
    | nil =>
      obtain ⟨ts, ops, frs, σ, l, k, tr, inp, out⟩ := m
      obtain rfl : ops = [] := hops
      have hwriting : Op.write.writing ⟨ts, [], frs, σ, l, k, tr, inp, out⟩ = "" := rfl
      rw [hwriting, w.accepts_empty]
      exact ⟨fun _ ↦ rfl, nofun⟩
    | cons v vs =>
      obtain ⟨ts, ops, frs, σ, l, k, tr, inp, out⟩ := m
      obtain rfl : ops = v :: vs := hops
      have hwriting : Op.write.writing ⟨ts, v :: vs, frs, σ, l, k, tr, inp, out⟩ = v.text :=
        String.empty_append
      have hrun : (w.exec .write).run ⟨ts, v :: vs, frs, σ, l, k, tr, inp, out⟩ =
          (w.write v.text).run ⟨ts, vs, frs, σ, l, k, tr, inp, out⟩ := rfl
      rw [hwriting, hrun, run_write]
      refine ⟨fun haccepts ↦ ?_, fun hrefused ↦ ?_⟩
      · rw [if_pos haccepts]
        rfl
      · simp only [hrefused]
        exact ⟨_, rfl⟩
  · have hexec : (w.exec op).run m = Exec.served (op.exec m) := by
      cases op with
      | write => exact absurd rfl hop
      | _ => exact run_lift ..
    rw [Op.writing_of_ne_write hop, w.accepts_empty]
    exact ⟨fun _ ↦ hexec, nofun⟩

/-! ## Steps and runs -/

theorem takes_append (w : Writer) (held : String) (ss ss' : List String) :
    w.takes held (ss ++ ss') = (w.takes held ss && w.takes (held ++ String.join ss) ss') := by
  induction ss generalizing held with
  | nil => rw [List.nil_append, takes, Bool.true_and, String.join_nil, String.append_empty]
  | cons s ss ih =>
    rw [List.cons_append, takes, takes, ih, String.join_cons, String.append_assoc, Bool.and_assoc]

theorem run_execute (w : Writer) (site : Site) (m : Machine) :
    (w.execute site).run m =
      if m.tracing = true ∧ w.accepts m.output (m.traceLine site) = false then .ok none m
      else match (m.traced site).exhausted? with
        | some limit => .error (.stepLimit limit)
            { m.traced site with steps := (m.traced site).steps + 1 }
        | none =>
          match (w.exec site.instr.op).run
            { m.traced site with steps := (m.traced site).steps + 1 } with
          | .ok none m' => .ok none m'
          | .error e m' => .error e m'
          | .ok (some _) m' =>
            if m'.limits.operands < m'.operands.length then
              .error (.stackOverflow m'.limits.operands) m'
            else .ok (some ()) m' := by
  simp only [execute, run_bind, run_trace, run_lift, Machine.countStep_eq, Machine.countOperands_eq]
  by_cases hrefused : m.tracing = true ∧ w.accepts m.output (m.traceLine site) = false
  · simp only [if_pos hrefused]
  · simp only [if_neg hrefused]
    cases (m.traced site).exhausted? with
    | some limit => rfl
    | none =>
      simp only [Exec.served]
      cases (w.exec site.instr.op).run
          { m.traced site with steps := (m.traced site).steps + 1 } with
      | error e m' => rfl
      | ok a m' =>
        cases a with
        | none => rfl
        | some _ =>
          by_cases hcount : m'.limits.operands < m'.operands.length
          · simp only [if_pos hcount]
          · simp only [if_neg hcount]

/-- The record is taken first, if there is one, and then it is up to the text. -/
theorem takes_pieces (w : Writer) {site : Site} (h : m.site? = some site) :
    w.takes m.output ((m.entry site).pieces m.tracing) =
      if m.tracing = true ∧ w.accepts m.output (m.entry site).record = false then false
      else w.accepts (m.begun site).output (m.entry site).text := by
  obtain ⟨fr, frs, i, hm, -, -⟩ := Machine.exists_of_site? h
  rw [Machine.begun_output hm, Machine.traceLine_eq, LogEntry.pieces]
  cases m.tracing with
  | false => simp [takes]
  | true => cases haccepts : w.accepts m.output (m.entry site).record <;> simp [takes, haccepts]

/-- A step is taken as it is, unless the writer refuses a piece of it. -/
theorem step_eq (w : Writer) {site : Site} (h : m.site? = some site) :
    w.step m = if w.takes m.output ((m.entry site).pieces m.tracing) then some m.step else none := by
  obtain ⟨fr, frs, i, hm, -, -⟩ := Machine.exists_of_site? h
  have hadvance : m.advance = m.put (Machine.past fr :: frs) m.operands m.world m.steps := by
    rw [Machine.advance, hm]
    rfl
  have hline : m.advance.traceLine site = (m.entry site).record := by
    rw [hadvance, ← Machine.traceLine_eq]
    rfl
  have htracing : m.advance.tracing = m.tracing := by
    rw [hadvance, Machine.put_tracing]
  have houtput : m.advance.output = m.output := by
    rw [hadvance]
    rfl
  have htext : (m.entry site).text =
      if m.exhausted?.isSome then "" else site.instr.op.writing (m.begun site) := rfl
  obtain ⟨hexhausted, hsame⟩ := m.traced_advance site
  rw [step, h, w.takes_pieces h, htext]
  simp only [run_execute, hline, htracing, houtput, hexhausted, hsame, Machine.step_of_site h]
  by_cases hrefused : m.tracing = true ∧ w.accepts m.output (m.entry site).record = false
  · simp only [if_pos hrefused]
    rfl
  · simp only [if_neg hrefused]
    cases m.exhausted? with
    | some limit => exact (if_pos (w.accepts_empty _)).symm
    | none =>
      obtain ⟨hserved, hrefused⟩ := w.run_exec site.instr.op (m.begun site)
      simp only [Option.isSome_none, Bool.false_eq_true, if_false]
      cases haccepts : w.accepts (m.begun site).output (site.instr.op.writing (m.begun site)) with
      | false =>
        obtain ⟨m', hnone⟩ := hrefused haccepts
        simp only [hnone]
        rfl
      | true =>
        rw [hserved haccepts]
        cases site.instr.op.exec (m.begun site) with
        | error e m' => rfl
        | ok a m' =>
          simp only [Exec.served]
          by_cases hcount : m'.limits.operands < m'.operands.length
          · simp only [if_pos hcount]
            rfl
          · simp only [if_neg hcount]
            rfl

theorem runFor_eq (w : Writer) (n : Nat) (m : Machine) :
    w.runFor n m =
      if w.takes m.output (logPieces m.tracing (m.logFor n)) then some (m.runFor n) else none := by
  induction n generalizing m with
  | zero => rfl
  | succ n ih =>
    rw [runFor]
    cases hsite : m.site? with
    | none =>
      rw [Machine.logFor_succ_of_no_site hsite, Machine.runFor_succ, Machine.step_of_no_site hsite,
        step, hsite]
      rfl
    | some site =>
      obtain ⟨hout, -, htracing⟩ := Machine.step_output hsite
      rw [w.step_eq hsite]
      rcases hstep : m.step with ⟨st, m₁⟩
      rw [hstep] at hout htracing
      by_cases hst : st = .running
      · rw [hst] at hstep
        rw [Machine.logFor_succ_of_running hsite hstep, Machine.runFor_succ_of_running hstep,
          logPieces, List.flatMap_cons, takes_append, ← hout, ← htracing, ← logPieces, hst]
        cases w.takes m.output ((m.entry site).pieces m₁.tracing) with
        | false => rfl
        | true => exact ih m₁
      · rw [Machine.logFor_succ_of_ended hsite hstep hst,
          Machine.runFor_succ_of_ended hstep hst, logPieces, List.flatMap_singleton]
        cases w.takes m.output ((m.entry site).pieces m.tracing) with
        | false => rfl
        | true =>
          cases st with
          | running => exact absurd rfl hst
          | finished | failed => rfl

/-- A run of `main` is as it is if the writer serves it, and else it has no outcome. -/
theorem runMain_eq (w : Writer) (n : Nat) (m : Machine) :
    (w.Serves m n → w.runMain n m = some (m.runMain n)) ∧
      (¬ w.Serves m n → w.runMain n m = none) := by
  rcases m.start_cases with hstart | ⟨m', hstart, -⟩
  · have hrun : w.runMain n m = some (m.runMain n) := by
      rw [runMain, hstart, Machine.runMain_of_failed hstart]
    refine ⟨fun _ ↦ hrun, fun hserves ↦ absurd ⟨?_, fun hrunning ↦ ?_⟩ hserves⟩
    · rw [Machine.mainLog_of_not_running hstart nofun]
      rfl
    · rw [hstart] at hrunning
      cases hrunning
  · obtain ⟨hout, htracing⟩ := m.start_output
    rw [hstart] at hout htracing
    have hserves : w.Serves m n ↔
        w.takes m'.output (logPieces m'.tracing (m'.logFor n)) = true ∧
          ((m'.runFor n).1 ≠ .running → w.flushes (m'.runFor n).2.output = true) := by
      rw [hout, htracing, ← Machine.mainLog_of_running hstart, ← Machine.runMain_of_running hstart]
      exact ⟨fun h ↦ ⟨h.takes, h.flushes (congrArg Prod.fst hstart)⟩, fun h ↦ ⟨h.1, fun _ ↦ h.2⟩⟩
    rw [hserves, runMain, hstart, Machine.runMain_of_running hstart]
    simp only [runFor_eq]
    cases w.takes m'.output (logPieces m'.tracing (m'.logFor n)) with
    | false => exact ⟨fun h ↦ absurd h.1 Bool.false_ne_true, fun _ ↦ rfl⟩
    | true =>
      rcases m'.runFor n with ⟨st, m₁⟩
      cases st with
      | running => exact ⟨fun _ ↦ rfl, fun h ↦ absurd ⟨rfl, fun hst ↦ absurd rfl hst⟩ h⟩
      | finished | failed =>
        refine ⟨fun h ↦ if_pos (h.2 nofun), fun h ↦ if_neg fun hflush ↦ h ⟨rfl, fun _ ↦ hflush⟩⟩

end Writer

end Pebble
