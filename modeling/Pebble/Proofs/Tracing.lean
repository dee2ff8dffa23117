import Pebble.Proofs.Grafting

/-!
# Notes and traces

The notes on instructions and the trace of a run are there for a reader, and the machine does not
look at either. Machines that differ in notes, in whether they are traced and in what they have
written so far match (`Machine.Matches`), and an operation comes to the same on both.

## What a trace adds

The log of a run (`Machine.logFor`) has one entry for each instruction that is begun: where it
stands, the value on top of the stack, and the text that it writes itself. A run that is not traced
writes the texts one after the other, and a run that is traced writes the record of each entry and
then its text. An instruction that the limit on steps stops is begun and has an entry, with no text.

What an instruction writes is defined as what it writes where nothing has been written yet. That
this does not depend on what has been written is where grafting comes in: a machine is the same
machine without its output, put onto that output.
-/

namespace Pebble

/-! ## Without notes -/

def Instr.unnoted (i : Instr) : Instr :=
  { i with note := none }

def Template.unnoted (t : Template) : Template :=
  { t with instrs := t.instrs.map Instr.unnoted }

def Frame.unnoted (fr : Frame) : Frame :=
  { fr with template := fr.template.unnoted }

def Site.unnoted (s : Site) : Site :=
  { s with instr := s.instr.unnoted }

def FaultReport.unnoted (r : FaultReport) : FaultReport :=
  { r with site := r.site.map Site.unnoted }

/-- How a run stands, without the note on the instruction where it failed. -/
def Status.unnoted : Status → Status
  | failed r => failed r.unnoted
  | st => st

theorem Status.unnoted_eq_running_iff {st : Status} : st.unnoted = .running ↔ st = .running := by
  cases st with
  | failed r => exact ⟨nofun, nofun⟩
  | running | finished => rfl

/-- Frames of one name at the same instruction of the same code, up to notes, with the same
slots. -/
theorem Frame.unnoted_eq_iff {fr fr' : Frame} :
    fr'.unnoted = fr.unnoted ↔
      fr'.template.unnoted = fr.template.unnoted ∧ fr'.slots = fr.slots ∧ fr'.pc = fr.pc := by
  rw [unnoted, unnoted, Frame.mk.injEq]

/-- Machines that differ in the notes on their instructions, in whether they are traced and in what
they have written. -/
structure Machine.Matches (m m' : Machine) : Prop where
  templates : ∀ x, (m'.template? x).map Template.unnoted = (m.template? x).map Template.unnoted
  frames : m'.frames.map Frame.unnoted = m.frames.map Frame.unnoted
  operands : m'.operands = m.operands
  store : m'.store = m.store
  input : m'.input = m.input
  limits : m'.limits = m.limits
  steps : m'.steps = m.steps

/-! ## Operations -/

/-- The machine that an action has left behind. -/
def Exec.after {α : Type} : EStateM.Result Fault Machine α → Machine
  | .ok _ m => m
  | .error _ m => m

/-- What an operation writes. -/
def Op.writing (op : Op) (m : Machine) : String :=
  (Exec.after (op.exec m.mute)).output

/-- Both machines have succeeded or both have faulted in the same way, and both have added the same
text to what they had written. -/
inductive Exec.Matched (out out' : String) :
    EStateM.Result Fault Machine Unit → EStateM.Result Fault Machine Unit → Prop where
  | ok {m m' : Machine} (text : String) (h : m.Matches m') (hout : m.output = out ++ text)
      (hout' : m'.output = out' ++ text) : Matched out out' (.ok () m) (.ok () m')
  | error (e : Fault) {m m' : Machine} (text : String) (h : m.Matches m')
      (hout : m.output = out ++ text) (hout' : m'.output = out' ++ text) :
      Matched out out' (.error e m) (.error e m')

namespace Exec.Matched

variable {out out' : String} {r r' : EStateM.Result Fault Machine Unit} {m m' : Machine}

/-- Nothing has been added. -/
theorem ok_same (h : m.Matches m') (hout : m.output = out) (hout' : m'.output = out') :
    Matched out out' (.ok () m) (.ok () m') :=
  .ok "" h (by rw [hout, String.append_empty]) (by rw [hout', String.append_empty])

theorem error_same (e : Fault) (h : m.Matches m') (hout : m.output = out)
    (hout' : m'.output = out') : Matched out out' (.error e m) (.error e m') :=
  .error e "" h (by rw [hout, String.append_empty]) (by rw [hout', String.append_empty])

theorem output (h : Matched out out' r r') :
    ∃ text, (after r).output = out ++ text ∧ (after r').output = out' ++ text := by
  cases h with
  | ok text _ hout hout' => exact ⟨text, hout, hout'⟩
  | error _ text _ hout hout' => exact ⟨text, hout, hout'⟩

end Exec.Matched

namespace Machine.Matches

variable {m m' : Machine}

theorem refl (m : Machine) : m.Matches m :=
  ⟨fun _ ↦ rfl, rfl, rfl, rfl, rfl, rfl, rfl⟩

/-- Either there are no frames on both sides, or the innermost ones match, and so do the others. -/
theorem frames_cases (h : m.Matches m') :
    m.frames = [] ∧ m'.frames = [] ∨
      ∃ fr fr' frs frs', m.frames = fr :: frs ∧ m'.frames = fr' :: frs' ∧
        fr'.unnoted = fr.unnoted ∧ frs'.map Frame.unnoted = frs.map Frame.unnoted := by
  have hframes := h.frames
  generalize m.frames = frs, m'.frames = frs' at hframes
  cases frs with
  | nil =>
    refine .inl ⟨rfl, ?_⟩
    exact List.map_eq_nil_iff.mp hframes
  | cons fr frs =>
    cases frs' with
    | nil => cases hframes
    | cons fr' frs' =>
      obtain ⟨hfr, hfrs⟩ := List.cons.inj hframes
      exact .inr ⟨fr, fr', frs, frs', rfl, rfl, hfr, hfrs⟩

/-- An operation on operands: both machines are the first one without its output, put onto what is
left of them. -/
theorem action {op : Op} (hop : op.isAction = true) (h : m.Matches m') :
    Exec.Matched m.output m'.output (op.exec m) (op.exec m') := by
  have hgrafted : ∀ host : Machine, m.Matches host →
      Grafted host.bare id (op.exec m.mute) (op.exec host) := by
    intro host hhost
    have hgraft : host.bare.graft m.mute = host := by
      refine Eq.trans ?_ host.graft_bare_mute
      simp only [graft, mute, hhost.operands, hhost.store, hhost.input]
    have hgrafted : Grafted host.bare id (op.exec m.mute) (op.exec (host.bare.graft m.mute)) :=
      Op.grafted_of_limits hop (fun v _ ↦ host.shift_bare v) (fun _ v _ ↦ host.shift_bare v)
        hhost.limits
    rwa [hgraft] at hgrafted
  have hfirst := hgrafted m (.refl m)
  have hsecond := hgrafted m' h
  generalize op.exec m.mute = r at hfirst hsecond
  cases r with
  | ok u m₁ =>
    rw [hfirst.of_ok, hsecond.of_ok]
    exact .ok m₁.output { h with operands := rfl, store := rfl, input := rfl } rfl rfl
  | error e m₁ =>
    rw [hfirst.of_error, hsecond.of_error]
    exact .error _ m₁.output { h with operands := rfl, store := rfl, input := rfl } rfl rfl

theorem jump (target : Int) (h : m.Matches m') :
    Exec.Matched m.output m'.output ((Op.jump target).exec m) ((Op.jump target).exec m') := by
  rw [Op.jump_eq, Op.jump_eq]
  cases target with
  | negSucc n => exact .error_same _ h rfl rfl
  | ofNat n =>
    rcases h.frames_cases with ⟨hm, hm'⟩ | ⟨fr, fr', frs, frs', hm, hm', hfr, hfrs⟩
    · rw [hm, hm']
      exact .error_same _ h rfl rfl
    · rw [hm, hm']
      have hgoto : (fr'.goto n).unnoted = (fr.goto n).unnoted := by
        obtain ⟨ht, hslots, -⟩ := Frame.unnoted_eq_iff.mp hfr
        exact Frame.unnoted_eq_iff.mpr ⟨ht, hslots, rfl⟩
      exact .ok_same { h with frames := congrArg₂ List.cons hgoto hfrs } rfl rfl

/-- An operation comes to the same on machines that match, and writes the same. -/
theorem exec (op : Op) (h : m.Matches m') :
    Exec.Matched m.output m'.output (op.exec m) (op.exec m') := by
  -- Grafting settles the operations on operands. The others look at frames, which differ in notes.
  cases hop : op.isAction with
  | true => exact h.action hop
  | false =>
    cases op with
    | load slot =>
      rw [Op.load_eq, Op.load_eq]
      rcases h.frames_cases with ⟨hm, hm'⟩ | ⟨fr, fr', frs, frs', hm, hm', hfr, -⟩
      · rw [hm, hm']
        exact .error_same _ h rfl rfl
      · rw [hm, hm']
        simp only [Frame.load, (Frame.unnoted_eq_iff.mp hfr).2.1]
        cases fr.slots[slot]? with
        | none => exact .error_same _ h rfl rfl
        | some v => exact .ok_same { h with operands := congrArg (v :: ·) h.operands } rfl rfl
    | store slot =>
      rw [Op.store_eq, Op.store_eq, h.operands]
      cases m.operands with
      | nil => exact .error_same _ h rfl rfl
      | cons v vs =>
        rcases h.frames_cases with ⟨hm, hm'⟩ | ⟨fr, fr', frs, frs', hm, hm', hfr, hfrs⟩
        · rw [hm, hm']
          exact .error_same _ { h with operands := rfl } rfl rfl
        · rw [hm, hm']
          have hstore : (fr'.store slot v).unnoted = (fr.store slot v).unnoted := by
            obtain ⟨ht, hslots, hpc⟩ := Frame.unnoted_eq_iff.mp hfr
            refine Frame.unnoted_eq_iff.mpr ⟨ht, ?_, hpc⟩
            rw [Frame.store, Frame.store, hslots]
          exact .ok_same { h with operands := rfl, frames := congrArg₂ List.cons hstore hfrs }
            rfl rfl
    | jump target => exact h.jump target
    | jumpUnless target =>
      rw [Op.jumpUnless_eq, Op.jumpUnless_eq, h.operands]
      cases m.operands with
      | nil => exact .error_same _ h rfl rfl
      | cons v vs =>
        have hvs : (m.withOperands vs).Matches (m'.withOperands vs) := { h with operands := rfl }
        cases v with
        | bool b =>
          cases b with
          | true => exact .ok_same hvs rfl rfl
          | false => exact hvs.jump target
        | null | int | double | str | ref => exact .error_same _ hvs rfl rfl
    | call x =>
      have hlength : m'.frames.length = m.frames.length := by
        have := congrArg List.length h.frames
        rwa [List.length_map, List.length_map] at this
      have ht := h.templates x
      rw [Op.call_eq, Op.call_eq, hlength, h.limits]
      generalize m.template? x = t, m'.template? x = t' at ht
      cases t with
      | none =>
        rw [Option.map_eq_none_iff.mp ht]
        exact .error_same _ h rfl rfl
      | some t =>
        obtain ⟨t', rfl, ht'⟩ := Option.map_eq_some_iff.mp ht
        by_cases hdepth : m.limits.callDepth ≤ m.frames.length
        · simp only [if_pos hdepth]
          exact .error_same _ h rfl rfl
        · simp only [if_neg hdepth]
          have henter : (Frame.enter t').unnoted = (Frame.enter t).unnoted :=
            Frame.unnoted_eq_iff.mpr ⟨ht', rfl, rfl⟩
          exact .ok_same { h with frames := congrArg₂ List.cons henter h.frames } rfl rfl
    | ret =>
      rw [Op.ret_eq, Op.ret_eq]
      have htail : m'.frames.tail.map Frame.unnoted = m.frames.tail.map Frame.unnoted := by
        rw [List.map_tail, List.map_tail, h.frames]
      have hback : handedBack m'.frames.tail m'.operands = handedBack m.frames.tail m.operands := by
        have hempty := congrArg List.isEmpty htail
        rw [List.isEmpty_map, List.isEmpty_map] at hempty
        rw [handedBack, handedBack, hempty, h.operands]
      exact .ok_same { h with operands := hback, frames := htail } rfl rfl
    | _ => cases hop

end Machine.Matches

/-- What an operation adds to the output does not depend on what is there. -/
theorem Op.output_exec (op : Op) (m : Machine) :
    (Exec.after (op.exec m)).output = m.output ++ op.writing m := by
  have hmute : m.mute.Matches m := { Machine.Matches.refl m with }
  obtain ⟨text, hmuted, hout⟩ := (hmute.exec op).output
  rw [hout, Op.writing, hmuted]
  exact congrArg (m.output ++ ·) String.empty_append.symm

theorem Machine.Matches.writing {m m' : Machine} (h : m.Matches m') (op : Op) :
    op.writing m' = op.writing m := by
  have hmute : m.mute.Matches m'.mute := { h with }
  obtain ⟨text, hout, hout'⟩ := (hmute.exec op).output
  rw [Op.writing, Op.writing, hout, hout']
  rfl

/-- An operation neither counts steps nor turns the trace on or off. -/
theorem Op.after_exec (op : Op) (m : Machine) :
    (Exec.after (op.exec m)).steps = m.steps ∧ (Exec.after (op.exec m)).tracing = m.tracing := by
  have hcomes := op.comesTo m
  generalize op.exec m = r at hcomes
  cases hcomes with
  | ok => exact ⟨rfl, rfl⟩
  | error => exact ⟨rfl, rfl⟩

/-! ## Steps -/

/-- An instruction that is begun. -/
structure LogEntry where
  site : Site
  /-- The value on top of the stack. -/
  top : Option Value
  /-- What the instruction writes itself. -/
  text : String

namespace LogEntry

/-- The line of a trace: the frame and the index of the instruction, the instruction with its note,
and the value on top of the stack. -/
def record (e : LogEntry) : String :=
  "[" ++ e.site.template ++ " " ++ Text.padZeros 4 e.site.pc ++ "] " ++
    Text.padBlanks 28 e.site.instr.text ++ " top: " ++
    e.top.elim "<empty>" Value.structureText ++ "\n"

/-- What is written for an instruction, with or without a trace. -/
def pieces (tracing : Bool) (e : LogEntry) : List String :=
  if tracing then [e.record, e.text] else [e.text]

end LogEntry

/-- What a run with these entries writes, piece by piece. -/
def logPieces (tracing : Bool) (log : List LogEntry) : List String :=
  log.flatMap (LogEntry.pieces tracing)

def transcript (tracing : Bool) (log : List LogEntry) : String :=
  String.join (logPieces tracing log)

namespace Machine

/-- The entry of the next instruction. It writes nothing if the limit on steps stops it. -/
def entry (m : Machine) (site : Site) : LogEntry where
  site := site
  top := m.operands.head?
  text := if m.exhausted?.isSome then "" else site.instr.op.writing (m.begun site)

/-- The entries of the instructions that are begun in the next `n` steps. -/
def logFor : Nat → Machine → List LogEntry
  | 0, _ => []
  | n + 1, m =>
    match m.site? with
    | none => []
    | some site => m.entry site ::
      match m.step with
      | (.running, m') => logFor n m'
      | _ => []

variable {m m' : Machine} {site site' : Site}

theorem exists_of_site? (h : m.site? = some site) :
    ∃ fr frs i, m.frames = fr :: frs ∧ fr.template.instrs[fr.pc]? = some i ∧
      site = siteOf fr i := by
  rw [site?] at h
  cases hm : m.frames with
  | nil => rw [hm] at h; cases h
  | cons fr frs =>
    rw [hm] at h
    obtain ⟨i, hi, rfl⟩ := Option.map_eq_some_iff.mp h
    exact ⟨fr, frs, i, rfl, hi, rfl⟩

/-- What has been written when an instruction is begun. -/
theorem begun_output {fr : Frame} {frs : List Frame} (h : m.frames = fr :: frs) (site : Site) :
    (m.begun site).output = m.output ++ if m.tracing then m.traceLine site else "" := by
  have hadvance : m.advance = m.put (past fr :: frs) m.operands m.world m.steps := by
    rw [advance, h]
    rfl
  change (m.advance.traced site).output = _
  rw [hadvance, traced, put_tracing]
  by_cases htr : m.tracing = true
  · rw [if_pos htr, if_pos htr]
    rfl
  · rw [if_neg htr, if_neg htr, String.append_empty]
    rfl

/-- Where a step leads. -/
theorem step_snd (h : m.site? = some site) :
    m.step.2 = if m.exhausted?.isSome then m.begun site
      else Exec.after (site.instr.op.exec (m.begun site)) := by
  rw [step_of_site h]
  cases m.exhausted? with
  | some limit => rfl
  | none =>
    simp only
    cases site.instr.op.exec (m.begun site) with
    | error e m₁ => rfl
    | ok u m₁ =>
      simp only
      split <;> rfl

theorem traceLine_eq (m : Machine) (site : Site) : m.traceLine site = (m.entry site).record := by
  rw [traceLine, LogEntry.record, entry]
  cases m.operands with
  | nil => rfl
  | cons v vs => rfl

theorem join_pieces (tracing : Bool) (e : LogEntry) :
    String.join (e.pieces tracing) = (if tracing then e.record else "") ++ e.text := by
  cases tracing <;> simp [LogEntry.pieces]

theorem transcript_cons (tracing : Bool) (e : LogEntry) (log : List LogEntry) :
    transcript tracing (e :: log) = String.join (e.pieces tracing) ++ transcript tracing log := by
  rw [transcript, logPieces, List.flatMap_cons, String.join_append, transcript, logPieces]

/-- Without a trace the texts are all that is written. -/
theorem transcript_false (log : List LogEntry) :
    transcript false log = String.join (log.map LogEntry.text) := by
  rw [transcript, logPieces, List.map_eq_flatMap]
  rfl

/-- A step counts as one and writes its line, if there is a trace, and then its text. -/
theorem step_output (h : m.site? = some site) :
    m.step.2.output = m.output ++ String.join ((m.entry site).pieces m.tracing) ∧
      m.step.2.steps = m.steps + 1 ∧ m.step.2.tracing = m.tracing := by
  obtain ⟨fr, frs, i, hm, -, -⟩ := exists_of_site? h
  obtain ⟨out, -, hbegun⟩ := begun_eq hm site
  have hout := begun_output hm site
  have hsteps : (m.begun site).steps = m.steps + 1 := rfl
  have htracing : (m.begun site).tracing = m.tracing := by
    rw [hbegun, put_tracing]
  rw [step_snd h, join_pieces, ← traceLine_eq, entry]
  cases m.exhausted? with
  | some limit =>
    refine ⟨?_, hsteps, htracing⟩
    simp only [Option.isSome_some, if_true, String.append_empty]
    exact hout
  | none =>
    obtain ⟨hsteps', htracing'⟩ := site.instr.op.after_exec (m.begun site)
    refine ⟨?_, hsteps'.trans hsteps, htracing'.trans htracing⟩
    simp only [Option.isSome_none, Bool.false_eq_true, if_false]
    rw [Op.output_exec, hout, String.append_assoc]

/-! ## Runs -/

theorem logFor_succ_of_no_site (h : m.site? = none) (n : Nat) : m.logFor (n + 1) = [] := by
  rw [logFor, h]

theorem logFor_succ_of_running (h : m.site? = some site) (hstep : m.step = (.running, m'))
    (n : Nat) : m.logFor (n + 1) = m.entry site :: m'.logFor n := by
  rw [logFor, h, hstep]

theorem logFor_succ_of_ended {st : Status} (h : m.site? = some site) (hstep : m.step = (st, m'))
    (hst : st ≠ .running) (n : Nat) : m.logFor (n + 1) = [m.entry site] := by
  rw [logFor, h, hstep]
  cases st with
  | running => exact absurd rfl hst
  | finished => rfl
  | failed r => rfl

/-- A run writes its log, and its steps are the entries. -/
theorem runFor_output (n : Nat) (m : Machine) :
    (m.runFor n).2.output = m.output ++ transcript m.tracing (m.logFor n) ∧
      (m.runFor n).2.steps = m.steps + (m.logFor n).length := by
  induction n generalizing m with
  | zero => exact ⟨String.append_empty.symm, rfl⟩
  | succ n ih =>
    cases hsite : m.site? with
    | none =>
      rw [runFor_succ, step_of_no_site hsite, logFor_succ_of_no_site hsite]
      exact ⟨String.append_empty.symm, rfl⟩
    | some site =>
      obtain ⟨hout, hsteps, htracing⟩ := step_output hsite
      rcases hstep : m.step with ⟨st, m₁⟩
      rw [hstep] at hout hsteps htracing
      by_cases hst : st = .running
      · rw [hst] at hstep
        obtain ⟨ihout, ihsteps⟩ := ih m₁
        rw [runFor_succ_of_running hstep, logFor_succ_of_running hsite hstep]
        constructor
        · rw [ihout, hout, htracing, transcript_cons, String.append_assoc]
        · rw [ihsteps, hsteps, List.length_cons, Nat.add_right_comm, Nat.add_assoc]
      · rw [runFor_succ_of_ended hstep hst, logFor_succ_of_ended hsite hstep hst]
        constructor
        · rw [hout, transcript_cons]
          exact congrArg (m.output ++ ·) String.append_empty.symm
        · exact hsteps

/-- The entries are those of the instructions that the run comes to, in this order. -/
theorem exists_of_getElem?_logFor {n k : Nat} {e : LogEntry} (h : (m.logFor n)[k]? = some e) :
    ∃ m' site, m.runFor k = (.running, m') ∧ m'.site? = some site ∧ e = m'.entry site := by
  induction n generalizing m k with
  | zero => cases h
  | succ n ih =>
    cases hsite : m.site? with
    | none =>
      rw [logFor_succ_of_no_site hsite] at h
      cases h
    | some site =>
      cases k with
      | zero =>
        rw [logFor, hsite] at h
        exact ⟨m, site, rfl, hsite, (Option.some.inj h).symm⟩
      | succ k =>
        rcases hstep : m.step with ⟨st, m₁⟩
        by_cases hst : st = .running
        · rw [hst] at hstep
          rw [logFor_succ_of_running hsite hstep] at h
          rw [runFor_succ_of_running hstep]
          exact ih h
        · rw [logFor_succ_of_ended hsite hstep hst] at h
          cases h

/-- The log of a run of `main`. -/
def mainLog (n : Nat) (m : Machine) : List LogEntry :=
  match m.start with
  | (.running, m') => m'.logFor n
  | _ => []

theorem mainLog_of_running (h : m.start = (.running, m')) (n : Nat) :
    m.mainLog n = m'.logFor n := by
  rw [mainLog, h]

theorem mainLog_of_not_running {st : Status} (h : m.start = (st, m')) (hst : st ≠ .running)
    (n : Nat) : m.mainLog n = [] := by
  rw [mainLog, h]
  cases st with
  | running => exact absurd rfl hst
  | finished => rfl
  | failed r => rfl

/-- A run of `main` writes its log, and its steps are the entries. -/
theorem runMain_output (n : Nat) (m : Machine) :
    (m.runMain n).2.output = m.output ++ transcript m.tracing (m.mainLog n) ∧
      (m.runMain n).2.steps = (m.mainLog n).length := by
  rw [runMain, mainLog, start]
  cases m.reset.template? "main" with
  | none => exact ⟨String.append_empty.symm, rfl⟩
  | some t =>
    obtain ⟨hout, hsteps⟩ := runFor_output n { m.reset with frames := [.enter t] }
    exact ⟨hout, hsteps.trans (Nat.zero_add _)⟩

theorem exists_of_getElem?_mainLog {n k : Nat} {e : LogEntry} (h : (m.mainLog n)[k]? = some e) :
    ∃ m' site, m.runMain k = (.running, m') ∧ m'.site? = some site ∧ e = m'.entry site := by
  rcases hstart : m.start with ⟨st, m₁⟩
  by_cases hst : st = .running
  · rw [hst] at hstart
    rw [mainLog_of_running hstart] at h
    rw [runMain_of_running hstart]
    exact exists_of_getElem?_logFor h
  · rw [mainLog_of_not_running hstart hst] at h
    cases h

end Machine

end Pebble
