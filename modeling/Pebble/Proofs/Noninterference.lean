import Pebble.Proofs.Writers

/-!
# Two runs

Machines that match take the same steps: they end in the same way with the same operands, objects
and input, and their logs are the same up to notes. What one of them writes with a trace is then what
the other one writes without, with a record before the text of each instruction.
-/

namespace Pebble

/-- An entry without the note on its instruction. -/
def LogEntry.unnoted (e : LogEntry) : LogEntry :=
  { e with site := e.site.unnoted }

namespace Machine.Matches

variable {m m' : Machine} {site site' : Site}

/-- Both machines are about to execute the same instruction, up to notes, or neither has one. -/
theorem site? (h : m.Matches m') : m'.site?.map Site.unnoted = m.site?.map Site.unnoted := by
  rw [Machine.site?, Machine.site?]
  rcases h.frames_cases with ⟨hm, hm'⟩ | ⟨fr, fr', frs, frs', hm, hm', hfr, -⟩
  · rw [hm, hm']
  · rw [hm, hm']
    obtain ⟨ht, -, hpc⟩ := Frame.unnoted_eq_iff.mp hfr
    have hname : fr'.template.name = fr.template.name :=
      (congrArg Template.name ht :)
    have hinstrs : fr'.template.instrs.map Instr.unnoted = fr.template.instrs.map Instr.unnoted :=
      congrArg Template.instrs ht
    have hinstr : fr'.template.instrs[fr.pc]?.map Instr.unnoted =
        fr.template.instrs[fr.pc]?.map Instr.unnoted := by
      rw [← Array.getElem?_map, ← Array.getElem?_map, hinstrs]
    have hsite := congrArg (Option.map (Site.mk fr.template.name fr.pc)) hinstr
    rw [Option.map_map, Option.map_map] at hsite
    simp only [hname, hpc, Option.map_map]
    exact hsite

theorem begun (h : m.Matches m') (hsite : m.site? = some site) (site' : Site) :
    (m.begun site).Matches (m'.begun site') := by
  rcases h.frames_cases with ⟨hm, -⟩ | ⟨fr, fr', frs, frs', hm, hm', hfr, hfrs⟩
  · obtain ⟨fr, frs, -, hcons, -⟩ := exists_of_site? hsite
    cases hm.symm.trans hcons
  · obtain ⟨out, -, hbegun⟩ := begun_eq hm site
    obtain ⟨out', -, hbegun'⟩ := begun_eq hm' site'
    have hpast : (past fr').unnoted = (past fr).unnoted := by
      obtain ⟨ht, hslots, hpc⟩ := Frame.unnoted_eq_iff.mp hfr
      exact Frame.unnoted_eq_iff.mpr ⟨ht, hslots, congrArg (· + 1) hpc⟩
    rw [hbegun, hbegun']
    exact { h with
      frames := congrArg₂ List.cons hpast hfrs
      steps := congrArg (· + 1) h.steps }

/-- A step comes to the same, and its entry is the same up to the note. -/
theorem step (h : m.Matches m') (hsite : m.site? = some site) (hsite' : m'.site? = some site') :
    (m'.entry site').unnoted = (m.entry site).unnoted ∧ m'.step.1.unnoted = m.step.1.unnoted ∧
      m.step.2.Matches m'.step.2 := by
  have hunnoted : site'.unnoted = site.unnoted := by
    have := h.site?
    rw [hsite, hsite'] at this
    exact Option.some.inj this
  have hop : site'.instr.op = site.instr.op := congrArg (·.instr.op) hunnoted
  have hexhausted : m'.exhausted? = m.exhausted? := by
    rw [exhausted?, exhausted?, h.limits, h.steps]
  have hbegun := h.begun hsite site'
  have hfailed : ∀ e : Fault, (Status.failed ⟨e, some site'⟩).unnoted =
      (Status.failed ⟨e, some site⟩).unnoted := by
    intro e
    simp only [Status.unnoted, FaultReport.unnoted, Option.map_some, hunnoted]
  refine ⟨?_, ?_⟩
  · simp only [LogEntry.unnoted, entry, hunnoted, h.operands, hexhausted, hop, hbegun.writing]
  · rw [step_of_site hsite, step_of_site hsite', hexhausted, hop]
    cases m.exhausted? with
    | some limit => exact ⟨hfailed _, hbegun⟩
    | none =>
      have hexec := hbegun.exec site.instr.op
      generalize site.instr.op.exec (m.begun site) = r at hexec ⊢
      generalize site.instr.op.exec (m'.begun site') = r' at hexec ⊢
      cases hexec with
      | error e _ hmatches => exact ⟨hfailed e, hmatches⟩
      | ok _ hmatches =>
        simp only [hmatches.limits, hmatches.operands]
        split
        · exact ⟨hfailed _, hmatches⟩
        · exact ⟨rfl, hmatches⟩

/-- A run comes to the same, and its log is the same up to notes. -/
theorem runFor (n : Nat) (h : m.Matches m') :
    (m'.logFor n).map LogEntry.unnoted = (m.logFor n).map LogEntry.unnoted ∧
      (m'.runFor n).1.unnoted = (m.runFor n).1.unnoted ∧
      (m.runFor n).2.Matches (m'.runFor n).2 := by
  induction n generalizing m m' with
  | zero => exact ⟨rfl, rfl, h⟩
  | succ n ih =>
    have hsites := h.site?
    cases hsite : m.site? with
    | none =>
      rw [hsite, Option.map_none, Option.map_eq_none_iff] at hsites
      rw [logFor_succ_of_no_site hsite, logFor_succ_of_no_site hsites, runFor_succ, runFor_succ,
        step_of_no_site hsite, step_of_no_site hsites]
      exact ⟨rfl, rfl, h⟩
    | some site =>
      rw [hsite, Option.map_some] at hsites
      obtain ⟨site', hsite', -⟩ := Option.map_eq_some_iff.mp hsites
      obtain ⟨hentry, hstatus, hmatches⟩ := h.step hsite hsite'
      rcases hstep : m.step with ⟨st, m₁⟩
      rcases hstep' : m'.step with ⟨st', m₁'⟩
      rw [hstep, hstep'] at hstatus hmatches
      have hrunning : st' = .running ↔ st = .running := by
        rw [← Status.unnoted_eq_running_iff, hstatus, Status.unnoted_eq_running_iff]
      by_cases hst : st = .running
      · rw [hst] at hstep
        rw [hrunning.mpr hst] at hstep'
        obtain ⟨ihlog, ih⟩ := ih hmatches
        rw [runFor_succ_of_running hstep, runFor_succ_of_running hstep',
          logFor_succ_of_running hsite hstep, logFor_succ_of_running hsite' hstep']
        exact ⟨congrArg₂ List.cons hentry ihlog, ih⟩
      · have hst' := mt hrunning.mp hst
        rw [runFor_succ_of_ended hstep hst, runFor_succ_of_ended hstep' hst',
          logFor_succ_of_ended hsite hstep hst, logFor_succ_of_ended hsite' hstep' hst']
        exact ⟨congrArg (fun e ↦ [e]) hentry, hstatus, hmatches⟩

theorem start (h : m.Matches m') :
    m'.start.1 = m.start.1 ∧ m.start.2.Matches m'.start.2 := by
  have hreset : m.reset.Matches m'.reset :=
    { h with frames := rfl, operands := rfl, steps := rfl }
  have ht := hreset.templates "main"
  rw [Machine.start, Machine.start]
  generalize m.reset.template? "main" = t, m'.reset.template? "main" = t' at ht
  cases t with
  | none =>
    rw [Option.map_eq_none_iff.mp ht]
    exact ⟨rfl, hreset⟩
  | some t =>
    obtain ⟨t', rfl, ht'⟩ := Option.map_eq_some_iff.mp ht
    have henter : (Frame.enter t').unnoted = (Frame.enter t).unnoted :=
      Frame.unnoted_eq_iff.mpr ⟨ht', rfl, rfl⟩
    exact ⟨rfl, { hreset with frames := congrArg (fun fr ↦ [fr]) henter }⟩

/-- Templates that differ in notes only, on two machines of the same state. -/
theorem of_templates {ts : List Template} (tracing : Bool)
    (h : ts.map Template.unnoted = m.templates.map Template.unnoted) :
    m.Matches { m with templates := ts, tracing := tracing } := by
  refine { refl m with templates := fun x ↦ ?_ }
  have hfind : ∀ ts : List Template, (ts.find? (·.name == x)).map Template.unnoted =
      (ts.map Template.unnoted).find? (·.name == x) := by
    intro ts
    rw [List.find?_map]
    rfl
  exact (hfind ts).trans ((congrArg _ h).trans (hfind m.templates).symm)

end Machine.Matches

namespace Machine

/-- A run of `main` comes to the same, and its log is the same up to notes. -/
theorem Matches.runMain {m m' : Machine} (h : m.Matches m') (n : Nat) :
    (m'.mainLog n).map LogEntry.unnoted = (m.mainLog n).map LogEntry.unnoted ∧
      (m'.runMain n).1.unnoted = (m.runMain n).1.unnoted ∧
      (m.runMain n).2.Matches (m'.runMain n).2 := by
  obtain ⟨hstatus, hmatches⟩ := h.start
  rw [mainLog, mainLog, Machine.runMain, Machine.runMain]
  generalize m.start = s, m'.start = s' at hstatus hmatches ⊢
  obtain ⟨st, m₁⟩ := s
  obtain ⟨st', m₁'⟩ := s'
  obtain rfl : st' = st := hstatus
  cases st' with
  | running => exact hmatches.runFor n
  | finished => exact ⟨rfl, rfl, hmatches⟩
  | failed r => exact ⟨rfl, rfl, hmatches⟩

/-- What the log says about a run of `main`. -/
structure Logged (m : Machine) (n : Nat) : Prop where
  /-- There is an entry for each step. -/
  length : (m.mainLog n).length = (m.runMain n).2.steps
  /-- An entry is that of the instruction which the run has come to. -/
  entry : ∀ k e, (m.mainLog n)[k]? = some e →
    ∃ m', m.runMain k = (.running, m') ∧ m'.site? = some e.site ∧ e.top = m'.operands.head?
  /-- The run writes the texts, with a record before each of them if it is traced. -/
  output : (m.runMain n).2.output = m.output ++ transcript m.tracing (m.mainLog n)
  /-- On a writer the run is the same if the writer serves it, and else it has no outcome. -/
  written : ∀ w : Writer, (w.Serves m n → w.runMain n m = some (m.runMain n)) ∧
    (¬ w.Serves m n → w.runMain n m = none)

theorem logged (m : Machine) (n : Nat) : m.Logged n := by
  obtain ⟨hout, hsteps⟩ := m.runMain_output n
  refine ⟨hsteps.symm, fun k e he ↦ ?_, hout, fun w ↦ w.runMain_eq n m⟩
  obtain ⟨m', site, hrun, hsite, rfl⟩ := exists_of_getElem?_mainLog he
  exact ⟨m', hrun, hsite, rfl⟩

/-- **Notes and traces do not influence a run.** Let two machines differ in nothing else.
* A run of `main` ends in the same way at the same instruction, with the same operands, objects and
  input after the same number of steps.
* Each log tells what its run does and writes, also on a writer that may refuse something. Up to
  notes, both logs are the same.
* If neither run is traced, then the same is written.
* If one of them is traced, then the other one writes the texts of the instructions, and the trace
  has the record of each instruction before its text. -/
theorem runMain_noninterference {m m' : Machine} (h : m.Matches m') (n : Nat) :
    ((m'.runMain n).1.unnoted = (m.runMain n).1.unnoted ∧
      (m'.runMain n).2.operands = (m.runMain n).2.operands ∧
      (m'.runMain n).2.store = (m.runMain n).2.store ∧
      (m'.runMain n).2.input = (m.runMain n).2.input ∧
      (m'.runMain n).2.steps = (m.runMain n).2.steps) ∧
    (m.Logged n ∧ m'.Logged n ∧
      (m'.mainLog n).map LogEntry.unnoted = (m.mainLog n).map LogEntry.unnoted) ∧
    (m.tracing = false → m'.tracing = false → m'.output = m.output →
      (m'.runMain n).2.output = (m.runMain n).2.output) ∧
    (m.tracing = false → m'.tracing = true → m'.output = m.output →
      (m.runMain n).2.output = m.output ++ String.join ((m'.mainLog n).map LogEntry.text) ∧
      (m'.runMain n).2.output =
        m.output ++ String.join ((m'.mainLog n).flatMap fun e ↦ [e.record, e.text])) := by
  obtain ⟨hlog, hstatus, hmatches⟩ := h.runMain n
  have htexts : (m'.mainLog n).map LogEntry.text = (m.mainLog n).map LogEntry.text := by
    have hmap := congrArg (List.map LogEntry.text) hlog
    rwa [List.map_map, List.map_map] at hmap
  have hout : m.tracing = false →
      (m.runMain n).2.output = m.output ++ String.join ((m'.mainLog n).map LogEntry.text) := by
    intro htracing
    rw [(m.logged n).output, htracing, transcript_false, htexts]
  refine ⟨⟨hstatus, hmatches.operands, hmatches.store, hmatches.input, hmatches.steps⟩,
    ⟨m.logged n, m'.logged n, hlog⟩, ?_, ?_⟩
  · intro htracing htracing' hsame
    rw [hout htracing, (m'.logged n).output, htracing', transcript_false, hsame]
  · intro htracing htracing' hsame
    refine ⟨hout htracing, ?_⟩
    rw [(m'.logged n).output, htracing', hsame]
    rfl

/-- A machine that reads a number, writes it and goes on doing so, with a note on what is read. -/
def echo (note : Option String) (tracing : Bool) : Machine :=
  { fresh { Limits.standard with steps := some 5 } "7\n8\n".toUTF8.toList with
    templates := [⟨"main", #[⟨.read, note⟩, ⟨.write, none⟩, ⟨.jump 0, none⟩]⟩]
    tracing := tracing }

/-- A writer that takes a number of characters and no more. -/
def narrow (size : Nat) : Writer where
  accepts held s := s.isEmpty || held.length + s.length ≤ size
  accepts_empty _ := rfl
  flushes _ := true

/-- Two numbers are read and written, and then the sixth instruction is one too many; a trace has a
record for it as well. A writer that takes two characters takes the numbers, but no trace. -/
theorem runMain_noninterference_echo :
    (echo none false).Matches (echo (some "number") true) ∧
      ((echo (some "number") true).runMain 10).1.unnoted =
        .failed ⟨.stepLimit 5, some ⟨"main", 2, ⟨.jump 0, none⟩⟩⟩ ∧
      ((echo none false).runMain 10).2.output = "78" ∧
      ((echo (some "number") true).runMain 10).2.output =
        "[main 0000] READ ; number                top: <empty>\n" ++
        "[main 0001] WRITE                        top: Str(\"7\")\n" ++
        "7[main 0002] JMP 0                        top: <empty>\n" ++
        "[main 0000] READ ; number                top: <empty>\n" ++
        "[main 0001] WRITE                        top: Str(\"8\")\n" ++
        "8[main 0002] JMP 0                        top: <empty>\n" ∧
      (narrow 2).runMain 10 (echo none false) = some ((echo none false).runMain 10) ∧
      (narrow 2).runMain 10 (echo (some "number") true) = none := by
  have hmatches : (echo none false).Matches (echo (some "number") true) :=
    .of_templates true (by simp [echo, Template.unnoted, Instr.unnoted])
  obtain ⟨⟨hstatus, -⟩, ⟨hlogged, hlogged', -⟩, -, htraced⟩ := runMain_noninterference hmatches 10
  obtain ⟨htexts, hrecords⟩ := htraced rfl rfl rfl
  refine ⟨hmatches, hstatus.trans ?_, htexts.trans ?_, hrecords.trans ?_,
    (hlogged.written (narrow 2)).1 ⟨?_, fun _ _ ↦ rfl⟩,
    (hlogged'.written (narrow 2)).2 fun hserves ↦ absurd hserves.takes ?_⟩
  · decide +kernel
  · decide +kernel
  · decide +kernel
  · decide +kernel
  · decide +kernel

end Machine

end Pebble
