import Pebble.Proofs.CheckedPrograms
import Pebble.Proofs.Layout
import Pebble.Proofs.Stepping
import Pebble.Source

/-!
# Starting a program

The templates of a checked program can be registered and started: they pass verification, each
function is found under its name, and there is a main function. A machine that has the code of a
program is *linked* with it.
-/

namespace Pebble

namespace Machine

/-- The machine has the code of a program, and runs it without a trace. -/
structure Linked (p : Program) (m : Machine) : Prop where
  untraced : m.tracing = false
  templates : ∀ x f, p.function? x = some f → ∃ t, m.template? x = some t ∧ f.code p = .ok t

theorem Linked.put {p : Program} {m : Machine} (h : m.Linked p) (frs : List Frame)
    (vs : List Value) (w : World) (k : Nat) : (m.put frs vs w k).Linked p :=
  ⟨h.untraced, h.templates⟩

theorem register_eq {m : Machine} {t : Template} (h : t.verify = .ok ()) :
    m.register t =
      (.ok (), { m with templates := t :: m.templates.filter (·.name != t.name) }) := by
  rw [register, h]

/-- A name is looked up among the templates registered last first. -/
theorem registerAll_eq (m : Machine) {ts : List Template} (h : ∀ t ∈ ts, t.verify = .ok ()) :
    ∃ templates, m.registerAll ts = (.ok (), { m with templates := templates }) ∧
      ∀ x, templates.find? (·.name == x) = (ts.reverse.find? (·.name == x)).or (m.template? x) := by
  induction ts generalizing m with
  | nil => exact ⟨m.templates, rfl, fun x ↦ rfl⟩
  | cons t ts ih =>
    have hfirst : ∀ x, (t :: m.templates.filter (·.name != t.name)).find? (·.name == x) =
        ([t].find? (·.name == x)).or (m.template? x) := by
      intro x
      by_cases hx : t.name = x
      · simp [hx]
      · rw [List.find?_cons_of_neg (by simpa using hx), List.find?_cons_of_neg (by simpa using hx),
          List.find?_filter, List.find?_nil, Option.none_or, template?]
        congr 1
        funext t'
        by_cases ht' : t'.name = x
        · have hne : ¬ x = t.name := fun heq ↦ hx heq.symm
          simp [ht', hne]
        · simp [ht']
    obtain ⟨templates, hreg, hfind⟩ := ih { m with templates := _ }
      fun t' ht' ↦ h t' (List.mem_cons_of_mem _ ht')
    refine ⟨templates, ?_, fun x ↦ ?_⟩
    · rw [registerAll, register_eq (h t (List.mem_cons_self ..))]
      exact hreg
    · rw [hfind, List.reverse_cons, List.find?_append, Option.or_assoc, ← hfirst]
      rfl

/-- Templates that pass verification can be started if one of them is a main function. The names of
templates that were there before keep their meaning unless one of the new ones has the name. -/
theorem startTemplates_of_main {ts : List Template} {t : Template} (h : ∀ t ∈ ts, t.verify = .ok ())
    (hmain : ts.reverse.find? (·.name == "main") = some t) (m : Machine) :
    ∃ templates, (∀ x, templates.find? (·.name == x) =
        (ts.reverse.find? (·.name == x)).or (m.template? x)) ∧
      m.startTemplates ts =
        (.ok (), { m.reset with templates := templates, frames := [.enter t] }) := by
  obtain ⟨templates, hreg, hfind⟩ := m.registerAll_eq h
  refine ⟨templates, hfind, ?_⟩
  rw [startTemplates, hreg]
  simp only [start, reset, template?, hfind, hmain, Option.some_or]

/-- On a fresh machine the names have no other meaning. -/
theorem startTemplates_eq {ts : List Template} {t : Template} (h : ∀ t ∈ ts, t.verify = .ok ())
    (hmain : ts.reverse.find? (·.name == "main") = some t) (limits : Limits) (input : List UInt8) :
    ∃ templates, (∀ x, templates.find? (·.name == x) = ts.reverse.find? (·.name == x)) ∧
      (fresh limits input).startTemplates ts =
        (.ok (), { fresh limits input with templates := templates, frames := [.enter t] }) := by
  obtain ⟨templates, hfind, hstart⟩ := startTemplates_of_main h hmain (fresh limits input)
  exact ⟨templates, fun x ↦ (hfind x).trans Option.or_none, hstart⟩

end Machine

section
variable {p : Program}

theorem FunDef.code_name {f : FunDef} {t : Template} (h : f.code p = .ok t) :
    t.name = f.name.text := by
  obtain ⟨body, t', -, rfl⟩ := FunDef.code_eq_ok h
  rfl

/-- The template of a function is found under its name. -/
theorem find?_of_forall₂_code {x : String} {f : FunDef} {fs : List FunDef} {ts : List Template}
    (h : List.Forall₂ (fun f t ↦ f.code p = .ok t) fs ts)
    (hf : fs.find? (·.name.text == x) = some f) :
    ∃ t, ts.find? (·.name == x) = some t ∧ f.code p = .ok t := by
  induction h with
  | nil => cases hf
  | @cons g t fs ts hg _ ih =>
    by_cases hx : g.name.text = x
    · rw [List.find?_cons_of_pos (by simpa using hx)] at hf
      cases hf
      exact ⟨t, List.find?_cons_of_pos (by simpa [FunDef.code_name hg] using hx), hg⟩
    · rw [List.find?_cons_of_neg (by simpa using hx)] at hf
      rw [List.find?_cons_of_neg (by simpa [FunDef.code_name hg] using hx)]
      exact ih hf

theorem names_of_forall₂_code {fs : List FunDef} {ts : List Template}
    (h : List.Forall₂ (fun f t ↦ f.code p = .ok t) fs ts) :
    ts.map (·.name) = fs.map (·.name.text) := by
  induction h with
  | nil => rfl
  | cons hg _ ih => rw [List.map_cons, List.map_cons, ih, FunDef.code_name hg]

theorem verify_of_forall₂_code {fs : List FunDef} {ts : List Template}
    (h : List.Forall₂ (fun f t ↦ f.code p = .ok t) fs ts) : ∀ t ∈ ts, t.verify = .ok () := by
  induction h with
  | nil => exact List.forall_mem_nil _
  | cons hg _ ih => exact List.forall_mem_cons.mpr ⟨FunDef.verify_code hg, ih⟩

/-- The main function has no parameters. -/
theorem FunDef.params_of_main {f : FunDef} (h : f.checkMain = .ok ())
    (hname : f.name.text = "main") : f.params = [] := by
  rw [FunDef.checkMain, if_pos hname] at h
  simp only [bind_eq_ok, require_eq_ok] at h
  obtain ⟨_, -, hparams⟩ := h
  simpa using hparams

/-- The template of a function is the one registered under its name. -/
theorem Program.Checked.find?_template (hp : p.Checked) {ts : List Template}
    (hcode : p.code = .ok ts) {x : String} {f : FunDef} (hf : p.function? x = some f) :
    ∃ t, ts.reverse.find? (·.name == x) = some t ∧ f.code p = .ok t := by
  have hall := forall₂_of_mapM_eq_ok hcode
  have hnames : (ts.map (·.name)).Nodup := by
    rw [names_of_forall₂_code hall]
    exact hp.functionNames
  obtain ⟨t, ht, hcode⟩ := find?_of_forall₂_code hall hf
  exact ⟨t, (find?_reverse_of_nodup Template.name x hnames).trans ht, hcode⟩

/-- Starting the templates of a checked program on a fresh machine enters the main function. -/
theorem Program.Checked.startTemplates (hp : p.Checked) {ts : List Template}
    (hcode : p.code = .ok ts) (limits : Limits) (input : List UInt8) :
    ∃ (m : Machine) (f : FunDef) (t : Template), m.Linked p ∧ m.limits = limits ∧
      p.function? "main" = some f ∧ f.code p = .ok t ∧
      (Machine.fresh limits input).startTemplates ts =
        (.ok (), m.put [.enter t] [] ⟨.empty, input, ""⟩ 0) := by
  have hall := forall₂_of_mapM_eq_ok hcode
  obtain ⟨f, hf⟩ := hp.main
  obtain ⟨t, ht, hmain⟩ := hp.find?_template hcode hf
  obtain ⟨templates, hfind, hstart⟩ :=
    Machine.startTemplates_eq (verify_of_forall₂_code hall) ht limits input
  refine ⟨{ Machine.fresh limits input with templates := templates }, f, t, ⟨rfl, ?_⟩, rfl, hf,
    hmain, hstart⟩
  intro x g hg
  obtain ⟨u, hu, hcode⟩ := hp.find?_template hcode hg
  exact ⟨u, (hfind x).trans hu, hcode⟩

end

end Pebble
