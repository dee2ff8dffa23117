import Pebble.Proofs.Hosting
import Pebble.Proofs.TypeSoundness

/-!
# Used machines

A machine keeps its templates, its objects, what is left of its input and what it has written from
one run to the next. A program that has been compiled notices none of it: it runs on a machine that
has been used before as it would on a fresh one with the same limits and the same input.

## Why nothing is noticed

The fresh machine, once the program has been started there, can be put onto the used one, and the
result is the used machine with the program started. By `Machine.runFor_onto` the two runs then
differ in the renaming of references alone, as long as no reference is written. A checked program
never writes one, since `print` takes no objects, and it never faults on one, since every reference
in a well-typed state names an object. Templates from before are found under names only that the
program does not define, and it calls no others than its own functions.
-/

namespace Pebble

/-! ## Programs without references in their output -/

/-- A plain value is no reference, so renaming leaves it alone. -/
theorem Value.HasTy.shift_eq {Ψ : StoreTy} {v : Value} {t : Ty} (h : v.HasTy Ψ t)
    (ht : t.isObject = false) (d : Nat) : v.shift d = v := by
  cases h with
  | record | array => cases ht
  | null | int | double | bool | str => rfl

theorem Value.shift_ofLiteral (l : Literal) (d : Nat) : (ofLiteral l).shift d = ofLiteral l := by
  cases l <;> rfl

/-- An expected fault names no reference. -/
theorem Fault.shift_of_isExpected {e : Fault} (h : e.isExpected = true) (d : Nat) :
    e.shift d = e := by
  cases e with
  | store f =>
    cases f with
    | noSuchObject kind r => cases h
    | outOfMemory size => rfl
  | _ => rfl

/-- Under the same limits, no expected fault cuts a run short. -/
theorem Fault.not_cutShort {m host : Machine} {e : Fault} (h : e.isExpected = true)
    (hlimits : host.limits = m.limits) : ¬ e.CutShort m host := by
  cases e with
  | stepLimit n | stackOverflow n | callDepth n =>
    rw [CutShort, hlimits]
    exact not_not_intro rfl
  | arrayTooLarge n limit =>
    rw [CutShort, hlimits]
    exact not_not_intro rfl
  | store f =>
    cases f with
    | outOfMemory n =>
      rw [CutShort, hlimits]
      exact not_not_intro rfl
    | noSuchObject kind r => exact id
  | unresolvedCall x => cases h
  | _ => exact id

section
variable {p : Program} {Ψ : StoreTy} {m : Machine}

/-- The code of a checked function pushes constants only, and writes plain values only. -/
theorem Op.Leads.discreet {f : FunDef} {spots : List Spot} {n : Nat} {op : Op} {a : Spot}
    {own : List Value} (h : op.Leads p f spots n a) (hown : OperandsTyped Ψ own a.pending)
    (rest : List Value) (d : Nat) :
    (∀ v, op = .push v → v.shift d = v) ∧
      (op = .write → ∀ v ∈ (own ++ rest).head?, v.shift d = v) := by
  constructor
  · rintro v rfl
    cases h with
    | next hflow =>
      cases hflow with
      | push l => exact Value.shift_ofLiteral l d
  · rintro rfl v hv
    cases h with
    | next hflow =>
      cases hflow with
      | write ht =>
        obtain ⟨u, own, rfl, hu, -⟩ := hown.val_inv
        obtain rfl : u = v := Option.some.inj hv
        exact hu.shift_eq ht d

theorem Machine.WellTyped.discreet (hp : p.Checked) (h : m.WellTyped p) (d : Nat) :
    m.Discreet d := by
  obtain ⟨-, Ψ, -, hstack⟩ := h
  intro site hsite
  rw [site?] at hsite
  generalize m.frames = frs at hstack hsite
  generalize m.operands = vs at hstack
  cases hstack with
  | ended => cases hsite
  | @active fr _ _ _ _ rest stands operands below =>
    obtain ⟨i, hi, rfl⟩ := Option.map_eq_some_iff.mp hsite
    exact (stands.leads hp hi).discreet operands rest d

/-! ## Runs -/

/-- A checked program that has been started at home runs on any host with the same limits, without
a trace, as it runs at home. -/
theorem Machine.WellTyped.runFor_onto (hp : p.Checked) (h : m.WellTyped p) {host : Machine}
    (hhost : host.Hosts m) (hlimits : host.limits = m.limits) (n : Nat) :
    (m.onto host).runFor n = ((m.runFor n).1, (m.runFor n).2.onto host) := by
  have hdiscreet : ∀ k m', m.runFor k = (.running, m') → m'.Discreet host.offset := by
    intro k m' hk
    have hsound := h.runFor hp k
    rw [hk] at hsound
    exact WellTyped.discreet hp hsound host.offset
  have htune := Machine.runFor_onto hhost hdiscreet n
  have hsound := h.runFor hp n
  generalize m.runFor n = r at htune hsound
  generalize (m.onto host).runFor n = r' at htune
  cases htune with
  | running m' => rfl
  | finished m' => rfl
  | failed e site m' => rw [Fault.shift_of_isExpected hsound.1]
  | cut short output => exact absurd short (Fault.not_cutShort hsound.1 hlimits)

end

/-! ## Starting -/

theorem Store.after_empty (older : Store) : older.after .empty = older := by
  simp [after, empty]

namespace Machine

/-- Templates that are started on a used machine. -/
theorem startTemplates_onto {ts : List Template} {t : Template} (h : ∀ t ∈ ts, t.verify = .ok ())
    (hmain : ts.reverse.find? (·.name == "main") = some t) {m : Machine}
    (hm : m.tracing = false) :
    ∃ m₀ templates, (fresh m.limits m.input).startTemplates ts = (.ok (), m₀) ∧
      m₀.limits = m.limits ∧ Hosts { m with templates := templates } m₀ ∧
      m.startTemplates ts = (.ok (), m₀.onto { m with templates := templates }) := by
  obtain ⟨home, hhome, hstart⟩ := startTemplates_eq h hmain m.limits m.input
  obtain ⟨templates, hfind, hstart'⟩ := startTemplates_of_main h hmain m
  refine ⟨_, templates, hstart, rfl, ⟨?_, Limits.le_refl _, hm, nofun⟩, ?_⟩
  · intro x u hu
    have hnew : ts.reverse.find? (·.name == x) = some u := (hhome x).symm.trans hu
    rw [template?, hfind, hnew, Option.some_or]
  · rw [hstart']
    simp only [onto, graft, reset, fresh, Store.after_empty, List.map_cons, List.map_nil,
      Frame.shift_enter, String.append_empty]

/-- **Used machines are as good as fresh ones.** A source text that is rejected leaves the machine
as it was. One that is accepted can be started on every machine, whatever has been done with it.
However long the run is then followed, and however it ends, it stands as it would on a fresh machine
with the same limits and what is left of the input: with the same status, the same fault at the same
instruction, the same count of steps and the same text behind the text from before. Its objects come
behind the objects from before, and references are larger by the number of those. -/
theorem used_runs_as_fresh (folding : Bool) (source : String) (m : Machine) :
    (∀ e, compileSource folding source = .error e →
      m.startSource folding source = (.error e, m)) ∧
    (∀ ts, compileSource folding source = .ok ts → m.tracing = false →
      ∃ m₀ m₁, (fresh m.limits m.input).startSource folding source = (.ok (), m₀) ∧
        m.startSource folding source = (.ok (), m₁) ∧
        ∀ n, (m₁.runFor n).1 = (m₀.runFor n).1 ∧
          (m₁.runFor n).2.output = m.output ++ (m₀.runFor n).2.output ∧
          (m₁.runFor n).2.input = (m₀.runFor n).2.input ∧
          (m₁.runFor n).2.steps = (m₀.runFor n).2.steps ∧
          (m₁.runFor n).2.store = m.store.after (m₀.runFor n).2.store ∧
          (m₁.runFor n).2.operands = (m₀.runFor n).2.operands.map (·.shift m.offset) ∧
          (m₁.runFor n).2.frames = (m₀.runFor n).2.frames.map (·.shift m.offset)) := by
  refine ⟨fun e he ↦ by unfold startSource; rw [he], fun ts hts hm ↦ ?_⟩
  obtain ⟨p, -, hp, hcode⟩ := compileSource_eq_ok hts
  obtain ⟨f, hf⟩ := hp.main
  obtain ⟨t, ht, -⟩ := hp.find?_template hcode hf
  obtain ⟨m₀, templates, hstart, hlimits, hhost, hstart'⟩ :=
    startTemplates_onto (verify_of_forall₂_code (forall₂_of_mapM_eq_ok hcode)) ht hm
  -- The state in which the program begins on the fresh machine is well typed.
  obtain ⟨m', hstart'', hwell⟩ := hp.wellTyped_start hcode m.limits m.input
  obtain rfl : m₀ = m' := congrArg Prod.snd (hstart.symm.trans hstart'')
  have hruns := hwell.runFor_onto hp hhost hlimits.symm
  generalize m₀.onto { m with templates := templates } = m₁ at hstart' hruns
  have hsource : ∀ m' : Machine, m'.startSource folding source = m'.startTemplates ts := by
    intro m'
    unfold startSource
    rw [hts]
  refine ⟨m₀, m₁, (hsource _).trans hstart, (hsource m).trans hstart', fun n ↦ ?_⟩
  rw [hruns n]
  exact ⟨rfl, rfl, rfl, rfl, rfl, rfl, rfl⟩

/-- A program that makes a record. -/
def recordSource : String :=
  "struct S \x7b v: int \x7d void main() \x7b var s = new S(7) print(s.v) \x7d"

/-- What a run of it leaves behind. -/
def afterRecord (m : Machine) : Machine :=
  ((m.startSource true recordSource).2.runFor 20).2

/-- The program is run again on the machine that it has been run on. -/
theorem used_runs_as_fresh_record :
    (afterRecord (afterRecord (fresh .standard []))).output = "77" ∧
      (afterRecord (afterRecord (fresh .standard []))).store.objects.size = 2 := by
  have hok : (compileSource true recordSource).isOk = true := by decide +kernel
  obtain ⟨ts, hts⟩ := eq_ok_of_isOk hok
  have hfirst : (afterRecord (fresh .standard [])).tracing = false ∧
      (afterRecord (fresh .standard [])).limits = .standard ∧
      (afterRecord (fresh .standard [])).input = [] ∧
      (afterRecord (fresh .standard [])).output = "7" ∧
      (afterRecord (fresh .standard [])).store.objects.size = 1 := by decide +kernel
  generalize hm : afterRecord (fresh .standard []) = m at hfirst ⊢
  obtain ⟨htracing, hlimits, hinput, houtput, hsize⟩ := hfirst
  obtain ⟨m₀, m₁, h₀, h₁, hruns⟩ := (used_runs_as_fresh true recordSource m).2 ts hts htracing
  obtain ⟨-, hwritten, -, -, hstore, -⟩ := hruns 20
  have hagain : (m₀.runFor 20).2 = m := by
    rw [← hm, afterRecord, ← hlimits, ← hinput, h₀]
  have hnow : afterRecord m = (m₁.runFor 20).2 := by rw [afterRecord, h₁]
  rw [hagain] at hwritten hstore
  rw [hnow, hwritten, hstore, houtput, Store.after]
  refine ⟨rfl, ?_⟩
  simp [hsize]

end Machine

end Pebble
