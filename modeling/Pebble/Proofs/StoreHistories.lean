import Mathlib.Data.Set.Lattice
import Mathlib.Order.CompletePartialOrder
import Mathlib.Order.Interval.Set.Defs
import Pebble.Proofs.Grafting
import Pebble.Proofs.ValueTypes

/-!
# The store over the life of a machine

A machine lives through registrations of templates, resets and runs, in any order and with any
code. Whatever it goes through, its store only grows: objects stay, arrays keep their length and
records their fields. An instruction that succeeds writes to one object at most, and one that fails
to none. And as long as no template was registered that makes references up, there are none that
dangle.

A run is given by the number of its steps, so the states in the midst of a run are reached as well
as its end.
-/

namespace Pebble

/-! ## Histories -/

/-- Something that is done to a machine. -/
inductive Event where
  | register (t : Template)
  | trace (on : Bool)
  | reset
  /-- A run of the main function, for a number of steps unless it ends before. -/
  | run (steps : Nat)

namespace Machine

/-- What an event leaves. -/
def perform (m : Machine) : Event → Machine
  | .register t => (m.register t).2
  | .trace on => { m with tracing := on }
  | .reset => m.reset
  | .run steps =>
    match m.start with
    | (.running, m') => (m'.runFor steps).2
    | (_, m') => m'

/-- What events leave, one after the other. -/
def performAll (m : Machine) (events : List Event) : Machine :=
  events.foldl perform m

end Machine

/-! ## Growth -/

/-- What an object can become. -/
inductive Obj.Extends : Obj → Obj → Prop where
  | record {fs fs' : Fields} (h : ∀ x, (fs.get? x).isSome → (fs'.get? x).isSome) :
      Extends (.record fs) (.record fs')
  | array {cells cells' : Array Value} (h : cells'.size = cells.size) :
      Extends (.array cells) (.array cells')

theorem Obj.Extends.refl (o : Obj) : o.Extends o := by
  cases o with
  | record fs => exact .record fun _ h ↦ h
  | array cells => exact .array rfl

theorem Obj.Extends.trans {o o' o'' : Obj} (h : o.Extends o') (h' : o'.Extends o'') :
    o.Extends o'' := by
  cases h with
  | record h =>
    cases h' with
    | record h' => exact .record fun x hx ↦ h' x (h x hx)
  | array h =>
    cases h' with
    | array h' => exact .array (h'.trans h)

namespace Store

/-- The references of the objects of a kind. -/
def ids (σ : Store) (k : Obj.Kind) : Set Nat :=
  {r | ∃ o, σ.get? r = some o ∧ o.kind = k}

/-- The second store has all objects of the first. -/
def Extends (σ σ' : Store) : Prop :=
  ∀ r o, σ.get? r = some o → ∃ o', σ'.get? r = some o' ∧ o.Extends o'

theorem Extends.refl (σ : Store) : σ.Extends σ :=
  fun _ o h ↦ ⟨o, h, .refl o⟩

theorem Extends.trans {σ σ' σ'' : Store} (h : σ.Extends σ') (h' : σ'.Extends σ'') :
    σ.Extends σ'' := by
  intro r o ho
  obtain ⟨o', ho', hext⟩ := h r o ho
  obtain ⟨o'', ho'', hext'⟩ := h' r o' ho'
  exact ⟨o'', ho'', hext.trans hext'⟩

section
variable {σ : Store} {r : Nat}

theorem lt_next_of_get? {o : Obj} (h : σ.get? r = some o) : 1 ≤ r ∧ r < σ.next := by
  cases r with
  | zero => cases h
  | succ n =>
    have hn : n < σ.objects.size := (Array.getElem?_eq_some_iff.mp h).1
    exact ⟨Nat.le_add_left 1 n, Nat.succ_lt_succ hn⟩

theorem get?_of_lt_next (h : 1 ≤ r) (h' : r < σ.next) : ∃ o, σ.get? r = some o := by
  obtain ⟨n, rfl⟩ := Nat.exists_eq_add_of_le' h
  have hn : n < σ.objects.size := Nat.lt_of_succ_lt_succ h'
  exact ⟨σ.objects[n], Array.getElem?_eq_getElem hn⟩

theorem disjoint_ids (σ : Store) : Disjoint (σ.ids .record) (σ.ids .array) := by
  rw [Set.disjoint_left]
  rintro r ⟨o, ho, hrecord⟩ ⟨o', ho', harray⟩
  obtain rfl : o = o' := Option.some.inj (ho.symm.trans ho')
  rw [hrecord] at harray
  cases harray

theorem union_ids (σ : Store) : σ.ids .record ∪ σ.ids .array = Set.Ico 1 σ.next := by
  ext r
  constructor
  · rintro (⟨o, ho, -⟩ | ⟨o, ho, -⟩)
    · exact lt_next_of_get? ho
    · exact lt_next_of_get? ho
  · rintro ⟨hone, hlt⟩
    obtain ⟨o, ho⟩ := get?_of_lt_next hone hlt
    cases hk : o.kind with
    | record => exact .inl ⟨o, ho, hk⟩
    | array => exact .inr ⟨o, ho, hk⟩

theorem next_add (σ : Store) (o : Obj) : (σ.add o).next = σ.next + 1 := by
  simp [next, add]

theorem next_update (σ : Store) (r : Nat) (f : Obj → Obj) : (σ.update r f).next = σ.next := by
  cases r with
  | zero => rfl
  | succ n => simp [next, update]

theorem get?_add_of_some {o o' : Obj} (h : σ.get? r = some o) : (σ.add o').get? r = some o := by
  rw [get?_add_of_ne σ o' (Nat.ne_of_lt (lt_next_of_get? h).2), h]

theorem extends_add (σ : Store) (o : Obj) : σ.Extends (σ.add o) :=
  fun _ o' h ↦ ⟨o', get?_add_of_some h, .refl o'⟩

/-- An update of one object. -/
theorem extends_update {o o' : Obj} {f : Obj → Obj} (h : σ.get? r = some o) (hf : f o = o')
    (hext : o.Extends o') : σ.Extends (σ.update r f) := by
  intro r' o₁ ho₁
  by_cases hr : r' = r
  · subst hr
    obtain rfl : o = o₁ := Option.some.inj (h.symm.trans ho₁)
    exact ⟨o', by rw [get?_update_self, h, Option.map_some, hf], hext⟩
  · exact ⟨o₁, by rw [get?_update_of_ne σ f hr, ho₁], .refl o₁⟩

end

end Store

theorem Fields.get?_cons (z : String) (w : Value) (fs : Fields) (y : String) :
    Fields.get? ((z, w) :: fs) y = if y = z then some w else fs.get? y := by
  rw [Fields.get?, List.lookup_cons]
  by_cases hy : y = z
  · rw [if_pos hy, beq_iff_eq.mpr hy]
  · rw [if_neg hy, beq_eq_false_iff_ne.mpr hy, Fields.get?]

theorem Fields.get?_set (x : String) (v : Value) (fs : Fields) (y : String) :
    (fs.set x v).get? y = if y = x then some v else fs.get? y := by
  induction fs with
  | nil => exact Fields.get?_cons x v [] y
  | cons f fs ih =>
    obtain ⟨z, w⟩ := f
    rw [Fields.set]
    by_cases hz : z = x
    · subst hz
      rw [if_pos rfl, Fields.get?_cons, Fields.get?_cons]
      by_cases hy : y = z
      · rw [if_pos hy, if_pos hy]
      · rw [if_neg hy, if_neg hy, if_neg hy]
    · rw [if_neg hz, Fields.get?_cons, Fields.get?_cons, ih]
      by_cases hy : y = z
      · subst hy
        rw [if_pos rfl, if_neg hz, if_pos rfl]
      · rw [if_neg hy, if_neg hy]

theorem Fields.extends_set (x : String) (v : Value) (fs : Fields) :
    (Obj.record fs).Extends (.record (fs.set x v)) := by
  refine .record fun y hy ↦ ?_
  rw [Fields.get?_set]
  split
  · rfl
  · exact hy

/-- The values of a record after one has been set. -/
theorem Fields.mem_set {x : String} {v u : Value} {fs : Fields}
    (h : u ∈ (Obj.record (fs.set x v)).values) : u = v ∨ u ∈ (Obj.record fs).values := by
  induction fs with
  | nil => exact .inl (List.mem_singleton.mp h)
  | cons f fs ih =>
    obtain ⟨z, w⟩ := f
    rw [Fields.set] at h
    split at h
    · rcases List.mem_cons.mp h with rfl | h
      · exact .inl rfl
      · exact .inr (List.mem_cons_of_mem _ h)
    · rcases List.mem_cons.mp h with rfl | h
      · exact .inr (List.mem_cons_self ..)
      · exact (ih h).imp id (List.mem_cons_of_mem _)

theorem Obj.mem_setItem {cells : Array Value} {i : Nat} {v u : Value}
    (h : u ∈ (Obj.array (cells.setIfInBounds i v)).values) :
    u = v ∨ u ∈ (Obj.array cells).values := by
  rcases Array.mem_or_eq_of_mem_setIfInBounds (Array.mem_toList_iff.mp h) with h | rfl
  · exact .inr (Array.mem_toList_iff.mpr h)
  · exact .inl rfl

/-! ## One step -/

/-- The operation of the next instruction. -/
def Machine.op? (m : Machine) : Option Op := m.site?.map (·.instr.op)

/-- The operation that the next step executes to its end. The operands are counted only then, so
that this may be the end of the run. -/
def Machine.done? (m : Machine) : Option Op :=
  match m.step.1 with
  | .running | .failed ⟨.stackOverflow _, _⟩ => m.op?
  | _ => none

/-- What the next instruction of a machine can make of an object: a field of a record is set, or an
item of an array, and the reference of the object lies on the stack below what is put there. -/
inductive Machine.Writes (m : Machine) (r : Nat) : Obj → Obj → Prop where
  | field {x : String} {v : Value} {us : List Value} {fs fs' : Fields}
      (instr : m.op? = some (.setField x)) (operands : m.operands = v :: .ref r :: us)
      (set : fs'.get? x = some v) (others : ∀ y, y ≠ x → fs'.get? y = fs.get? y) :
      Writes m r (.record fs) (.record fs')
  | item {v : Value} {n : Int32} {i : Nat} {us : List Value} {cells cells' : Array Value}
      (instr : m.op? = some .setItem) (operands : m.operands = v :: .int n :: .ref r :: us)
      (index : n.toInt = i) (size : cells'.size = cells.size) (set : cells'[i]? = some v)
      (others : ∀ j, j ≠ i → cells'[j]? = cells[j]?) : Writes m r (.array cells) (.array cells')

section
variable {V : Value → Prop} {T : Template → Prop} {σ : Store} {l : Limits} {vs : List Value}
  {op : Op} {m m' : Machine}

theorem Op.Effect.extends (h : op.Effect V T σ l vs m) : σ.Extends m.store := by
  cases h with
  | keep _ keeps =>
    rw [keeps.store]
    exact .refl σ
  | allocate _ store =>
    rw [store]
    exact Store.extends_add σ _
  | setField _ record _ store =>
    rw [store]
    exact Store.extends_update record rfl (Fields.extends_set ..)
  | setItem _ _ _ array _ store =>
    rw [store]
    exact Store.extends_update array rfl (.array (Array.size_setIfInBounds ..))

/-- What everything holds of. -/
theorem Machine.keeps_true (m : Machine) :
    m.Keeps (fun _ ↦ True) (fun _ ↦ True) m.store m.limits :=
  ⟨rfl, rfl, fun _ _ ↦ trivial, fun _ _ _ _ ↦ trivial, fun _ _ ↦ trivial, fun _ _ ↦ trivial⟩

theorem Op.Effect.limits (h : op.Effect V T σ l vs m) : m.limits = l := by
  cases h with
  | keep _ keeps => exact keeps.limits
  | allocate _ _ limits | setField _ _ _ _ limits | setItem _ _ _ _ _ _ limits => exact limits

/-- Operands are not counted by operations. -/
theorem Op.exec_ne_stackOverflow {e : Fault} (h : op.exec m = .error e m') (n : Nat) :
    e ≠ .stackOverflow n := by
  rintro rfl
  have hcomes := op.comesTo m
  rw [h] at hcomes
  cases hcomes with
  | error raises =>
    cases raises with
    | ofLocal hlocal => cases hlocal

/-- What a step comes to: it has no effect on the store, or it has executed an instruction, after
which there may be too many operands. -/
theorem Machine.step_effect (hm : m.Holds V T m.operands) (hσ : m.store.Admits V)
    (hT : ∀ t, T t → ∀ i ∈ t.instrs, ∀ v, i.op = .push v → V v) :
    m.done? = none ∧ m.step.2.Keeps V T m.store m.limits ∨
      ∃ op, m.done? = some op ∧ m.op? = some op ∧ op.Effect V T m.store m.limits m.operands m.step.2 ∧
        (m.step.1 = .running ∧ m.step.2.operands.length ≤ m.limits.operands ∨
          m.limits.operands < m.step.2.operands.length) := by
  -- The frame moves on and a trace may be written before the instruction is executed.
  have hbegun : ∀ {fr frs} (out : String), m.frames = fr :: frs →
      (m.put (past fr :: frs) m.operands { m.world with output := out } (m.steps + 1)).Keeps V T
        m.store m.limits := by
    intro fr frs out hfrs
    have hslots := hm.slots
    have hcode := hm.code
    rw [hfrs] at hslots hcode
    refine ⟨rfl, rfl, hm.operands, ?_, ?_, hm.templates⟩
    · exact List.forall_mem_cons.mpr (List.forall_mem_cons.mp hslots)
    · exact List.forall_mem_cons.mpr (List.forall_mem_cons.mp hcode)
  have hinstr : ∀ {fr frs i}, m.frames = fr :: frs → fr.template.instrs[fr.pc]? = some i →
      m.op? = some i.op ∧ ∀ v, i.op = .push v → V v := by
    intro fr frs i hfrs hi
    constructor
    · rw [op?, ← m.put_self_of_frames hfrs, site?_put hi]
      rfl
    · exact hT _ (hm.code fr (hfrs ▸ List.mem_cons_self ..)) i (Array.mem_of_getElem? hi)
  rw [done?]
  generalize hstep : m.step = stepped
  obtain ⟨st, m'⟩ := stepped
  cases stepped_of_step hstep with
  | finished => exact .inl ⟨rfl, rfl, rfl, hm⟩
  | exhausted frames instr => exact .inl ⟨rfl, hbegun _ frames⟩
  | @faulted _ _ _ _ e _ frames instr exec =>
    refine .inl ⟨?_, Op.keeps_of_error (hbegun _ frames) hσ (hinstr frames instr).2 exec⟩
    have hcounted := Op.exec_ne_stackOverflow exec
    cases e with
    | stackOverflow n => exact absurd rfl (hcounted n)
    | _ => rfl
  | overflowed frames instr exec count =>
    obtain ⟨hop, hpush⟩ := hinstr frames instr
    have heffect := Op.effect_of_ok (hbegun _ frames) hσ hpush exec
    rw [heffect.limits] at count
    exact .inr ⟨_, hop, hop, heffect, .inr count⟩
  | running frames instr exec count =>
    obtain ⟨hop, hpush⟩ := hinstr frames instr
    have heffect := Op.effect_of_ok (hbegun _ frames) hσ hpush exec
    rw [heffect.limits] at count
    exact .inr ⟨_, hop, hop, heffect, .inl ⟨rfl, count⟩⟩

namespace Machine

/-- What a step comes to, of whatever code. -/
theorem step_effect_true (m : Machine) :
    m.done? = none ∧ m.step.2.Keeps (fun _ ↦ True) (fun _ ↦ True) m.store m.limits ∨
      ∃ op, m.done? = some op ∧ m.op? = some op ∧
        op.Effect (fun _ ↦ True) (fun _ ↦ True) m.store m.limits m.operands m.step.2 ∧
        (m.step.1 = .running ∧ m.step.2.operands.length ≤ m.limits.operands ∨
          m.limits.operands < m.step.2.operands.length) :=
  step_effect m.keeps_true.holds m.store.admits_true fun _ _ _ _ _ _ ↦ trivial

theorem step_extends (m : Machine) : m.store.Extends m.step.2.store := by
  rcases m.step_effect_true with ⟨-, hkeeps⟩ | ⟨op, -, -, heffect, -⟩
  · rw [hkeeps.store]
    exact .refl _
  · exact heffect.extends

/-- A step changes no object but the one its instruction addresses, and none if it fails. Before it,
there must not be too many operands, or else an assignment would be counted as a failure. -/
theorem step_writes (hcount : m.operands.length ≤ m.limits.operands) {r : Nat} {o : Obj}
    (ho : m.store.get? r = some o) :
    m.step.2.store.get? r = some o ∨
      m.step.1 = .running ∧ ∃ o', m.step.2.store.get? r = some o' ∧ m.Writes r o o' := by
  rcases m.step_effect_true with ⟨-, hkeeps⟩ | ⟨op, -, hop, heffect, hend⟩
  · rw [hkeeps.store]
    exact .inl ho
  · -- An assignment takes operands and leaves none, so that there are not too many behind it.
    have hrunning : m.step.2.operands.length ≤ m.operands.length → m.step.1 = .running := by
      intro hfewer
      rcases hend with ⟨hrunning, -⟩ | hmany
      · exact hrunning
      · exact absurd (hfewer.trans hcount) (Nat.not_le_of_lt hmany)
    cases heffect with
    | keep _ keeps =>
      rw [keeps.store]
      exact .inl ho
    | allocate _ store =>
      rw [store]
      exact .inl (Store.get?_add_of_some ho)
    | @setField x v r' us fs _ found record _ store _ operands _ =>
      have hrunning := hrunning (by simp only [operands, found, List.length_cons]; omega)
      rw [store, Store.setField]
      by_cases hr : r = r'
      · subst hr
        obtain rfl : Obj.record fs = o := Option.some.inj (record.symm.trans ho)
        refine .inr ⟨hrunning, .record (fs.set x v), ?_, .field hop found ?_ fun y hy ↦ ?_⟩
        · rw [Store.get?_update_self, record]
          rfl
        · rw [Fields.get?_set, if_pos rfl]
        · rw [Fields.get?_set, if_neg hy]
      · rw [Store.get?_update_of_ne _ _ hr]
        exact .inl ho
    | @setItem v n i r' us cells _ found index bound array _ store _ operands _ =>
      have hrunning := hrunning (by simp only [operands, found, List.length_cons]; omega)
      rw [store, Store.setCell]
      by_cases hr : r = r'
      · subst hr
        obtain rfl : Obj.array cells = o := Option.some.inj (array.symm.trans ho)
        refine .inr ⟨hrunning, .array (cells.setIfInBounds i v), ?_,
          .item hop found index (Array.size_setIfInBounds ..) ?_ fun j hj ↦ ?_⟩
        · rw [Store.get?_update_self, array]
          rfl
        · rw [Array.getElem?_setIfInBounds_self, if_pos bound]
        · rw [Array.getElem?_setIfInBounds_ne (Ne.symm hj)]
      · rw [Store.get?_update_of_ne _ _ hr]
        exact .inl ho

/-- Between instructions there are not too many operands. -/
theorem operands_of_running (hcount : m.operands.length ≤ m.limits.operands) {n : Nat}
    (hrun : m.runFor n = (.running, m')) : m'.operands.length ≤ m'.limits.operands := by
  induction n generalizing m with
  | zero =>
    cases hrun
    exact hcount
  | succ n ih =>
    rcases hstep : m.step with ⟨st, m₁⟩
    cases st with
    | running =>
      rw [runFor_succ_of_running hstep] at hrun
      refine ih ?_ hrun
      cases stepped_of_step hstep with
      | running _ _ _ count => exact count
    | finished | failed =>
      rw [runFor_succ_of_ended hstep (by simp)] at hrun
      cases hrun

end Machine

end

/-! ## References -/

/-- A value that, if it is a reference, names an object. -/
def Value.Allocated (σ : Store) (v : Value) : Prop :=
  ∀ r, v = .ref r → ∃ o, σ.get? r = some o

theorem Value.Allocated.mono {σ σ' : Store} {v : Value} (hext : σ.Extends σ')
    (h : v.Allocated σ) : v.Allocated σ' := by
  intro r hr
  obtain ⟨o, ho⟩ := h r hr
  obtain ⟨o', ho', -⟩ := hext r o ho
  exact ⟨o', ho'⟩

/-- A template in which no reference is made up. -/
def Template.PushesNoRef (t : Template) : Prop :=
  ∀ i ∈ t.instrs, ∀ r, i.op ≠ .push (.ref r)

/-- No reference of the machine dangles, and its code makes none up. -/
structure Machine.Closed (m : Machine) : Prop where
  holds : m.Holds (Value.Allocated m.store) Template.PushesNoRef m.operands
  store : m.store.Admits (Value.Allocated m.store)

theorem Machine.Holds.mono {V W : Value → Prop} {T : Template → Prop} {vs : List Value}
    {m : Machine} (h : m.Holds V T vs) (hVW : ∀ v, V v → W v) : m.Holds W T vs :=
  ⟨fun v hv ↦ hVW v (h.operands v hv), fun fr hfr v hv ↦ hVW v (h.slots fr hfr v hv), h.code,
    h.templates⟩

section
variable {σ σ' : Store}

/-- A store in which each object has values that were there before, one new value at most. -/
theorem Store.Admits.extend (h : σ.Admits (Value.Allocated σ)) (hext : σ.Extends σ')
    (hvalues : ∀ r o, σ'.get? r = some o → ∀ v ∈ o.values,
      v.Allocated σ ∨ ∃ o₀, σ.get? r = some o₀ ∧ v ∈ o₀.values) :
    σ'.Admits (Value.Allocated σ') := by
  refine ⟨fun v hv r hr ↦ absurd hr (hv r), fun r o ho v hv ↦ Value.Allocated.mono hext ?_⟩
  rcases hvalues r o ho v hv with hv | ⟨o₀, ho₀, hv⟩
  · exact hv
  · exact h.stored r o₀ ho₀ v hv

/-- The object that was updated has the values it had before and one more. -/
theorem Store.mem_values_update {r r' : Nat} {f : Obj → Obj} {o₀ o : Obj} {v u : Value}
    (ho₀ : σ.get? r = some o₀) (hf : ∀ u ∈ (f o₀).values, u = v ∨ u ∈ o₀.values)
    (ho : (σ.update r f).get? r' = some o) (hu : u ∈ o.values) :
    u = v ∨ ∃ o₁, σ.get? r' = some o₁ ∧ u ∈ o₁.values := by
  by_cases hr : r' = r
  · subst hr
    rw [Store.get?_update_self, ho₀, Option.map_some] at ho
    cases ho
    exact (hf u hu).imp id fun h ↦ ⟨o₀, ho₀, h⟩
  · rw [Store.get?_update_of_ne _ _ hr] at ho
    exact .inr ⟨o, ho, hu⟩

end

section
variable {m : Machine}

theorem Op.Allocates.plain {l : Limits} {op : Op} {vs us : List Value} {o : Obj}
    (h : op.Allocates l vs us o) : ∀ v ∈ o.values, v = .null := by
  cases h with
  | record => exact fun v hv ↦ absurd hv List.not_mem_nil
  | array => exact fun v hv ↦ Array.eq_of_mem_replicate (Array.mem_toList_iff.mp hv)

theorem Machine.Keeps.closed {σ : Store} {l : Limits}
    (h : m.Keeps (Value.Allocated σ) Template.PushesNoRef σ l)
    (hσ : σ.Admits (Value.Allocated σ)) : m.Closed := by
  have hstore := h.store
  subst hstore
  exact ⟨h.holds, hσ⟩

/-- An instruction leaves no reference that dangles. -/
theorem Op.Effect.closed {op : Op} {σ : Store} {l : Limits} {vs : List Value}
    (h : op.Effect (Value.Allocated σ) Template.PushesNoRef σ l vs m)
    (hσ : σ.Admits (Value.Allocated σ)) : m.Closed := by
  have hext := h.extends
  have hmono := fun v (hv : Value.Allocated σ v) ↦ hv.mono hext
  cases h with
  | keep _ keeps => exact keeps.closed hσ
  | @allocate _ o _ us new store _ operands holds =>
    have hheld := holds.mono hmono
    refine ⟨⟨?_, hheld.slots, hheld.code, hheld.templates⟩, hσ.extend hext ?_⟩
    · rw [operands]
      refine List.forall_mem_cons.mpr ⟨?_, hheld.operands⟩
      rintro r ⟨⟩
      exact ⟨o, by rw [store, Store.get?_add_next]⟩
    -- A new object holds nothing but null, and the others hold what they held.
    · intro r o' ho' v hv
      rw [store] at ho'
      by_cases hr : r = σ.next
      · subst hr
        rw [Store.get?_add_next] at ho'
        cases ho'
        rw [new.plain v hv]
        exact .inl hσ.null
      · rw [Store.get?_add_of_ne σ o hr] at ho'
        exact .inr ⟨o', ho', hv⟩
  | setField found record value store _ operands holds =>
    have hheld := holds.mono hmono
    refine ⟨⟨operands ▸ hheld.operands, hheld.slots, hheld.code, hheld.templates⟩,
      hσ.extend hext fun r o ho v hv ↦ ?_⟩
    rw [store] at ho
    rcases Store.mem_values_update record (fun u hu ↦ Fields.mem_set hu) ho hv with rfl | hold
    · exact .inl value
    · exact .inr hold
  | setItem found index bound array value store _ operands holds =>
    have hheld := holds.mono hmono
    refine ⟨⟨operands ▸ hheld.operands, hheld.slots, hheld.code, hheld.templates⟩,
      hσ.extend hext fun r o ho v hv ↦ ?_⟩
    rw [store] at ho
    rcases Store.mem_values_update array (fun u hu ↦ Obj.mem_setItem hu) ho hv with rfl | hold
    · exact .inl value
    · exact .inr hold

theorem Machine.Closed.step (h : m.Closed) : m.step.2.Closed := by
  have hpush : ∀ t, Template.PushesNoRef t → ∀ i ∈ t.instrs, ∀ v, i.op = .push v →
      Value.Allocated m.store v := by
    rintro t ht i hi v hv r rfl
    exact absurd hv (ht i hi r)
  rcases step_effect h.holds h.store hpush with ⟨-, hkeeps⟩ | ⟨op, -, -, heffect, -⟩
  · exact hkeeps.closed h.store
  · exact heffect.closed h.store

end

/-! ## Runs and histories -/

namespace Machine

theorem runFor_extends (n : Nat) (m : Machine) : m.store.Extends (m.runFor n).2.store := by
  refine runFor_induction (P := fun m' ↦ m.store.Extends m'.store)
    (Q := fun _ m' ↦ m.store.Extends m'.store) (fun _ h ↦ h) ?_ n m (.refl _)
  intro m₁ h st m₂ hstep
  have hext := m₁.step_extends
  rw [hstep] at hext
  split <;> exact h.trans hext

theorem Closed.runFor {m : Machine} (h : m.Closed) (n : Nat) : (m.runFor n).2.Closed := by
  refine runFor_induction (P := Closed) (Q := fun _ m' ↦ m'.Closed) (fun _ h ↦ h) ?_ n m h
  intro m₁ h st m₂ hstep
  have hclosed := h.step
  rw [hstep] at hclosed
  split <;> exact hclosed

/-- How a run begins: nothing has changed but the frames, operands and steps. -/
theorem start_eq (m : Machine) :
    m.start.2.store = m.store ∧ m.start.2.templates = m.templates ∧ m.start.2.operands = [] ∧
      ∀ fr ∈ m.start.2.frames, ∃ t ∈ m.templates, fr = .enter t := by
  rw [start]
  cases ht : m.reset.template? "main" with
  | none => exact ⟨rfl, rfl, rfl, fun _ h ↦ absurd h List.not_mem_nil⟩
  | some t =>
    refine ⟨rfl, rfl, rfl, fun fr hfr ↦ ⟨t, List.mem_of_find?_eq_some ht, ?_⟩⟩
    exact List.mem_singleton.mp hfr

/-- A template that does not pass verification is not registered. -/
theorem register_cases (m : Machine) (t : Template) :
    (∃ e, t.verify = .error e ∧ m.register t = (.error e, m)) ∨
      t.verify = .ok () ∧ m.register t =
        (.ok (), { m with templates := t :: m.templates.filter (·.name != t.name) }) := by
  rw [register]
  cases hverify : t.verify with
  | error e => exact .inl ⟨e, rfl, rfl⟩
  | ok _ => exact .inr ⟨rfl, rfl⟩

/-- An event leaves the store alone unless it is a run. -/
theorem perform_cases (m : Machine) (e : Event) :
    (m.perform e).store = m.store ∨ ∃ (n : Nat) (m' : Machine), e = .run n ∧
      m.start = (.running, m') ∧ m'.store = m.store ∧ m.perform e = (m'.runFor n).2 := by
  cases e with
  | register t =>
    rw [perform]
    rcases m.register_cases t with ⟨e, -, hreg⟩ | ⟨-, hreg⟩ <;> exact .inl (by rw [hreg])
  | trace on => exact .inl rfl
  | reset => exact .inl rfl
  | run steps =>
    have hstore := m.start_eq.1
    rw [perform]
    rcases hstart : m.start with ⟨st, m'⟩
    rw [hstart] at hstore
    cases st with
    | running => exact .inr ⟨steps, m', rfl, rfl, hstore, rfl⟩
    | finished | failed => exact .inl hstore

theorem perform_extends (m : Machine) (e : Event) : m.store.Extends (m.perform e).store := by
  rcases m.perform_cases e with hstore | ⟨n, m', -, -, hstore, hrun⟩
  · rw [hstore]
    exact .refl _
  · rw [hrun, ← hstore]
    exact runFor_extends n m'

theorem performAll_extends (m : Machine) (events : List Event) :
    m.store.Extends (m.performAll events).store := by
  induction events generalizing m with
  | nil => exact .refl _
  | cons e events ih => exact (m.perform_extends e).trans (ih (m.perform e))

theorem Closed.perform {m : Machine} (h : m.Closed) {e : Event}
    (he : ∀ t, e = .register t → t.verify = .ok () → t.PushesNoRef) : (m.perform e).Closed := by
  have hreset : m.reset.Closed :=
    ⟨⟨fun _ hv ↦ absurd hv List.not_mem_nil, fun _ hfr ↦ absurd hfr List.not_mem_nil,
      fun _ hfr ↦ absurd hfr List.not_mem_nil, h.holds.templates⟩, h.store⟩
  cases e with
  | register t =>
    rw [Machine.perform]
    rcases m.register_cases t with ⟨e, -, hreg⟩ | ⟨hverify, hreg⟩
    · rw [hreg]
      exact h
    · rw [hreg]
      refine ⟨⟨h.holds.operands, h.holds.slots, h.holds.code, ?_⟩, h.store⟩
      refine List.forall_mem_cons.mpr ⟨he t rfl hverify, fun t' ht' ↦ ?_⟩
      exact h.holds.templates t' (List.mem_of_mem_filter ht')
  | trace on =>
    exact ⟨⟨h.holds.operands, h.holds.slots, h.holds.code, h.holds.templates⟩, h.store⟩
  | reset => exact hreset
  | run steps =>
    obtain ⟨hstore, htemplates, hops, hfrs⟩ := m.start_eq
    have hstart : m.start.2.Closed := by
      refine ⟨⟨?_, fun fr hfr v hv ↦ ?_, fun fr hfr ↦ ?_, htemplates ▸ h.holds.templates⟩, ?_⟩
      · rw [hops]
        exact fun v hv ↦ absurd hv List.not_mem_nil
      · obtain ⟨t, -, rfl⟩ := hfrs fr hfr
        simp [Frame.enter] at hv
      · obtain ⟨t, ht, rfl⟩ := hfrs fr hfr
        exact h.holds.templates t ht
      · rw [hstore]
        exact h.store
    rw [Machine.perform]
    rcases heq : m.start with ⟨st, m'⟩
    rw [heq] at hstart
    cases st with
    | running => exact hstart.runFor steps
    | finished | failed => exact hstart

theorem Closed.performAll {m : Machine} (h : m.Closed) {events : List Event}
    (he : ∀ t, .register t ∈ events → t.verify = .ok () → t.PushesNoRef) :
    (m.performAll events).Closed := by
  induction events generalizing m with
  | nil => exact h
  | cons e events ih =>
    refine ih (h.perform ?_) fun t ht ↦ he t (List.mem_cons_of_mem _ ht)
    rintro t rfl
    exact he t (List.mem_cons_self ..)

theorem closed_fresh (limits : Limits) (input : List UInt8) : (fresh limits input).Closed := by
  refine ⟨⟨fun _ hv ↦ absurd hv List.not_mem_nil, fun _ hfr ↦ absurd hfr List.not_mem_nil,
      fun _ hfr ↦ absurd hfr List.not_mem_nil, fun _ ht ↦ absurd ht List.not_mem_nil⟩,
    fun v hv r hr ↦ absurd hr (hv r), fun r o ho ↦ ?_⟩
  obtain ⟨hone, hlt⟩ := Store.lt_next_of_get? ho
  have hnext : (fresh limits input).store.next = 1 := rfl
  omega

end Machine

end Pebble
