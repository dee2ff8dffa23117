import Mathlib.Algebra.Group.Nat.Defs
import Mathlib.Tactic.Common
import Pebble.Proofs.Stepping

/-!
# What an instruction can do

What executing any operation on any machine can come to, whether it succeeds or faults. Most
operations leave the store alone; the four that do not change it in one way each (`Op.Effect`).

Along with the store, values are followed: if all values that a machine holds, on the stack, in its
slots and in its store, have a property `V` that constants have, then an operation makes no others,
except for the reference to an object that it allocates. Likewise all code that is executed has a
property `T` that the registered templates have. With a property that everything has, this says
nothing about values, and the rest is what holds of arbitrary code.

## The construction

An invariant is kept by an operation if it is kept by the small actions that the operation is made
of. The operations are gone through once, for any invariant that bears what they do to operands and
frames (`Op.maintains_exec`). That the store stays as it is makes one such invariant.
-/

namespace Pebble

/-! ## Triples -/

namespace Exec

variable {α β : Type} {E P : Machine → Prop}

/-- Begun in a state in which `P` holds, `x` succeeds in a state in which `Q` holds of its answer,
or it faults in one in which `E` holds. -/
def Triple (E P : Machine → Prop) (x : Exec α) (Q : α → Machine → Prop) : Prop :=
  ∀ m, P m → match x m with
    | .ok a m' => Q a m'
    | .error _ m' => E m'

theorem Triple.bind {x : Exec α} {f : α → Exec β} {Q : α → Machine → Prop}
    {R : β → Machine → Prop} (hx : Triple E P x Q) (hf : ∀ a, Triple E (Q a) (f a) R) :
    Triple E P (x >>= f) R := by
  intro m hm
  have h := hx m hm
  simp only [Bind.bind, EStateM.bind]
  cases hr : x m with
  | ok a m' =>
    rw [hr] at h
    exact hf a m' h
  | error e m' =>
    rw [hr] at h
    exact h

theorem Triple.mono {x : Exec α} {Q R : α → Machine → Prop} (hx : Triple E P x Q)
    (h : ∀ a m, Q a m → R a m) : Triple E P x R := by
  intro m hm
  have hrun := hx m hm
  cases hr : x m with
  | ok a m' =>
    rw [hr] at hrun
    exact h a m' hrun
  | error e m' =>
    rw [hr] at hrun
    exact hrun

theorem triple_pure {a : α} {Q : α → Machine → Prop} (h : ∀ m, P m → Q a m) :
    Triple E P (pure a) Q :=
  fun m hm ↦ h m hm

theorem triple_throw {e : Fault} {Q : α → Machine → Prop} (h : ∀ m, P m → E m) :
    Triple E P (throw e) Q :=
  fun m hm ↦ h m hm

theorem triple_get_bind {f : Machine → Exec β} {R : β → Machine → Prop}
    (h : ∀ m, P m → Triple E P (f m) R) : Triple E P (get >>= f) R :=
  fun m hm ↦ h m hm m hm

theorem triple_modify {change : Machine → Machine} {Q : Unit → Machine → Prop}
    (h : ∀ m, P m → Q () (change m)) : Triple E P (modify change) Q :=
  fun m hm ↦ h m hm

end Exec

/-! ## What a machine holds -/

/-- The values of an object. -/
def Obj.values : Obj → List Value
  | record fs => fs.map (·.2)
  | array vs => vs.toList

/-- The operands `vs` and all slots of a machine have the property `V`, and all its code has the
property `T`. -/
structure Machine.Holds (V : Value → Prop) (T : Template → Prop) (vs : List Value) (m : Machine) :
    Prop where
  operands : ∀ v ∈ vs, V v
  slots : ∀ fr ∈ m.frames, ∀ v ∈ fr.slots, V v
  code : ∀ fr ∈ m.frames, T fr.template
  templates : ∀ t ∈ m.templates, T t

/-- A state of a machine that has the store `σ` and the limits `l`. -/
structure Machine.Keeps (V : Value → Prop) (T : Template → Prop) (σ : Store) (l : Limits)
    (m : Machine) : Prop where
  store : m.store = σ
  limits : m.limits = l
  holds : m.Holds V T m.operands

/-- The property holds of all constants and of all values in the store. -/
structure Store.Admits (V : Value → Prop) (σ : Store) : Prop where
  plain : ∀ v, (∀ r, v ≠ .ref r) → V v
  stored : ∀ r o, σ.get? r = some o → ∀ v ∈ o.values, V v

theorem Store.admits_true (σ : Store) : σ.Admits fun _ ↦ True :=
  ⟨fun _ _ ↦ trivial, fun _ _ _ _ _ ↦ trivial⟩

theorem Store.Admits.null {V : Value → Prop} {σ : Store} (h : σ.Admits V) : V .null :=
  h.plain _ fun _ ↦ Value.noConfusion

theorem Store.Admits.int {V : Value → Prop} {σ : Store} (h : σ.Admits V) (n : Int32) : V (.int n) :=
  h.plain _ fun _ ↦ Value.noConfusion

theorem Store.Admits.bool {V : Value → Prop} {σ : Store} (h : σ.Admits V) (b : Bool) :
    V (.bool b) :=
  h.plain _ fun _ ↦ Value.noConfusion

theorem Store.Admits.str {V : Value → Prop} {σ : Store} (h : σ.Admits V) (s : String) :
    V (.str s) :=
  h.plain _ fun _ ↦ Value.noConfusion

/-! ## Results that are no references -/

theorem ArithOp.onInts_ne_ref {o : ArithOp} {a b : Int32} {r : Nat} :
    o.onInts a b ≠ .ok (.ref r) := by
  cases o with
  | div =>
    rw [ArithOp.onInts]
    split <;> exact fun h ↦ nomatch h
  | add | sub | mul => exact fun h ↦ Value.noConfusion (Except.ok.inj h)

theorem ArithOp.onDoubles_ne_ref {o : ArithOp} {a b : Float} {r : Nat} :
    o.onDoubles a b ≠ .ok (.ref r) := by
  cases o with
  | div =>
    rw [ArithOp.onDoubles]
    split <;> exact fun h ↦ nomatch h
  | add | sub | mul => exact fun h ↦ Value.noConfusion (Except.ok.inj h)

theorem ArithOp.apply_ne_ref {o : ArithOp} {lhs rhs v : Value} (h : o.apply lhs rhs = .ok v)
    (r : Nat) : v ≠ .ref r := by
  rintro rfl
  unfold ArithOp.apply at h
  split at h
  · cases h
  · split at h
    · exact ArithOp.onInts_ne_ref h
    · exact ArithOp.onDoubles_ne_ref h
    · cases h
    · cases h

theorem Conversion.read_ne_ref {s : String} {target : Value.Kind} {α : Type} {x : Option α}
    {f : α → Value} (hf : ∀ a r, f a ≠ .ref r) {v : Value}
    (h : Conversion.read s target (x.map f) = .ok v) (r : Nat) : v ≠ .ref r := by
  cases x with
  | none => cases h
  | some a =>
    cases h
    exact hf a r

theorem Conversion.apply_ne_ref {c : Conversion} {u v : Value} (h : c.apply u = .ok v) (r : Nat) :
    v ≠ .ref r := by
  unfold Conversion.apply at h
  split at h
  · cases h
  · cases h; exact Value.noConfusion
  · cases h; exact Value.noConfusion
  · exact Conversion.read_ne_ref (fun _ _ ↦ Value.noConfusion) h r
  · cases h; exact Value.noConfusion
  · cases h; exact Value.noConfusion
  · exact Conversion.read_ne_ref (fun _ _ ↦ Value.noConfusion) h r
  · cases h
  · cases h; exact Value.noConfusion
  · cases h

/-! ## Invariants of actions -/

namespace Exec

variable {I : Machine → Prop} {α β : Type}

/-- An action that keeps the invariant `I`, also if it faults, and whose answer has the property
`Q`. -/
def Maintains (I : Machine → Prop) (x : Exec α) (Q : α → Prop) : Prop :=
  Triple I I x fun a m ↦ I m ∧ Q a

namespace Maintains

variable {Q : α → Prop} {R : β → Prop}

theorem bind {x : Exec α} {f : α → Exec β} (hx : Maintains I x Q)
    (hf : ∀ a, Q a → Maintains I (f a) R) : Maintains I (x >>= f) R :=
  Triple.bind hx fun a m hm ↦ hf a hm.2 m hm.1

theorem pure {a : α} (h : Q a) : Maintains I (pure a) Q :=
  triple_pure fun _ hm ↦ ⟨hm, h⟩

theorem throw {e : Fault} : Maintains I (throw e : Exec α) Q :=
  triple_throw fun _ hm ↦ hm

theorem get_bind {f : Machine → Exec β} (h : ∀ m, I m → Maintains I (f m) R) :
    Maintains I (get >>= f) R :=
  triple_get_bind h

theorem modify {change : Machine → Machine} (h : ∀ m, I m → I (change m)) :
    Maintains I (modify change) fun _ ↦ True :=
  triple_modify fun m hm ↦ ⟨h m hm, trivial⟩

theorem discard {x : Exec α} (hx : Maintains I x Q) : Maintains I (discard x) fun _ ↦ True :=
  hx.bind fun _ _ ↦ pure trivial

/-- What the state before an action says may be used about the action. -/
theorem of_state {x : Exec α} (h : ∀ m, I m → Maintains I x Q) : Maintains I x Q :=
  fun m hm ↦ h m hm m hm

/-- A check before the rest of an action. -/
theorem check {c : Prop} [Decidable c] {e : Fault} {x : Exec β} (hx : Maintains I x R) :
    Maintains I (if c then MonadExcept.throw e >>= fun (_ : PUnit) ↦ x else x) R := by
  split
  · exact throw.bind fun _ (_ : True) ↦ hx
  · exact hx

theorem lift {x : Except Fault α} (h : ∀ a, x = .ok a → Q a) : Maintains I (Exec.lift x) Q := by
  cases x with
  | ok a => exact pure (h a rfl)
  | error e => exact throw

theorem fromStore {x : Except StoreFault α} (h : ∀ a, x = .ok a → Q a) :
    Maintains I (Exec.fromStore x) Q := by
  cases x with
  | ok a => exact pure (h a rfl)
  | error e => exact throw

theorem rejected {op : Op} {wanted : Operands} {v : Value} :
    Maintains I (Exec.rejected op wanted v) Q := by
  cases v <;> exact throw

theorem itemIndex {op : Op} {index : Int32} {size : Nat} :
    Maintains I (Exec.itemIndex op index size) fun i ↦ i < size := by
  rw [Exec.itemIndex]
  cases index.toInt with
  | negSucc _ => exact throw
  | ofNat i =>
    by_cases hi : i < size
    · simp only [if_pos hi]
      exact pure hi
    · simp only [if_neg hi]
      exact throw

theorem item {V : Value → Prop} {op : Op} {cells : Array Value} {index : Int32}
    (h : ∀ v ∈ cells, V v) : Maintains I (Exec.item op cells index) V := by
  refine itemIndex.bind fun i hi ↦ pure ?_
  rw [Array.getD_eq_getD_getElem?, Array.getElem?_eq_getElem hi]
  exact h _ (Array.getElem_mem hi)

end Maintains

end Exec

/-- An invariant that bears what operations do to operands and frames, as long as all values have
the property `V` and no code runs that was not there before. -/
structure Machine.Invariant (V : Value → Prop) (I : Machine → Prop) : Prop where
  admits : ∀ {m}, I m → m.store.Admits V
  operands : ∀ {m}, I m → ∀ v ∈ m.operands, V v
  slots : ∀ {m}, I m → ∀ fr ∈ m.frames, ∀ v ∈ fr.slots, V v
  setOperands : ∀ {m vs}, I m → (∀ v ∈ vs, V v) → I { m with operands := vs }
  setFrames : ∀ {m frs}, I m → (∀ fr ∈ frs, ∀ v ∈ fr.slots, V v) →
    (∀ fr ∈ frs, fr.template ∈ m.templates ∨ ∃ fr' ∈ m.frames, fr'.template = fr.template) →
    I { m with frames := frs }

/-- A part of the machine that is neither its operands nor its frames stays as it is. -/
theorem Machine.invariant_eq {α : Type} (part : Machine → α)
    (hoperands : ∀ m vs, part { m with operands := vs } = part m)
    (hframes : ∀ m frs, part { m with frames := frs } = part m) (a : α) :
    Invariant (fun _ ↦ True) (part · = a) where
  admits {m} _ := m.store.admits_true
  operands _ _ _ := trivial
  slots _ _ _ _ _ := trivial
  setOperands {m vs} hm _ := (hoperands m vs).trans hm
  setFrames {m frs} hm _ _ := (hframes m frs).trans hm

namespace Machine.Invariant

open Exec

variable {V : Value → Prop} {I : Machine → Prop}

section
variable (hI : Invariant V I)
include hI

theorem push {v : Value} (h : V v) : Maintains I (Exec.push v) fun _ ↦ True :=
  .modify fun _ hm ↦ hI.setOperands hm (List.forall_mem_cons.mpr ⟨h, hI.operands hm⟩)

theorem pop : Maintains I Exec.pop V := by
  refine .get_bind fun m hm ↦ ?_
  intro m' hm'
  cases hops : m.operands with
  | nil => exact hm'
  | cons v vs =>
    obtain ⟨hv, hvs⟩ := List.forall_mem_cons.mp (hops ▸ hI.operands hm)
    exact ⟨hI.setOperands hm' hvs, hv⟩

theorem popInt {op : Op} : Maintains I (Exec.popInt op) fun _ ↦ True := by
  refine hI.pop.bind fun v _ ↦ ?_
  cases v with
  | int n => exact .pure trivial
  | null | double | bool | str | ref => exact .rejected

theorem popBool {op : Op} : Maintains I (Exec.popBool op) fun _ ↦ True := by
  refine hI.pop.bind fun v _ ↦ ?_
  cases v with
  | bool b => exact .pure trivial
  | null | double | int | str | ref => exact .rejected

theorem popRef {op : Op} : Maintains I (Exec.popRef op) fun _ ↦ True := by
  refine hI.pop.bind fun v _ ↦ ?_
  cases v with
  | ref r => exact .pure trivial
  | null | double | int | str | bool => exact .rejected

theorem frame : Maintains I Exec.frame fun fr ↦ ∀ v ∈ fr.slots, V v := by
  refine .get_bind fun m hm ↦ ?_
  cases hfrs : m.frames with
  | nil => exact .throw
  | cons fr frs => exact .pure (hI.slots hm fr (hfrs ▸ List.mem_cons_self ..))

theorem updateFrame {change : Frame → Frame}
    (hslots : ∀ fr, (∀ v ∈ fr.slots, V v) → ∀ v ∈ (change fr).slots, V v)
    (hcode : ∀ fr, (change fr).template = fr.template) :
    Maintains I (Exec.updateFrame change) fun _ ↦ True := by
  intro m hm
  rw [Exec.updateFrame, Machine.get_bind]
  cases hfrs : m.frames with
  | nil => exact hm
  | cons fr frs =>
    obtain ⟨hfr, hfrs'⟩ := List.forall_mem_cons.mp (hfrs ▸ hI.slots hm)
    refine ⟨hI.setFrames hm (List.forall_mem_cons.mpr ⟨hslots fr hfr, hfrs'⟩) ?_, trivial⟩
    rw [hfrs]
    refine List.forall_mem_cons.mpr ⟨.inr ⟨fr, List.mem_cons_self .., (hcode fr).symm⟩, ?_⟩
    exact fun fr' hfr' ↦ .inr ⟨fr', List.mem_cons_of_mem _ hfr', rfl⟩

theorem jumpTo {target : Int} : Maintains I (Exec.jumpTo target) fun _ ↦ True := by
  cases target with
  | ofNat n => exact hI.updateFrame (fun _ h ↦ h) fun _ ↦ rfl
  | negSucc _ => exact .throw

theorem call {x : String} : Maintains I (Exec.call x) fun _ ↦ True := by
  intro m hm
  rw [Exec.call, Machine.get_bind]
  cases ht : m.template? x with
  | none => exact hm
  | some t =>
    have henter : I { m with frames := .enter t :: m.frames } := by
      refine hI.setFrames hm (List.forall_mem_cons.mpr ⟨?_, hI.slots hm⟩) ?_
      · exact fun v hv ↦ absurd hv (Array.not_mem_empty v)
      · refine List.forall_mem_cons.mpr ⟨.inl (List.mem_of_find?_eq_some ht), ?_⟩
        exact fun fr hfr ↦ .inr ⟨fr, hfr, rfl⟩
    by_cases hdepth : m.limits.callDepth ≤ m.frames.length
    · simp only [if_pos hdepth]
      exact hm
    · simp only [if_neg hdepth]
      exact ⟨henter, trivial⟩

theorem ret : Maintains I Exec.ret fun _ ↦ True := by
  refine .modify fun m hm ↦ ?_
  have htail : ∀ v ∈ m.operands.tail, V v := fun v hv ↦
    hI.operands hm v (List.mem_of_mem_tail hv)
  have hhead : V (m.operands.headD .null) := by
    cases hops : m.operands with
    | nil => exact (hI.admits hm).null
    | cons v vs => exact hI.operands hm v (hops ▸ List.mem_cons_self ..)
  have hframes : I { m with frames := m.frames.tail } :=
    hI.setFrames hm (fun fr hfr ↦ hI.slots hm fr (List.mem_of_mem_tail hfr))
      fun fr hfr ↦ .inr ⟨fr, List.mem_of_mem_tail hfr, rfl⟩
  refine hI.setOperands hframes ?_
  split
  · exact htail
  · exact List.forall_mem_cons.mpr ⟨hhead, htail⟩

theorem readLine (hinput : ∀ {m rest}, I m → I { m with input := rest }) :
    Maintains I Exec.readLine V := by
  refine .get_bind fun m hm ↦ ?_
  rcases Exec.splitLine m.input with ⟨line, rest⟩
  cases line with
  | nil => exact .pure (hI.admits hm).null
  | cons b line =>
    refine (Maintains.modify fun _ ↦ hinput).bind fun _ _ ↦ ?_
    cases String.fromUTF8? (b :: line).toByteArray with
    | none => exact .throw
    | some s => exact .pure ((hI.admits hm).str _)

theorem allocate {o : Obj} (href : ∀ r, V (.ref r))
    (hstore : ∀ {m σ}, I m → I { m with store := σ }) :
    Maintains I (Exec.allocate o) fun _ ↦ True :=
  .get_bind fun _ _ ↦ (Maintains.modify fun _ ↦ hstore).bind fun _ _ ↦ hI.push (href _)

end

end Machine.Invariant

section
variable {V : Value → Prop} {T : Template → Prop} {σ : Store} {l : Limits}

theorem Store.get?_of_fields {r : Nat} {fs : Fields} (h : σ.fields r = .ok fs) :
    σ.get? r = some (.record fs) := by
  rw [Store.fields] at h
  split at h
  · next hget =>
    cases h
    exact hget
  · cases h

theorem Store.get?_of_cells {r : Nat} {cells : Array Value} (h : σ.cells r = .ok cells) :
    σ.get? r = some (.array cells) := by
  rw [Store.cells] at h
  split at h
  · next hget =>
    cases h
    exact hget
  · cases h

theorem Store.Admits.fields (hσ : σ.Admits V) {r : Nat} {fs : Fields} (h : σ.fields r = .ok fs) :
    ∀ f ∈ fs, V f.2 :=
  fun f hf ↦ hσ.stored r _ (Store.get?_of_fields h) f.2 (List.mem_map_of_mem hf)

theorem Store.Admits.cells (hσ : σ.Admits V) {r : Nat} {cells : Array Value}
    (h : σ.cells r = .ok cells) : ∀ v ∈ cells, V v :=
  fun v hv ↦ hσ.stored r _ (Store.get?_of_cells h) v (Array.mem_toList_iff.mpr hv)

theorem Fields.mem_of_get? {fs : Fields} {x : String} {v : Value} (h : fs.get? x = some v) :
    (x, v) ∈ fs := by
  induction fs with
  | nil => cases h
  | cons f fs ih =>
    obtain ⟨y, w⟩ := f
    rw [Fields.get?, List.lookup_cons] at h
    split at h
    · next heq =>
      cases h
      rw [beq_iff_eq.mp heq]
      exact List.mem_cons_self ..
    · exact List.mem_cons_of_mem _ (ih h)

/-- The slots of a frame after one has been set hold what they held, the value, and null. -/
theorem Frame.mem_store {fr : Frame} {slot : Nat} {v u : Value} (h : u ∈ (fr.store slot v).slots) :
    u ∈ fr.slots ∨ u = v ∨ u = .null := by
  rw [Frame.store] at h
  rcases Array.mem_or_eq_of_mem_setIfInBounds h with h | rfl
  · rcases Array.mem_append.mp h with h | h
    · exact .inl h
    · exact .inr (.inr (Array.eq_of_mem_replicate h))
  · exact .inr (.inl rfl)

/-- Whether an operation can change the store. -/
def Op.writesStore : Op → Bool
  | newRecord | newArray | setField _ | setItem => true
  | _ => false

open Exec in
/-- An invariant is kept by every operation, if it also bears that an operation that reads takes
something off the input, that one that writes changes the output, and that one that writes the store
changes it in any way. -/
theorem Op.maintains_exec {I : Machine → Prop} {op : Op} (hI : Machine.Invariant V I)
    (hpush : ∀ v, op = .push v → V v)
    (hinput : op = .read → ∀ {m rest}, I m → I { m with input := rest })
    (houtput : op = .write → ∀ {m out}, I m → I { m with output := out })
    (hstore : op.writesStore = true →
      (∀ r, V (.ref r)) ∧ ∀ {m σ}, I m → I { m with store := σ }) :
    Maintains I op.exec fun _ ↦ True := by
  -- That constants have the property `V` is known from any state.
  refine .of_state fun m₀ hm₀ ↦ ?_
  have hσ := hI.admits hm₀
  cases op with
  | push v => exact hI.push (hpush v rfl)
  | pop => exact hI.pop.discard
  | dup =>
    refine .get_bind fun m hm ↦ ?_
    cases hops : m.operands with
    | nil => exact .throw
    | cons v vs => exact hI.push (hI.operands hm v (hops ▸ List.mem_cons_self ..))
  | nop => exact .pure trivial
  | load slot =>
    refine hI.frame.bind fun fr hfr ↦ (Maintains.lift fun v hv ↦ ?_).bind fun v ↦ hI.push
    rw [Frame.load] at hv
    split at hv
    · cases hv
    · next hget =>
      cases hv
      exact hfr v (Array.mem_of_getElem? hget)
  | store slot =>
    refine hI.pop.bind fun v hv ↦ hI.updateFrame (fun fr hfr u hu ↦ ?_) fun _ ↦ rfl
    rcases Frame.mem_store hu with hu | rfl | rfl
    · exact hfr u hu
    · exact hv
    · exact hσ.null
  | arith o =>
    exact hI.pop.bind fun _ _ ↦ hI.pop.bind fun _ _ ↦
      (Maintains.lift fun v hv ↦ hσ.plain v (ArithOp.apply_ne_ref hv)).bind fun v ↦ hI.push
  | logic o => exact hI.popBool.bind fun _ _ ↦ hI.popBool.bind fun _ _ ↦ hI.push (hσ.bool _)
  | not => exact hI.popBool.bind fun _ _ ↦ hI.push (hσ.bool _)
  | order o =>
    exact hI.pop.bind fun _ _ ↦ hI.pop.bind fun _ _ ↦
      (Maintains.lift fun _ _ ↦ trivial).bind fun _ _ ↦ hI.push (hσ.bool _)
  | equal | unequal => exact hI.pop.bind fun _ _ ↦ hI.pop.bind fun _ _ ↦ hI.push (hσ.bool _)
  | jump target => exact hI.jumpTo
  | jumpUnless target =>
    refine hI.popBool.bind fun b _ ↦ ?_
    cases b with
    | true => exact .pure trivial
    | false => exact hI.jumpTo
  | call x => exact hI.call
  | ret => exact hI.ret
  | newRecord => exact hI.allocate (hstore rfl).1 (hstore rfl).2
  | setField x =>
    exact hI.pop.bind fun _ _ ↦ hI.popRef.bind fun _ _ ↦ .get_bind fun _ _ ↦
      (Maintains.fromStore fun _ _ ↦ trivial).discard.bind fun _ _ ↦
        .modify fun _ ↦ (hstore rfl).2
  | getField x =>
    refine hI.popRef.bind fun r _ ↦ .get_bind fun m hm ↦
      (Maintains.fromStore fun fs hfs ↦ (hI.admits hm).fields hfs).bind fun fs hfs ↦ ?_
    cases hx : fs.get? x with
    | none => exact .throw
    | some v => exact hI.push (hfs _ (Fields.mem_of_get? hx))
  | newArray =>
    exact hI.popInt.bind fun _ _ ↦ .check <| .get_bind fun _ _ ↦ .check <|
      (Maintains.fromStore fun _ _ ↦ trivial).bind fun _ _ ↦
        hI.allocate (hstore rfl).1 (hstore rfl).2
  | setItem =>
    exact hI.pop.bind fun _ _ ↦ hI.popInt.bind fun _ _ ↦ hI.popRef.bind fun _ _ ↦
      .get_bind fun _ _ ↦ (Maintains.fromStore fun _ _ ↦ trivial).bind fun _ _ ↦
        Maintains.itemIndex.bind fun _ _ ↦ .modify fun _ ↦ (hstore rfl).2
  | getItem =>
    exact hI.popInt.bind fun _ _ ↦ hI.popRef.bind fun r _ ↦ .get_bind fun m hm ↦
      (Maintains.fromStore fun cells hcells ↦ (hI.admits hm).cells hcells).bind fun cells hcells ↦
        (Maintains.item hcells).bind fun v ↦ hI.push
  | write => exact hI.pop.bind fun _ _ ↦ .modify fun _ ↦ houtput rfl
  | read => exact (hI.readLine (hinput rfl)).bind fun v ↦ hI.push
  | size =>
    refine hI.pop.bind fun v _ ↦ ?_
    cases v with
    | str s => exact hI.push (hσ.int _)
    | ref r =>
      exact .get_bind fun m _ ↦ (Maintains.fromStore fun _ _ ↦ trivial).bind fun _ _ ↦
        hI.push (hσ.int _)
    | null | int | double | bool => exact .rejected
  | element =>
    refine hI.popInt.bind fun _ _ ↦ hI.pop.bind fun v _ ↦ ?_
    cases v with
    | str s => exact Maintains.itemIndex.bind fun _ _ ↦ hI.push (hσ.str _)
    | ref r =>
      exact .get_bind fun m hm ↦
        (Maintains.fromStore fun cells hcells ↦ (hI.admits hm).cells hcells).bind
          fun cells hcells ↦ (Maintains.item hcells).bind fun v ↦ hI.push
    | null | int | double | bool => exact .rejected
  | convert c =>
    exact hI.pop.bind fun _ _ ↦
      (Maintains.lift fun v hv ↦ hσ.plain v (Conversion.apply_ne_ref hv)).bind fun v ↦ hI.push

/-! ## Operations that leave the store alone -/

/-- A part of an operation that keeps the store, and whose answer has the property `Q`. -/
def Exec.Safe {α : Type} (V : Value → Prop) (T : Template → Prop) (σ : Store) (l : Limits)
    (x : Exec α) (Q : α → Prop) : Prop :=
  Triple (Machine.Keeps V T σ l) (Machine.Keeps V T σ l) x fun a m ↦ m.Keeps V T σ l ∧ Q a

theorem Machine.invariant_keeps (hσ : σ.Admits V) : Invariant V (Machine.Keeps V T σ l) where
  admits hm := hm.store.symm ▸ hσ
  operands hm := hm.holds.operands
  slots hm := hm.holds.slots
  setOperands hm hvs := ⟨hm.store, hm.limits, { hm.holds with operands := hvs }⟩
  setFrames {m frs} hm hslots hcode := by
    refine ⟨hm.store, hm.limits, hm.holds.operands, hslots, fun fr hfr ↦ ?_, hm.holds.templates⟩
    rcases hcode fr hfr with ht | ⟨fr', hfr', ht⟩
    · exact hm.holds.templates _ ht
    · exact ht ▸ hm.holds.code fr' hfr'

/-- The other operations leave the store alone, and make no values but constants. -/
theorem Op.safe_exec {op : Op} (hop : op.writesStore = false) (hσ : σ.Admits V)
    (hpush : ∀ v, op = .push v → V v) : Exec.Safe V T σ l op.exec fun _ ↦ True := by
  refine Op.maintains_exec (Machine.invariant_keeps hσ) hpush ?_ ?_ ?_
  · exact fun _ _ _ hm ↦ ⟨hm.store, hm.limits, { hm.holds with }⟩
  · exact fun _ _ _ hm ↦ ⟨hm.store, hm.limits, { hm.holds with }⟩
  · exact fun hwrites ↦ nomatch hop.symm.trans hwrites

/-! ## Operations that change the store -/

/-- `op.Allocates l vs us o`: within the limits `l`, the operation takes the operands `us` off `vs`
and makes the object `o`. -/
inductive Op.Allocates (l : Limits) : Op → List Value → List Value → Obj → Prop where
  | record (vs : List Value) : Allocates l .newRecord vs vs (.record [])
  | array {n : Int32} (us : List Value) (size : ¬ n < 0) (cells : n.toInt.toNat ≤ l.cells)
      (memory : n.toInt.toNat ≤ l.memory) :
      Allocates l .newArray (.int n :: us) us (.array (Array.replicate n.toInt.toNat .null))

/-- What an operation that succeeds does on a machine with the store `σ` and the operands `vs`. -/
inductive Op.Effect (V : Value → Prop) (T : Template → Prop) (σ : Store) (l : Limits)
    (vs : List Value) : Op → Machine → Prop where
  /-- The store stays as it is. -/
  | keep {op : Op} {m : Machine} (writes : op.writesStore = false) (keeps : m.Keeps V T σ l) :
      Effect V T σ l vs op m
  /-- An object is added, and its reference goes on the stack. -/
  | allocate {op : Op} {o : Obj} {m : Machine} {us : List Value} (new : op.Allocates l vs us o)
      (store : m.store = σ.add o) (limits : m.limits = l)
      (operands : m.operands = .ref σ.next :: us) (holds : m.Holds V T us) :
      Effect V T σ l vs op m
  /-- A field of the record below the value on the stack is set. -/
  | setField {x : String} {v : Value} {r : Nat} {us : List Value} {fs : Fields} {m : Machine}
      (found : vs = v :: .ref r :: us) (record : σ.get? r = some (.record fs)) (value : V v)
      (store : m.store = σ.setField r x v) (limits : m.limits = l) (operands : m.operands = us)
      (holds : m.Holds V T us) : Effect V T σ l vs (.setField x) m
  /-- An item of the array below the value and the index on the stack is set. -/
  | setItem {v : Value} {n : Int32} {i r : Nat} {us : List Value} {cells : Array Value}
      {m : Machine} (found : vs = v :: .int n :: .ref r :: us) (index : n.toInt = i)
      (bound : i < cells.size) (array : σ.get? r = some (.array cells)) (value : V v)
      (store : m.store = σ.setCell r i v) (limits : m.limits = l) (operands : m.operands = us)
      (holds : m.Holds V T us) : Effect V T σ l vs .setItem m

namespace Exec

/-- A state that has the operands `vs`. -/
def Left (V : Value → Prop) (T : Template → Prop) (σ : Store) (l : Limits) (vs : List Value)
    (m : Machine) : Prop :=
  m.Keeps V T σ l ∧ m.operands = vs

variable {vs : List Value}

/-- Taking the operand on top. -/
theorem left_pop {β : Type} {f : Value → Exec β} {R : β → Machine → Prop}
    (h : ∀ v us, vs = v :: us → V v →
      Triple (Machine.Keeps V T σ l) (Left V T σ l us) (f v) R) :
    Triple (Machine.Keeps V T σ l) (Left V T σ l vs) (Exec.pop >>= f) R := by
  rintro m ⟨hm, rfl⟩
  rw [Exec.pop, bind_assoc, Machine.get_bind]
  cases hops : m.operands with
  | nil => exact hm
  | cons v us =>
    obtain ⟨hv, hus⟩ := List.forall_mem_cons.mp (hops ▸ hm.holds.operands)
    exact h v us hops hv _ ⟨⟨hm.store, hm.limits, { hm.holds with operands := hus }⟩, rfl⟩

theorem left_rejected {α β : Type} {op : Op} {wanted : Operands} {v : Value} {f : α → Exec β}
    {R : β → Machine → Prop} :
    Triple (Machine.Keeps V T σ l) (Left V T σ l vs) (Exec.rejected op wanted v >>= f) R := by
  cases v <;> exact fun m hm ↦ hm.1

theorem left_popInt {β : Type} {op : Op} {f : Int32 → Exec β} {R : β → Machine → Prop}
    (h : ∀ n us, vs = .int n :: us →
      Triple (Machine.Keeps V T σ l) (Left V T σ l us) (f n) R) :
    Triple (Machine.Keeps V T σ l) (Left V T σ l vs) (Exec.popInt op >>= f) R := by
  rw [Exec.popInt, bind_assoc]
  refine left_pop fun v us hvs _ ↦ ?_
  cases v with
  | int n => exact h n us hvs
  | null | double | bool | str | ref => exact left_rejected

theorem left_popRef {β : Type} {op : Op} {f : Nat → Exec β} {R : β → Machine → Prop}
    (h : ∀ r us, vs = .ref r :: us →
      Triple (Machine.Keeps V T σ l) (Left V T σ l us) (f r) R) :
    Triple (Machine.Keeps V T σ l) (Left V T σ l vs) (Exec.popRef op >>= f) R := by
  rw [Exec.popRef, bind_assoc]
  refine left_pop fun v us hvs _ ↦ ?_
  cases v with
  | ref r => exact h r us hvs
  | null | double | bool | str | int => exact left_rejected

/-- Passing on what the store says. -/
theorem left_fromStore {α β : Type} {x : Except StoreFault α} {f : α → Exec β}
    {R : β → Machine → Prop}
    (h : ∀ a, x = .ok a → Triple (Machine.Keeps V T σ l) (Left V T σ l vs) (f a) R) :
    Triple (Machine.Keeps V T σ l) (Left V T σ l vs) (Exec.fromStore x >>= f) R := by
  cases x with
  | ok a => exact h a rfl
  | error e => exact fun m hm ↦ hm.1

theorem left_allocate {op : Op} {o : Obj} {us : List Value} (ho : op.Allocates l vs us o) :
    Triple (Machine.Keeps V T σ l) (Left V T σ l us) (Exec.allocate o)
      fun _ m ↦ op.Effect V T σ l vs m := by
  rintro m ⟨hm, rfl⟩
  have hstore := hm.store
  subst hstore
  exact .allocate ho rfl hm.limits rfl ⟨hm.holds.operands, hm.holds.slots, hm.holds.code,
    hm.holds.templates⟩

theorem left_throw {β : Type} {e : Fault} {f : PUnit → Exec β} {R : β → Machine → Prop} :
    Triple (Machine.Keeps V T σ l) (Left V T σ l vs) (throw e >>= f) R :=
  fun _ hm ↦ hm.1

theorem effect_newArray : Triple (Machine.Keeps V T σ l) (Left V T σ l vs) Op.newArray.exec
    fun _ m ↦ Op.newArray.Effect V T σ l vs m := by
  refine left_popInt fun n us hvs ↦ ?_
  subst hvs
  by_cases hneg : n < 0
  · simp only [if_pos hneg]
    exact left_throw
  · simp only [if_neg hneg]
    refine triple_get_bind fun m hm ↦ ?_
    rw [hm.1.limits]
    by_cases hlarge : l.cells < n.toInt.toNat
    · simp only [if_pos hlarge]
      exact left_throw
    · simp only [if_neg hlarge]
      refine left_fromStore fun o ho ↦ left_allocate ?_
      rw [Store.newArray] at ho
      split at ho
      · cases ho
      · next hmemory =>
        cases ho
        exact .array us hneg (Nat.le_of_not_lt hlarge) (Nat.le_of_not_lt hmemory)

theorem left_itemIndex {β : Type} {op : Op} {n : Int32} {size : Nat} {f : Nat → Exec β}
    {R : β → Machine → Prop}
    (h : ∀ i : Nat, n.toInt = i → i < size →
      Triple (Machine.Keeps V T σ l) (Left V T σ l vs) (f i) R) :
    Triple (Machine.Keeps V T σ l) (Left V T σ l vs) (Exec.itemIndex op n size >>= f) R := by
  rw [Exec.itemIndex]
  cases hn : n.toInt with
  | negSucc _ => exact fun m hm ↦ hm.1
  | ofNat i =>
    by_cases hi : i < size
    · simp only [if_pos hi]
      exact h i hn hi
    · simp only [if_neg hi]
      exact fun m hm ↦ hm.1

theorem effect_setField {x : String} : Triple (Machine.Keeps V T σ l) (Left V T σ l vs)
    (Op.setField x).exec fun _ m ↦ (Op.setField x).Effect V T σ l vs m := by
  refine left_pop fun v us hvs hv ↦ left_popRef fun r us hus ↦ triple_get_bind fun m₀ hm₀ ↦ ?_
  rw [hm₀.1.store]
  cases hfs : σ.fields r with
  | error e => exact fun m hm ↦ hm.1
  | ok fs =>
    intro m hleft
    obtain ⟨hm, rfl⟩ := hleft
    have hstore := hm.store
    subst hstore
    exact .setField (by rw [hvs, hus]) (Store.get?_of_fields hfs) hv rfl hm.limits rfl
      ⟨hm.holds.operands, hm.holds.slots, hm.holds.code, hm.holds.templates⟩

theorem effect_setItem : Triple (Machine.Keeps V T σ l) (Left V T σ l vs) Op.setItem.exec
    fun _ m ↦ Op.setItem.Effect V T σ l vs m := by
  refine left_pop fun v us hvs hv ↦ left_popInt fun n us hn ↦ left_popRef fun r us hus ↦
    triple_get_bind fun m₀ hm₀ ↦ left_fromStore fun cells hcells ↦
      left_itemIndex fun i hi hbound ↦ ?_
  rw [hm₀.1.store] at hcells
  intro m hleft
  obtain ⟨hm, rfl⟩ := hleft
  have hstore := hm.store
  subst hstore
  exact .setItem (by rw [hvs, hn, hus]) hi hbound (Store.get?_of_cells hcells) hv rfl hm.limits rfl
    ⟨hm.holds.operands, hm.holds.slots, hm.holds.code, hm.holds.templates⟩

end Exec

/-- What an operation comes to on any machine. -/
theorem Op.triple_exec {op : Op} {vs : List Value} (hσ : σ.Admits V)
    (hpush : ∀ v, op = .push v → V v) :
    Exec.Triple (Machine.Keeps V T σ l) (Exec.Left V T σ l vs) op.exec
      fun _ m ↦ op.Effect V T σ l vs m := by
  cases hop : op.writesStore with
  | false =>
    have hsafe := Op.safe_exec (T := T) (l := l) hop hσ hpush
    exact fun m hm ↦ hsafe.mono (fun _ _ h ↦ .keep hop h.1) m hm.1
  | true =>
    cases op with
    | newRecord => exact Exec.left_allocate (.record vs)
    | newArray => exact Exec.effect_newArray
    | setField x => exact Exec.effect_setField
    | setItem => exact Exec.effect_setItem
    | _ => cases hop

theorem Op.effect_of_ok {op : Op} {m m' : Machine} (hm : m.Keeps V T σ l) (hσ : σ.Admits V)
    (hpush : ∀ v, op = .push v → V v) (h : op.exec m = .ok () m') :
    op.Effect V T σ l m.operands m' := by
  have htriple := Op.triple_exec hσ hpush m ⟨hm, rfl⟩
  rw [h] at htriple
  exact htriple

theorem Op.keeps_of_error {op : Op} {m m' : Machine} (hm : m.Keeps V T σ l) (hσ : σ.Admits V)
    (hpush : ∀ v, op = .push v → V v) {e : Fault} (h : op.exec m = .error e m') :
    m'.Keeps V T σ l := by
  have htriple := Op.triple_exec hσ hpush m ⟨hm, rfl⟩
  rw [h] at htriple
  exact htriple

end

end Pebble
