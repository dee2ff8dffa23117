import Mathlib.Data.Set.Lattice
import Mathlib.Order.Interval.Set.Defs
import Pebble.Proofs.Indexing

/-!
# Two maps and a counter of 32 bits

The store has its objects in one array, and a reference is a place in it. A `Heap` has records and
arrays in two maps, under ids of 32 bits that one counter hands out for both. It knows of no machine:
it is told which instructions are executed on which operands, and does by itself what they ask for
(`Op.onHeap`).

Fed with the instructions of a machine, from registrations, resets and runs of whatever code, a heap
comes to hold what the store holds (`Heap.Represents`). This is so as long as the counter does not
run over, that is with fewer than `2 ^ 32 - 1` allocations; the store, whose references are natural
numbers, goes on.

## The construction

What a history makes of a heap is one case of following a history with some state
(`Machine.follow`), and the list of the references that were handed out is another one. For both
the invariant relates the state to the store, so it is enough to look at one step.
-/

namespace Pebble

/-! ## Heaps -/

/-- Records and arrays, and the id that the next object of either kind gets. -/
structure Heap where
  records : Std.HashMap UInt32 Fields
  arrays : Std.HashMap UInt32 (Array Value)
  next : UInt32

namespace Heap

def empty : Heap := ⟨∅, ∅, 1⟩

/-- A record without fields, under the id `next`. -/
def addRecord (h : Heap) : Heap :=
  { h with records := h.records.insert h.next [], next := h.next + 1 }

/-- An array of nulls, under the id `next`. -/
def addArray (h : Heap) (size : Nat) : Heap :=
  { h with arrays := h.arrays.insert h.next (Array.replicate size .null), next := h.next + 1 }

/-- Sets a field, if there is such a record. -/
def setField (h : Heap) (r : UInt32) (x : String) (v : Value) : Heap :=
  match h.records[r]? with
  | none => h
  | some fs => { h with records := h.records.insert r (fs.set x v) }

/-- Sets an item, if there is such an array and it has that many. -/
def setItem (h : Heap) (r : UInt32) (i : Nat) (v : Value) : Heap :=
  match h.arrays[r]? with
  | none => h
  | some cells =>
    if i < cells.size then { h with arrays := h.arrays.insert r (cells.setIfInBounds i v) } else h

/-- The object under an id in one of the maps. -/
def get? (h : Heap) (r : UInt32) : Obj.Kind → Option Obj
  | .record => h.records[r]?.map .record
  | .array => h.arrays[r]?.map .array

/-- The ids in one of the maps. -/
def ids (h : Heap) : Obj.Kind → Set UInt32
  | .record => {r | r ∈ h.records}
  | .array => {r | r ∈ h.arrays}

/-- The heap holds what the store holds. -/
structure Represents (h : Heap) (σ : Store) : Prop where
  next : h.next.toNat = σ.next
  get? : ∀ r k o, h.get? r k = some o ↔ σ.get? r.toNat = some o ∧ o.kind = k

end Heap

/-- What executing an operation on the operands `vs` makes of a heap. If the operation cannot be
executed, the heap stays as it is. -/
def Op.onHeap (l : Limits) (h : Heap) : Op → List Value → Heap
  | .newRecord, _ => h.addRecord
  | .newArray, .int n :: _ =>
    if n < 0 ∨ l.cells < n.toInt.toNat ∨ l.memory < n.toInt.toNat then h
    else h.addArray n.toInt.toNat
  | .setField x, v :: .ref r :: _ => if r < UInt32.size then h.setField (.ofNat r) x v else h
  | .setItem, v :: .int n :: .ref r :: _ =>
    if r < UInt32.size ∧ 0 ≤ n.toInt then h.setItem (.ofNat r) n.toInt.toNat v else h
  | _, _ => h

/-- What the next step makes of a heap: its instruction is executed unless the steps are used up. -/
def Machine.onHeap (m : Machine) (h : Heap) : Heap :=
  match m.op?, m.exhausted? with
  | some op, none => op.onHeap m.limits h m.operands
  | _, _ => h

namespace Heap

variable {h h' : Heap} {σ : Store}

theorem mem_ids {r : UInt32} {k : Obj.Kind} : r ∈ h.ids k ↔ ∃ o, h.get? r k = some o := by
  cases k with
  | record =>
    exact Std.HashMap.mem_iff_isSome_getElem?.trans
      (Option.isSome_map.symm ▸ Option.isSome_iff_exists)
  | array =>
    exact Std.HashMap.mem_iff_isSome_getElem?.trans
      (Option.isSome_map.symm ▸ Option.isSome_iff_exists)

theorem get?_addRecord (h : Heap) (r : UInt32) (k : Obj.Kind) :
    h.addRecord.get? r k =
      if h.next = r ∧ k = .record then some (.record []) else h.get? r k := by
  cases k <;> by_cases hr : h.next = r <;> simp [get?, addRecord, hr, Std.HashMap.getElem?_insert]

theorem get?_addArray (h : Heap) (size : Nat) (r : UInt32) (k : Obj.Kind) :
    (h.addArray size).get? r k =
      if h.next = r ∧ k = .array then some (.array (Array.replicate size .null))
      else h.get? r k := by
  cases k <;> by_cases hr : h.next = r <;> simp [get?, addArray, hr, Std.HashMap.getElem?_insert]

theorem get?_setField {r : UInt32} {fs : Fields} (hr : h.records[r]? = some fs) (x : String)
    (v : Value) (r' : UInt32) (k : Obj.Kind) :
    (h.setField r x v).get? r' k =
      if r = r' ∧ k = .record then some (.record (fs.set x v)) else h.get? r' k := by
  rw [setField, hr]
  cases k <;> by_cases hr : r = r' <;> simp [get?, hr, Std.HashMap.getElem?_insert]

theorem get?_setItem {r : UInt32} {cells : Array Value} (hr : h.arrays[r]? = some cells) {i : Nat}
    (hi : i < cells.size) (v : Value) (r' : UInt32) (k : Obj.Kind) :
    (h.setItem r i v).get? r' k =
      if r = r' ∧ k = .array then some (.array (cells.setIfInBounds i v)) else h.get? r' k := by
  rw [setItem, hr]
  simp only [if_pos hi]
  cases k <;> by_cases hr : r = r' <;> simp [get?, hr, Std.HashMap.getElem?_insert]

namespace Represents

theorem empty : Heap.empty.Represents .empty := by
  refine ⟨rfl, fun r k o ↦ iff_of_false ?_ ?_⟩
  · cases k <;> simp [Heap.get?, Heap.empty]
  · rintro ⟨ho, -⟩
    have hlt := Store.lt_next_of_get? ho
    have hnext : Store.empty.next = 1 := rfl
    omega

/-- A new object, in the map of its kind. The counter must not run over. -/
theorem add (hrep : h.Represents σ) {o : Obj} (hroom : (σ.add o).next < 2 ^ 32)
    (hnext : h'.next = h.next + 1)
    (hget : ∀ r k, h'.get? r k = if h.next = r ∧ k = o.kind then some o else h.get? r k) :
    h'.Represents (σ.add o) := by
  refine ⟨?_, fun r k o' ↦ ?_⟩
  · rw [Store.next_add] at hroom ⊢
    rw [hnext, UInt32.toNat_add, hrep.next]
    exact Nat.mod_eq_of_lt hroom
  rw [hget]
  by_cases hr : h.next = r
  · -- In the other map there is nothing under the new id, since the store had no such object.
    have hfree : h.get? r k ≠ some o' := by
      intro ho'
      have hlt := (Store.lt_next_of_get? ((hrep.get? r k o').mp ho').1).2
      rw [← hr, hrep.next] at hlt
      exact Nat.lt_irrefl _ hlt
    rw [← hr, hrep.next, Store.get?_add_next, hr]
    by_cases hk : k = o.kind
    · rw [if_pos ⟨rfl, hk⟩]
      refine ⟨?_, And.left⟩
      rintro ⟨⟩
      exact ⟨rfl, hk.symm⟩
    · rw [if_neg (fun h ↦ hk h.2)]
      refine iff_of_false hfree ?_
      rintro ⟨⟨⟩, hk'⟩
      exact hk hk'.symm
  · rw [if_neg (fun h ↦ hr h.1), hrep.get?, Store.get?_add_of_ne]
    rw [← hrep.next]
    exact fun heq ↦ hr (UInt32.toNat_inj.mp heq.symm)

/-- A change to one object, which keeps its kind. -/
theorem update (hrep : h.Represents σ) {r : UInt32} {o : Obj} {f : Obj → Obj}
    (ho : σ.get? r.toNat = some o) (hkind : (f o).kind = o.kind) (hnext : h'.next = h.next)
    (hget : ∀ r' k, h'.get? r' k = if r = r' ∧ k = o.kind then some (f o) else h.get? r' k) :
    h'.Represents (σ.update r.toNat f) := by
  refine ⟨by rw [hnext, hrep.next, Store.next_update], fun r' k o' ↦ ?_⟩
  rw [hget]
  by_cases hr : r = r'
  · subst hr
    rw [Store.get?_update_self, ho, Option.map_some]
    by_cases hk : k = o.kind
    · rw [if_pos ⟨rfl, hk⟩]
      refine ⟨?_, And.left⟩
      rintro ⟨⟩
      exact ⟨rfl, hkind.trans hk.symm⟩
    · rw [if_neg (fun h ↦ hk h.2), hrep.get?, ho]
      refine iff_of_false ?_ ?_
      · rintro ⟨⟨⟩, hk'⟩
        exact hk hk'.symm
      · rintro ⟨⟨⟩, hk'⟩
        exact hk (hk'.symm.trans hkind)
  · rw [if_neg (fun h ↦ hr h.1), hrep.get?, Store.get?_update_of_ne]
    exact fun heq ↦ hr (UInt32.toNat_inj.mp heq.symm)

theorem record_iff (hrep : h.Represents σ) (r : UInt32) (fs : Fields) :
    h.records[r]? = some fs ↔ σ.get? r.toNat = some (.record fs) := by
  have hget := hrep.get? r .record (.record fs)
  rw [Heap.get?, Option.map_eq_some_iff] at hget
  simpa [Obj.kind] using hget

theorem array_iff (hrep : h.Represents σ) (r : UInt32) (cells : Array Value) :
    h.arrays[r]? = some cells ↔ σ.get? r.toNat = some (.array cells) := by
  have hget := hrep.get? r .array (.array cells)
  rw [Heap.get?, Option.map_eq_some_iff] at hget
  simpa [Obj.kind] using hget

theorem setField (hrep : h.Represents σ) {r : UInt32} {fs : Fields}
    (hr : σ.get? r.toNat = some (.record fs)) (x : String) (v : Value) :
    (h.setField r x v).Represents (σ.setField r.toNat x v) := by
  have hfs := (hrep.record_iff r fs).mpr hr
  refine hrep.update hr rfl ?_ (get?_setField hfs x v)
  rw [Heap.setField, hfs]

theorem setItem (hrep : h.Represents σ) {r : UInt32} {i : Nat} {cells : Array Value}
    (hr : σ.get? r.toNat = some (.array cells)) (hi : i < cells.size) (v : Value) :
    (h.setItem r i v).Represents (σ.setCell r.toNat i v) := by
  have hcells := (hrep.array_iff r cells).mpr hr
  refine hrep.update hr rfl ?_ (get?_setItem hcells hi v)
  rw [Heap.setItem, hcells]
  simp only [if_pos hi]

theorem ids_eq (hrep : h.Represents σ) (k : Obj.Kind) :
    h.ids k = Set.preimage UInt32.toNat (σ.ids k) := by
  ext r
  rw [mem_ids, Set.mem_preimage]
  exact exists_congr fun o ↦ hrep.get? r k o

theorem disjoint_ids (hrep : h.Represents σ) : Disjoint (h.ids .record) (h.ids .array) := by
  rw [hrep.ids_eq, hrep.ids_eq]
  exact σ.disjoint_ids.preimage _

theorem union_ids (hrep : h.Represents σ) :
    h.ids .record ∪ h.ids .array = {r | 1 ≤ r ∧ r < h.next} := by
  rw [hrep.ids_eq, hrep.ids_eq, ← Set.preimage_union, σ.union_ids]
  ext r
  show 1 ≤ r.toNat ∧ r.toNat < σ.next ↔ 1 ≤ r ∧ r < h.next
  rw [UInt32.le_iff_toNat_le, UInt32.lt_iff_toNat_lt, hrep.next]
  rfl

end Represents

end Heap

/-! ## One instruction -/

section
variable {h : Heap} {m : Machine}

theorem Op.onHeap_of_not_writesStore {op : Op} (hop : op.writesStore = false) (l : Limits)
    (vs : List Value) : op.onHeap l h vs = h := by
  cases op with
  | newRecord | newArray | setField | setItem => cases hop
  | _ => rfl

/-- An operation that changes the heap can be executed. -/
theorem Op.onHeap_eq_or_succeeds (hrep : h.Represents m.store) (op : Op) :
    op.onHeap m.limits h m.operands = h ∨ op.Succeeds m := by
  have hself : ∀ vs, m.operands = vs → m = m.withOperands vs := by
    rintro vs rfl
    rfl
  generalize hvs : m.operands = vs
  -- The cases are those of the definition: both branches of each test, and what is left alone.
  fun_cases Op.onHeap m.limits h op vs with
  | case1 =>
    rw [hself _ hvs]
    exact .inr ((Op.Does.newRecord.succeeds_iff vs).mpr ⟨_, _, rfl⟩)
  | case2 n us hbad => exact .inl rfl
  | case3 n us hgood =>
    rw [not_or, not_or] at hgood
    obtain ⟨hneg, hcells, hmemory⟩ := hgood
    rw [hself _ hvs]
    refine .inr (((Op.Does.newArray (.int n)).succeeds_iff us).mpr ?_)
    simp only [Act.newArray, Act.arraySize, Act.asInt, pure_bind, if_neg hneg, if_neg hcells,
      Store.newArray, if_neg hmemory]
    exact ⟨_, _, rfl⟩
  | case4 x v r us hr =>
    have hword : (UInt32.ofNat r).toNat = r := UInt32.toNat_ofNat_of_lt' hr
    rw [Heap.setField]
    cases hrecord : h.records[UInt32.ofNat r]? with
    | none => exact .inl rfl
    | some fs =>
      have hfields : m.world.store.fields r = .ok fs := by
        have hget := (hrep.record_iff _ fs).mp hrecord
        rw [hword] at hget
        show m.store.fields r = .ok fs
        rw [Store.fields, hget]
      rw [hself _ hvs]
      refine .inr (((Op.Does.setField x (.ref r) v).succeeds_iff us).mpr ?_)
      simp only [Act.setField, Act.asRef, Act.fields, pure_bind, bind_assoc, Machine.get_bind,
        hfields]
      exact ⟨_, _, rfl⟩
  | case5 => exact .inl rfl
  | case6 v n r us hr =>
    obtain ⟨hr, hn⟩ := hr
    have hword : (UInt32.ofNat r).toNat = r := UInt32.toNat_ofNat_of_lt' hr
    rw [Heap.setItem]
    cases harray : h.arrays[UInt32.ofNat r]? with
    | none => exact .inl rfl
    | some cells =>
      by_cases hi : n.toInt.toNat < cells.size
      · have hitems : (Value.ref r).items? m.store = some cells.size := by
          have hget := (hrep.array_iff _ cells).mp harray
          rw [hword] at hget
          rw [Value.items?, Store.cells, hget]
        rw [hself _ hvs]
        exact .inr ((Machine.setItem_succeeds_iff hitems n v).mpr ⟨hn, by omega⟩)
      · exact .inl (if_neg hi)
  | case7 => exact .inl rfl
  | case8 => exact .inl rfl

/-- What the heap does when an operation is executed is what happens to the store. -/
theorem Op.onHeap_represents (hrep : h.Represents m.store) (op : Op) :
    match op.exec m with
    | .ok _ m' => m'.store.next < 2 ^ 32 →
        (op.onHeap m.limits h m.operands).Represents m'.store
    | .error _ m' => m'.store = m.store ∧ op.onHeap m.limits h m.operands = h := by
  cases hexec : op.exec m with
  | error e m' =>
    have hkeeps := Op.keeps_of_error m.keeps_true m.store.admits_true (fun _ _ ↦ trivial) hexec
    refine ⟨hkeeps.store, ?_⟩
    rcases op.onHeap_eq_or_succeeds hrep with heq | ⟨m', hok⟩
    · exact heq
    · cases hexec.symm.trans hok
  | ok _ m' =>
    intro hroom
    cases Op.effect_of_ok m.keeps_true m.store.admits_true (fun _ _ ↦ trivial) hexec with
    | keep writes keeps =>
      rw [Op.onHeap_of_not_writesStore writes, keeps.store]
      exact hrep
    | @allocate _ o _ us new store =>
      rw [store] at hroom ⊢
      generalize hvs : m.operands = vs at new
      cases new with
      | record => exact hrep.add hroom rfl h.get?_addRecord
      | array us size cells memory =>
        rw [Op.onHeap, if_neg (not_or.mpr ⟨size, not_or.mpr ⟨cells.not_gt, memory.not_gt⟩⟩)]
        exact hrep.add hroom rfl (h.get?_addArray _)
    | @setField x v r us fs _ found record _ store =>
      rw [store, Store.setField, Store.next_update] at hroom
      have hr : r < UInt32.size := (Store.lt_next_of_get? record).2.trans hroom
      obtain ⟨r, rfl⟩ : ∃ r' : UInt32, r'.toNat = r := ⟨_, UInt32.toNat_ofNat_of_lt' hr⟩
      rw [store, found, Op.onHeap, if_pos hr, UInt32.ofNat_toNat]
      exact hrep.setField record x v
    | @setItem v n i r us cells _ found index bound array _ store =>
      rw [store, Store.setCell, Store.next_update] at hroom
      have hr : r < UInt32.size := (Store.lt_next_of_get? array).2.trans hroom
      obtain ⟨r, rfl⟩ : ∃ r' : UInt32, r'.toNat = r := ⟨_, UInt32.toNat_ofNat_of_lt' hr⟩
      have hi : 0 ≤ n.toInt ∧ n.toInt.toNat = i := by omega
      rw [store, found, Op.onHeap, if_pos ⟨hr, hi.1⟩, UInt32.ofNat_toNat, hi.2]
      exact hrep.setItem array bound v

end

/-! ## Histories -/

namespace Machine

section
variable {α : Type} (f : Machine → α → α)

/-- Follows a run: `f` sees the machine before each step. -/
def followRun : Nat → Machine → α → α
  | 0, _, a => a
  | n + 1, m, a =>
    match m.step with
    | (.running, m') => followRun n m' (f m a)
    | _ => f m a

def followEvent (m : Machine) (a : α) : Event → α
  | .run n =>
    match m.start with
    | (.running, m') => followRun f n m' a
    | _ => a
  | _ => a

/-- Follows what is done to a machine. -/
def follow : Machine → List Event → α → α
  | _, [], a => a
  | m, e :: events, a => follow (m.perform e) events (followEvent f m a e)

variable {f} {P : Store → α → Prop}
  (hf : ∀ (m : Machine) (a : α), P m.store a → P m.step.2.store (f m a))
include hf

theorem followRun_induction (n : Nat) {m : Machine} {a : α} (h : P m.store a) :
    P (m.runFor n).2.store (followRun f n m a) := by
  induction n generalizing m a with
  | zero => exact h
  | succ n ih =>
    have hstep := hf m a h
    rw [followRun]
    rcases hm : m.step with ⟨st, m'⟩
    rw [hm] at hstep
    cases st with
    | running =>
      rw [runFor_succ_of_running hm]
      exact ih hstep
    | finished | failed =>
      rw [runFor_succ_of_ended hm (by simp)]
      exact hstep

/-- What each step preserves is preserved by all that is done to a machine. -/
theorem follow_induction (events : List Event) {m : Machine} {a : α} (h : P m.store a) :
    P (m.performAll events).store (m.follow f events a) := by
  induction events generalizing m a with
  | nil => exact h
  | cons e events ih =>
    refine ih ?_
    have hsame : (m.perform e).store = m.store → P (m.perform e).store a := fun heq ↦ heq ▸ h
    cases e with
    | register t | trace on | reset =>
      rcases m.perform_cases _ with hstore | ⟨n, m', he, -⟩
      · exact hsame hstore
      · cases he
    | run n =>
      have hstore := m.start_eq.1
      rw [perform, followEvent]
      rcases hstart : m.start with ⟨st, m'⟩
      rw [hstart] at hstore
      cases st with
      | running => exact followRun_induction hf n (hstore ▸ h)
      | finished | failed => exact hstore ▸ h

end

end Machine

/-! ## What is handed out -/

/-- The operations that make objects. -/
def Op.allocates : Op → Bool
  | newRecord | newArray => true
  | _ => false

theorem Op.Allocates.allocates {op : Op} {l : Limits} {vs us : List Value} {o : Obj}
    (h : op.Allocates l vs us o) : op.allocates = true := by
  cases h <;> rfl

theorem Op.writesStore_of_allocates {op : Op} (h : op.allocates = true) :
    op.writesStore = true := by
  cases op with
  | newRecord | newArray => rfl
  | _ => cases h

namespace Machine

variable {m : Machine}

/-- The reference that the next step hands out. -/
def allocation? (m : Machine) : Option Nat :=
  match m.done?, m.step.2.operands with
  | some op, .ref r :: _ => if op.allocates then some r else none
  | _, _ => none

/-- The references that are handed out, in this order. -/
def allocations (m : Machine) (events : List Event) : List Nat :=
  m.follow (fun m ids ↦ ids ++ m.allocation?.toList) events []

/-- What a heap comes to hold. -/
def heapAfter (m : Machine) (events : List Event) : Heap :=
  m.follow onHeap events .empty

/-- An object that is made gets the next reference. -/
theorem step_allocates {op : Op} (hdone : m.done? = some op) (hop : op.allocates = true) :
    ∃ us o, op.Allocates m.limits m.operands us o ∧
      m.step.2.operands = .ref m.store.next :: us ∧ m.step.2.store = m.store.add o := by
  rcases m.step_effect_true with ⟨hnone, -⟩ | ⟨op', hdone', -, heffect, -⟩
  · cases hnone.symm.trans hdone
  · obtain rfl : op' = op := Option.some.inj (hdone'.symm.trans hdone)
    cases heffect with
    | keep writes => cases (Op.writesStore_of_allocates hop).symm.trans writes
    | allocate new store _ operands => exact ⟨_, _, new, operands, store⟩
    | setField | setItem => cases hop

/-- A step hands out the next reference, or none. -/
theorem step_next (m : Machine) :
    m.allocation? = some m.store.next ∧ m.step.2.store.next = m.store.next + 1 ∨
      m.allocation? = none ∧ m.step.2.store.next = m.store.next := by
  rcases m.step_effect_true with ⟨hdone, hkeeps⟩ | ⟨op, hdone, -, heffect, -⟩
  · refine .inr ⟨?_, by rw [hkeeps.store]⟩
    rw [allocation?, hdone]
  · by_cases hop : op.allocates = true
    · obtain ⟨us, o, -, hoperands, hstore⟩ := step_allocates hdone hop
      refine .inl ⟨?_, by rw [hstore, Store.next_add]⟩
      rw [allocation?, hdone, hoperands]
      exact if_pos hop
    · refine .inr ⟨?_, ?_⟩
      · rw [allocation?, hdone]
        split
        · next hsame _ =>
          cases hsame
          exact if_neg hop
        · rfl
      · cases heffect with
        | keep _ keeps => rw [keeps.store]
        | allocate new => exact absurd new.allocates hop
        | setField _ _ _ store => rw [store, Store.setField, Store.next_update]
        | setItem _ _ _ _ _ store => rw [store, Store.setCell, Store.next_update]

/-- References are handed out one after the other. -/
theorem allocations_fresh (limits : Limits) (input : List UInt8) (events : List Event) :
    (fresh limits input).allocations events =
      List.range' 1 (((fresh limits input).performAll events).store.next - 1) := by
  refine follow_induction (P := fun σ ids ↦ ids = List.range' 1 (σ.next - 1)) ?_ events rfl
  intro m ids hids
  have hpos : m.store.next = m.store.next - 1 + 1 := rfl
  rcases m.step_next with ⟨halloc, hnext⟩ | ⟨halloc, hnext⟩
  · rw [halloc, hnext, hids, Nat.add_sub_cancel, hpos, List.range'_1_concat, Nat.add_comm 1,
      ← hpos]
    rfl
  · rw [halloc, hnext, hids]
    exact List.append_nil _

/-- What the heap does in a step is what the step does to the store. -/
theorem onHeap_represents {h : Heap} (hrep : h.Represents m.store)
    (hroom : m.step.2.store.next < 2 ^ 32) : (m.onHeap h).Represents m.step.2.store := by
  rw [onHeap, op?]
  cases hsite : m.site? with
  | none =>
    rw [step_of_no_site hsite]
    exact hrep
  | some site =>
    obtain ⟨hstore, hlimits, hoperands⟩ := m.begun_same site
    have hop := Op.onHeap_represents (hstore.symm ▸ hrep) site.instr.op
    rw [hlimits, hoperands] at hop
    rw [step_of_site hsite] at hroom ⊢
    cases hleft : m.exhausted? with
    | some limit =>
      rw [hstore]
      exact hrep
    | none =>
      simp only [hleft, Option.map_some] at hroom ⊢
      cases hexec : site.instr.op.exec (m.begun site) with
      | error e m' =>
        simp only [hexec] at hop ⊢
        rw [hop.1, hop.2, hstore]
        exact hrep
      | ok _ m' =>
        simp only [hexec] at hop hroom ⊢
        split
        · next hmany => exact hop (by simpa only [if_pos hmany] using hroom)
        · next hfew => exact hop (by simpa only [if_neg hfew] using hroom)

/-- As long as the counter does not run over, the heap holds what the store holds. -/
theorem represents_heapAfter (limits : Limits) (input : List UInt8) (events : List Event)
    (hroom : ((fresh limits input).performAll events).store.next < 2 ^ 32) :
    ((fresh limits input).heapAfter events).Represents
      ((fresh limits input).performAll events).store := by
  refine follow_induction (P := fun σ (h : Heap) ↦ σ.next < 2 ^ 32 → h.Represents σ) ?_ events
    (fun _ ↦ Heap.Represents.empty) hroom
  intro m h hrep hroom
  refine onHeap_represents (hrep ?_) hroom
  rcases m.step_next with ⟨-, hnext⟩ | ⟨-, hnext⟩ <;> omega

/-- **The store over the life of a machine.** Let a machine have gone through any events.
* As long as fewer than `2 ^ 32 - 1` objects have been made, two maps and a counter of 32 bits hold
  what the store holds. The ids of records and those of arrays are disjoint, and together they are
  those from 1 up to the counter.
* The references that have been handed out are 1, 2, 3, …, in this order.
* Whatever events follow, all objects stay, with the length of arrays and the fields of records.
* In a run, an instruction that makes an object puts it behind all others and pushes its reference,
  which is the next one.
* In a run, a step changes no object but the one that its instruction assigns to, and only in the
  field or item that it names; a step that does not succeed changes none.
* If no template has been registered that pushes a reference, then every reference on the stack, in
  a slot or in an object is one of an object. -/
theorem store_history (limits : Limits) (input : List UInt8) (events : List Event) :
    let m := (fresh limits input).performAll events
    let h := (fresh limits input).heapAfter events
    (((fresh limits input).allocations events).length < 2 ^ 32 - 1 →
      h.Represents m.store ∧ Disjoint (h.ids .record) (h.ids .array) ∧
        h.ids .record ∪ h.ids .array = {r | 1 ≤ r ∧ r < h.next}) ∧
    (fresh limits input).allocations events = List.range' 1 (m.store.next - 1) ∧
    (∀ later, m.store.Extends (m.performAll later).store) ∧
    (∀ n m₁ m₂, m.start = (.running, m₁) → m₁.runFor n = (.running, m₂) →
      (∀ op, m₂.done? = some op → op.allocates = true →
        ∃ us o, op.Allocates m₂.limits m₂.operands us o ∧
          m₂.step.2.operands = .ref m₂.store.next :: us ∧ m₂.step.2.store = m₂.store.add o) ∧
      ∀ r o, m₂.store.get? r = some o → m₂.step.2.store.get? r = some o ∨
        m₂.step.1 = .running ∧ ∃ o', m₂.step.2.store.get? r = some o' ∧ m₂.Writes r o o') ∧
    ((∀ t, .register t ∈ events → t.verify = .ok () → t.PushesNoRef) →
      (∀ v ∈ m.operands, v.Allocated m.store) ∧
      (∀ fr ∈ m.frames, ∀ v ∈ fr.slots, v.Allocated m.store) ∧
      ∀ r o, m.store.get? r = some o → ∀ v ∈ o.values, v.Allocated m.store) := by
  intro m h
  have hallocations := allocations_fresh limits input events
  refine ⟨fun hfew ↦ ?_, hallocations, m.performAll_extends, ?_, fun hpush ↦ ?_⟩
  · rw [hallocations, List.length_range'] at hfew
    have hrep : h.Represents m.store := represents_heapAfter limits input events (by omega)
    exact ⟨hrep, hrep.disjoint_ids, hrep.union_ids⟩
  · intro n m₁ m₂ hstart hrun
    have hops := m.start_eq.2.2.1
    rw [hstart] at hops
    have hcount : m₁.operands.length ≤ m₁.limits.operands := by
      rw [hops]
      exact Nat.zero_le _
    exact ⟨fun op ↦ step_allocates, fun r o ↦ step_writes (operands_of_running hcount hrun)⟩
  · have hclosed := (closed_fresh limits input).performAll hpush
    exact ⟨hclosed.holds.operands, hclosed.holds.slots, hclosed.store.stored⟩

/-- Code that makes a record with one field, and an array. -/
def building : Template :=
  ⟨"main", #[⟨.newRecord, none⟩, ⟨.dup, none⟩, ⟨.push (.int 7), none⟩, ⟨.setField "x", none⟩,
    ⟨.push (.int 2), none⟩, ⟨.newArray, none⟩, ⟨.pop, none⟩, ⟨.pop, none⟩]⟩

/-- The code is run twice. The second run makes a record under the reference 3, whose field is set
in the fourth step. The record that the first run has made stays as it is. -/
theorem store_history_building :
    ((fresh .standard []).heapAfter [.register building, .run 9]).Represents
        ⟨#[.record [("x", .int 7)], .array #[.null, .null]]⟩ ∧
      (fresh .standard []).allocations [.register building, .run 9, .run 9] = [1, 2, 3, 4] ∧
      ∃ m₁ m₂, ((fresh .standard []).performAll [.register building, .run 9]).start =
          (.running, m₁) ∧ m₁.runFor 3 = (.running, m₂) ∧
        (∃ us, m₁.step.2.operands = .ref 3 :: us) ∧
        (∃ o, m₂.step.2.store.get? 3 = some o ∧ m₂.Writes 3 (.record []) o) ∧
        m₂.step.2.store.get? 1 = some (.record [("x", .int 7)]) := by
  obtain ⟨hheap, hids, -, hsteps, -⟩ := store_history .standard [] [.register building, .run 9]
  obtain ⟨-, hids', -⟩ := store_history .standard [] [.register building, .run 9, .run 9]
  refine ⟨(hheap ?_).1, hids', _, _, rfl, rfl, ?_, ?_, ?_⟩
  · rw [hids]
    decide
  · obtain ⟨us, o, -, hoperands, -⟩ := (hsteps 0 _ _ rfl rfl).1 .newRecord rfl rfl
    exact ⟨us, hoperands⟩
  · rcases (hsteps 3 _ _ rfl rfl).2 3 (.record []) rfl with hsame | ⟨-, hwrites⟩
    · cases hsame
    · exact hwrites
  · rfl

end Machine

end Pebble
