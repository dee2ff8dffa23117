import Pebble.Proofs.Acting
import Pebble.Proofs.Effects
import Pebble.Proofs.Renaming

/-!
# Grafting a machine onto another

What operations do to operands, store, input and output depends on nothing else, and not on the
objects and the output that were there before. So these parts of a machine can be put onto another
one, behind the older objects and the older output, and an operation does there what it did at
home, up to the renaming of references.

## The construction

`Machine.graft` puts a machine onto a host. `Grafts` relates two actions of which the second does on
the host what the first does at home. It holds of the small actions that operations are made of, and
of one action after the other, so that it holds of an operation by the steps it is written in.

With a host that differs from the machine in its objects only, the same fact says what an operation
leaves alone (`Op.exec_isAction`). Together with what the other operations do to the frames, this
gives all that an operation can come to (`Op.comesTo`), but for what it does to the store.
-/

namespace Pebble

namespace Machine

/-- How many objects there are. -/
def offset (m : Machine) : Nat := m.store.objects.size

/-- The host with the operands, store, input and output of `m`, of which the store and the output
come behind its own. Frames, templates, limits and counts are the host's. -/
def graft (host m : Machine) : Machine :=
  { host with
    operands := m.operands.map (·.shift host.offset)
    store := host.store.after m.store
    input := m.input
    output := host.output ++ m.output }

end Machine

/-! ## Faults -/

/-- The faults of values that cannot be computed with. -/
def Fault.isOfValues : Fault → Bool
  | null _ | mismatch _ _ _ | divisionByZero | badConversion _ _ => true
  | _ => false

/-- The faults that come of operands, the store and the input alone. -/
def Fault.isLocal : Fault → Bool
  | badJump _ | noMain | unresolvedCall _ | noFrame | uninitializedSlot _ | callDepth _
  | stackOverflow _ | stepLimit _ => false
  | _ => true

theorem Fault.isLocal_of_isOfValues {e : Fault} (h : e.isOfValues = true) (d : Nat) :
    e.isLocal = true ∧ e.shift d = e := by
  cases e <;> first | exact ⟨rfl, rfl⟩ | cases h

theorem ArithOp.isOfValues_of_error {o : ArithOp} {a b : Value} {e : Fault}
    (h : o.apply a b = .error e) : e.isOfValues = true := by
  have hints : ∀ m n : Int32, o.onInts m n = .error e → e.isOfValues = true := by
    intro m n h
    cases o with
    | div =>
      rw [ArithOp.onInts] at h
      split at h
      · cases h; rfl
      · cases h
    | add | sub | mul => cases h
  have hdoubles : ∀ x y : Float, o.onDoubles x y = .error e → e.isOfValues = true := by
    intro x y h
    cases o with
    | div =>
      rw [ArithOp.onDoubles] at h
      split at h
      · cases h; rfl
      · cases h
    | add | sub | mul => cases h
  unfold ArithOp.apply at h
  split at h
  · cases h; rfl
  · split at h
    · exact hints _ _ h
    · exact hdoubles _ _ h
    · cases h
    · cases h; rfl

theorem OrderOp.isOfValues_of_error {o : OrderOp} {a b : Value} {e : Fault}
    (h : o.apply a b = .error e) : e.isOfValues = true := by
  unfold OrderOp.apply at h
  split at h
  · cases h; rfl
  · split at h
    all_goals cases h
    rfl

theorem Conversion.isOfValues_of_error {c : Conversion} {v : Value} {e : Fault}
    (h : c.apply v = .error e) : e.isOfValues = true := by
  have hread : ∀ {s : String} {k : Value.Kind} {x : Option Value},
      Conversion.read s k x = .error e → e.isOfValues = true := by
    intro s k x h
    cases x with
    | none => cases h; rfl
    | some v => cases h
  unfold Conversion.apply at h
  split at h
  all_goals first | exact hread h | (cases h; done) | (cases h; rfl)

/-! ## Actions -/

/-- What an action has come to on the host, if it has come to the first outcome at home. -/
inductive Grafted (host : Machine) {α β : Type} (f : α → β) :
    EStateM.Result Fault Machine α → EStateM.Result Fault Machine β → Prop where
  | ok (a : α) (m : Machine) : Grafted host f (.ok a m) (.ok (f a) (host.graft m))
  | error {e : Fault} (he : e.isLocal = true) (m : Machine) :
      Grafted host f (.error e m) (.error (e.shift host.offset) (host.graft m))

section
variable {host m : Machine} {α β : Type} {f : α → β} {r : EStateM.Result Fault Machine β}

theorem Grafted.of_ok {a : α} (h : Grafted host f (.ok a m) r) : r = .ok (f a) (host.graft m) := by
  cases h
  rfl

theorem Grafted.of_error {e : Fault} (h : Grafted host f (.error e m) r) :
    r = .error (e.shift host.offset) (host.graft m) := by
  cases h
  rfl

end

/-- The second action does on the host what the first does at home, with the answer `f` renames. -/
def Grafts (host : Machine) {α β : Type} (f : α → β) (x : Exec α) (y : Exec β) : Prop :=
  ∀ m, Grafted host f (x m) (y (host.graft m))

namespace Grafts

variable {host : Machine} {α β γ δ : Type} {f : α → β} {g : γ → δ}

theorem pure (a : α) : Grafts host f (Pure.pure a) (Pure.pure (f a)) := fun m ↦ .ok a m

theorem throw {e : Fault} (he : e.isLocal = true) :
    Grafts host f (throw e : Exec α) (throw (e.shift host.offset)) := fun m ↦ .error he m

/-- One action after the other. -/
theorem bind {x : Exec α} {y : Exec β} {k : α → Exec γ} {l : β → Exec δ} (hx : Grafts host f x y)
    (hk : ∀ a, Grafts host g (k a) (l (f a))) : Grafts host g (x >>= k) (y >>= l) := by
  intro m
  have hxy := hx m
  simp only [Bind.bind, EStateM.bind]
  generalize x m = r, y (host.graft m) = r' at hxy
  cases hxy with
  | ok a m => exact hk a m
  | error he m => exact .error he m

theorem discard {x : Exec α} {y : Exec β} (hx : Grafts host f x y) :
    Grafts host id (discard x) (discard y) :=
  hx.bind fun _ ↦ .pure ()

/-- A computation that gives no reference and does not look at any. -/
theorem lift {x : Except Fault α} {f : α → α} (hok : ∀ a, x = .ok a → f a = a)
    (herror : ∀ e, x = .error e → e.isOfValues = true) :
    Grafts host f (Exec.lift x) (Exec.lift x) := by
  intro m
  cases x with
  | ok a =>
    have hgrafted : Grafted host f (.ok a m) (.ok (f a) (host.graft m)) := .ok a m
    rw [hok a rfl] at hgrafted
    exact hgrafted
  | error e =>
    obtain ⟨hlocal, hshift⟩ := Fault.isLocal_of_isOfValues (herror e rfl) host.offset
    have hgrafted : Grafted host f (.error e m) (.error (e.shift host.offset) (host.graft m)) :=
      .error hlocal m
    rw [hshift] at hgrafted
    exact hgrafted

theorem fromStore (x : Except StoreFault α) :
    Grafts host f (Exec.fromStore x) (Exec.fromStore (renamed host.offset f x)) := by
  cases x with
  | ok a => exact .pure a
  | error e => exact .throw (e := .store e) rfl

/-- An action that first looks at the fields of a record. -/
theorem fields (r : Nat) {k l : Fields → Exec Unit}
    (hk : ∀ fs, Grafts host id (k fs) (l (fs.shift host.offset))) :
    Grafts host id (get >>= fun m ↦ Exec.fromStore (m.store.fields r) >>= k)
      (get >>= fun m ↦ Exec.fromStore (m.store.fields (shiftRef host.offset r)) >>= l) := by
  intro m
  have hfields : (host.graft m).store.fields (shiftRef host.offset r) = _ :=
    Store.fields_after host.store m.store r
  rw [Machine.get_bind, Machine.get_bind, hfields]
  exact (fromStore (m.store.fields r)).bind hk m

/-- An action that first looks at the cells of an array. -/
theorem cells (r : Nat) {k l : Array Value → Exec Unit}
    (hk : ∀ vs, Grafts host id (k vs) (l (vs.map (·.shift host.offset)))) :
    Grafts host id (get >>= fun m ↦ Exec.fromStore (m.store.cells r) >>= k)
      (get >>= fun m ↦ Exec.fromStore (m.store.cells (shiftRef host.offset r)) >>= l) := by
  intro m
  have hcells : (host.graft m).store.cells (shiftRef host.offset r) = _ :=
    Store.cells_after host.store m.store r
  rw [Machine.get_bind, Machine.get_bind, hcells]
  exact (fromStore (m.store.cells r)).bind hk m

theorem changeStore (c c' : Store → Store)
    (hc : ∀ σ, c' (host.store.after σ) = host.store.after (c σ)) :
    Grafts host id (modify fun m ↦ { m with store := c m.store } : Exec Unit)
      (modify fun m ↦ { m with store := c' m.store }) := by
  intro m
  have hstore : { host.graft m with store := c' (host.graft m).store } =
      host.graft { m with store := c m.store } :=
    congrArg (fun σ ↦ { host.graft m with store := σ }) (hc m.store)
  show Grafted host id _ (.ok () { host.graft m with store := c' (host.graft m).store })
  rw [hstore]
  exact .ok () _

theorem push (v : Value) : Grafts host id (Exec.push v) (Exec.push (v.shift host.offset)) :=
  fun _ ↦ .ok () _

theorem pop : Grafts host (·.shift host.offset) Exec.pop Exec.pop := by
  intro m
  have hops : (host.graft m).operands = m.operands.map (·.shift host.offset) := rfl
  rw [Exec.pop, Machine.get_bind, Machine.get_bind, hops]
  cases m.operands with
  | nil => exact .error (e := .stackUnderflow) rfl m
  | cons v vs => exact .ok v { m with operands := vs }

theorem rejected (op : Op) (wanted : Operands) (v : Value) :
    Grafts host f (Exec.rejected op wanted v : Exec α)
      (Exec.rejected op wanted (v.shift host.offset)) := by
  cases v with
  | null => exact .throw (e := .null op) rfl
  | int | double | bool | str | ref => exact .throw (e := .mismatch op wanted _) rfl

theorem popInt (op : Op) : Grafts host id (Exec.popInt op) (Exec.popInt op) := by
  refine pop.bind fun v ↦ ?_
  cases v with
  | int n => exact .pure n
  | null | double | bool | str | ref => exact rejected _ _ _

theorem popBool (op : Op) : Grafts host id (Exec.popBool op) (Exec.popBool op) := by
  refine pop.bind fun v ↦ ?_
  cases v with
  | bool b => exact .pure b
  | null | int | double | str | ref => exact rejected _ _ _

theorem popRef (op : Op) :
    Grafts host (shiftRef host.offset) (Exec.popRef op) (Exec.popRef op) := by
  refine pop.bind fun v ↦ ?_
  cases v with
  | ref r => exact .pure r
  | null | int | double | bool | str => exact rejected _ _ _

theorem allocate (o : Obj) :
    Grafts host id (Exec.allocate o) (Exec.allocate (o.shift host.offset)) := by
  intro m
  have hnext : (host.graft m).store.next = shiftRef host.offset m.store.next :=
    Store.next_after host.store m.store
  have hadd : Grafts host id (modify fun m ↦ { m with store := m.store.add o } : Exec Unit)
      (modify fun m ↦ { m with store := m.store.add (o.shift host.offset) }) :=
    changeStore (·.add o) (·.add (o.shift host.offset)) fun σ ↦ Store.add_after host.store σ o
  have hpush : Grafts host id (Exec.push (.ref m.store.next))
      (Exec.push (.ref (shiftRef host.offset m.store.next))) := push _
  rw [Exec.allocate, Exec.allocate, Machine.get_bind, Machine.get_bind, hnext]
  exact hadd.bind (fun _ ↦ hpush) m

theorem itemIndex (op : Op) (index : Int32) (size : Nat) :
    Grafts host id (Exec.itemIndex op index size) (Exec.itemIndex op index size) := by
  rw [Exec.itemIndex]
  cases index.toInt with
  | negSucc _ => exact .throw (e := .indexOutOfBounds ..) rfl
  | ofNat i =>
    by_cases hi : i < size
    · simp only [if_pos hi]
      exact .pure i
    · simp only [if_neg hi]
      exact .throw (e := .indexOutOfBounds ..) rfl

theorem item (op : Op) (cells : Array Value) (index : Int32) :
    Grafts host (·.shift host.offset) (Exec.item op cells index)
      (Exec.item op (cells.map (·.shift host.offset)) index) := by
  rw [Exec.item, Exec.item, Array.size_map]
  refine (itemIndex op index cells.size).bind fun i ↦ ?_
  have hget : (cells.map (·.shift host.offset)).getD i .null =
      (cells.getD i .null).shift host.offset := by
    rw [Array.getD_eq_getD_getElem?, Array.getD_eq_getD_getElem?, Array.getElem?_map]
    cases cells[i]? with
    | none => rfl
    | some v => rfl
  rw [id, hget]
  exact .pure _

theorem write (s : String) : Grafts host id (Exec.write s) (Exec.write s) := by
  intro m
  have hout : { host.graft m with output := (host.graft m).output ++ s } =
      host.graft { m with output := m.output ++ s } :=
    congrArg (fun out ↦ { host.graft m with output := out }) (String.append_assoc ..)
  show Grafted host id _ (.ok () { host.graft m with output := (host.graft m).output ++ s })
  rw [hout]
  exact .ok () _

theorem readLine : Grafts host (·.shift host.offset) Exec.readLine Exec.readLine := by
  intro m
  have hinput : (host.graft m).input = m.input := rfl
  rw [Exec.readLine, Machine.get_bind, Machine.get_bind, hinput]
  rcases Exec.splitLine m.input with ⟨line, rest⟩
  cases line with
  | nil => exact .ok Value.null m
  | cons b line =>
    simp only [modify, modifyGet, MonadStateOf.modifyGet]
    cases String.fromUTF8? (b :: line).toByteArray with
    | none => exact .error (e := .notText) rfl { m with input := rest }
    | some s => exact .ok (Value.str (Exec.chomp s)) { m with input := rest }

end Grafts

/-! ## Operations -/

open Grafts in
/-- An operation that works on operands alone does on the host what it does at home, unless it
writes a reference, makes one up, or asks for the limit on arrays. -/
theorem Op.grafts {host : Machine} {op : Op} (hop : op.isAction = true) (hwrite : op ≠ .write)
    (hlimit : op ≠ .newArray) (hpush : ∀ v, op = .push v → v.shift host.offset = v) :
    Grafts host id op.exec op.exec := by
  -- Each operation is gone along step by step. Where values are computed, it makes no difference
  -- whether references are renamed before or after.
  cases op with
  | push v =>
    have hgrafts : Grafts host id (Exec.push v) _ := Grafts.push v
    rw [hpush v rfl] at hgrafts
    exact hgrafts
  | pop => exact Grafts.pop.discard
  | dup =>
    intro m
    have hops : (host.graft m).operands = m.operands.map (·.shift host.offset) := rfl
    rw [Op.exec, Machine.get_bind, Machine.get_bind, hops]
    cases m.operands with
    | nil => exact .error (e := .stackUnderflow) rfl m
    | cons v _ => exact Grafts.push v m
  | nop => exact .pure ()
  | arith o =>
    refine Grafts.pop.bind fun rhs ↦ Grafts.pop.bind fun lhs ↦ ?_
    simp only [ArithOp.apply_shift]
    refine (Grafts.lift (f := (·.shift host.offset)) (fun v hv ↦ ?_) ?_).bind fun v ↦ .push v
    · exact Value.shift_of_ne_ref (ArithOp.apply_ne_ref hv) _
    · exact fun e he ↦ ArithOp.isOfValues_of_error he
  | logic o => exact (popBool _).bind fun rhs ↦ (popBool _).bind fun lhs ↦ .push (.bool _)
  | not => exact (popBool _).bind fun b ↦ .push (.bool _)
  | order o =>
    refine Grafts.pop.bind fun rhs ↦ Grafts.pop.bind fun lhs ↦ ?_
    simp only [OrderOp.apply_shift]
    refine (Grafts.lift (f := id) (fun _ _ ↦ rfl) ?_).bind fun b ↦ .push (.bool _)
    exact fun e he ↦ OrderOp.isOfValues_of_error he
  | equal | unequal =>
    refine Grafts.pop.bind fun rhs ↦ Grafts.pop.bind fun lhs ↦ ?_
    simp only [Value.equal_shift]
    exact .push (.bool _)
  | newRecord => exact .allocate (.record [])
  | setField x =>
    refine Grafts.pop.bind fun v ↦ (popRef _).bind fun r m ↦ ?_
    have hfields : (host.graft m).store.fields (shiftRef host.offset r) = _ :=
      Store.fields_after host.store m.store r
    rw [Machine.get_bind, Machine.get_bind, hfields]
    refine (Grafts.fromStore _).discard.bind (fun _ ↦ ?_) m
    exact changeStore (·.setField r x v)
      (·.setField (shiftRef host.offset r) x (v.shift host.offset))
      fun σ ↦ Store.setField_after host.store σ r x v
  | getField x =>
    refine (popRef _).bind fun r ↦ .fields r fun fs ↦ ?_
    rw [Fields.get?_shift]
    cases fs.get? x with
    | none => exact .throw (e := .missingField x) rfl
    | some v => exact .push v
  | newArray => exact absurd rfl hlimit
  | setItem =>
    refine Grafts.pop.bind fun v ↦ (popInt _).bind fun index ↦ (popRef _).bind fun r ↦
      .cells r fun vs ↦ ?_
    rw [Array.size_map]
    refine (itemIndex _ _ _).bind fun i ↦ ?_
    exact changeStore (·.setCell r i v)
      (·.setCell (shiftRef host.offset r) i (v.shift host.offset))
      fun σ ↦ Store.setCell_after host.store σ r i v
  | getItem =>
    exact (popInt _).bind fun index ↦ (popRef _).bind fun r ↦ .cells r fun vs ↦
      (item _ vs _).bind fun v ↦ .push v
  | write => exact absurd rfl hwrite
  | read => exact readLine.bind fun v ↦ .push v
  | size =>
    refine Grafts.pop.bind fun v ↦ ?_
    cases v with
    | str s => exact .push (.int _)
    | ref r =>
      refine .cells r fun vs ↦ ?_
      rw [Array.size_map]
      exact .push (.int _)
    | null | int | double | bool => exact .rejected _ _ _
  | element =>
    refine (popInt _).bind fun index ↦ Grafts.pop.bind fun v ↦ ?_
    cases v with
    | str s => exact (itemIndex _ _ _).bind fun i ↦ .push (.str _)
    | ref r =>
      exact .cells r fun vs ↦ (item _ vs _).bind fun v ↦ .push v
    | null | int | double | bool => exact .rejected _ _ _
  | convert c =>
    refine Grafts.pop.bind fun v ↦ ?_
    simp only [Conversion.apply_shift]
    refine (Grafts.lift (f := (·.shift host.offset)) (fun v hv ↦ ?_) ?_).bind fun v ↦ .push v
    · exact Value.shift_of_ne_ref (Conversion.apply_ne_ref hv) _
    · exact fun e he ↦ Conversion.isOfValues_of_error he
  | load | store | jump | jumpUnless | call | ret => cases hop

theorem Op.grafted_write {host m : Machine}
    (h : ∀ v ∈ m.operands.head?, v.shift host.offset = v) :
    Grafted host id (Op.write.exec m) (Op.write.exec (host.graft m)) := by
  have hexec : Op.write.exec = Exec.pop >>= fun v ↦ Exec.write v.text := rfl
  have hops : (host.graft m).operands = m.operands.map (·.shift host.offset) := rfl
  rw [hexec, Exec.pop, bind_assoc, Machine.get_bind, Machine.get_bind, hops]
  cases hm : m.operands with
  | nil => exact .error (e := .stackUnderflow) rfl m
  | cons v vs =>
    have hv : v.shift host.offset = v := h v (by rw [hm]; rfl)
    rw [List.map_cons, hv]
    exact Grafts.write v.text { m with operands := vs }

theorem Grafts.newArray {host : Machine} (l : Limits) (wanted : Int32) :
    Grafts host id (Exec.newArray l wanted) (Exec.newArray l wanted) := by
  rw [Exec.newArray]
  by_cases hneg : wanted < 0
  · simp only [if_pos hneg]
    exact .throw (e := .negativeSize wanted) rfl
  · simp only [if_neg hneg]
    by_cases hlarge : l.cells < wanted.toInt.toNat
    · simp only [if_pos hlarge]
      exact .throw (e := .arrayTooLarge _ _) rfl
    · simp only [if_neg hlarge, Store.newArray]
      by_cases hmemory : l.memory < wanted.toInt.toNat
      · simp only [if_pos hmemory]
        exact .throw (e := .store (.outOfMemory _)) rfl
      · simp only [if_neg hmemory]
        have hallocate : Grafts host id
          (Exec.allocate (.array (Array.replicate wanted.toInt.toNat .null))) _ := .allocate _
        rw [Obj.shift, Array.map_replicate] at hallocate
        exact hallocate

/-- The fault of an array that is too large for the first limits, where the second differ. -/
def Fault.Narrow (l l' : Limits) : Fault → Prop
  | arrayTooLarge _ _ => l.cells ≠ l'.cells
  | store (.outOfMemory _) => l.memory ≠ l'.memory
  | _ => False

/-- Under the same limits there is no such fault. -/
theorem Fault.not_narrow (l : Limits) (e : Fault) : ¬ e.Narrow l l := by
  intro h
  unfold Narrow at h
  split at h
  · exact h rfl
  · exact h rfl
  · exact h

/-- Wider limits make a difference only where the narrower ones are passed. -/
theorem Exec.newArray_of_le {l l' : Limits} (hcells : l.cells ≤ l'.cells)
    (hmemory : l.memory ≤ l'.memory) (wanted : Int32) :
    Exec.newArray l wanted = Exec.newArray l' wanted ∨
      ∃ e : Fault, e.Narrow l l' ∧ Exec.newArray l wanted = throw e := by
  rw [Exec.newArray, Exec.newArray]
  by_cases hneg : wanted < 0
  · simp only [if_pos hneg]
    exact .inl rfl
  · simp only [if_neg hneg, Store.newArray]
    by_cases hlarge : l.cells < wanted.toInt.toNat
    · rw [if_pos hlarge]
      by_cases heq : l.cells = l'.cells
      · rw [← heq, if_pos hlarge]
        exact .inl rfl
      · exact .inr ⟨.arrayTooLarge _ _, heq, rfl⟩
    · have hlarge' : ¬ l'.cells < wanted.toInt.toNat := by omega
      rw [if_neg hlarge, if_neg hlarge']
      by_cases hfull : l.memory < wanted.toInt.toNat
      · rw [if_pos hfull]
        by_cases heq : l.memory = l'.memory
        · rw [← heq, if_pos hfull]
          exact .inl rfl
        · exact .inr ⟨.store (.outOfMemory _), heq, rfl⟩
      · have hfull' : ¬ l'.memory < wanted.toInt.toNat := by omega
        rw [if_neg hfull, if_neg hfull']
        exact .inl rfl

theorem Exec.popInt_eq_ok {op : Op} {m m' : Machine} {n : Int32}
    (h : Exec.popInt op m = .ok n m') : ∃ vs, m' = { m with operands := vs } := by
  simp only [Exec.popInt, Exec.pop, bind_assoc, Machine.get_bind] at h
  cases hops : m.operands with
  | nil =>
    rw [hops] at h
    cases h
  | cons v vs =>
    rw [hops] at h
    cases v with
    | int n =>
      cases h
      exact ⟨vs, rfl⟩
    | null | double | bool | str | ref => cases h

section
variable {host m : Machine} {op : Op}

/-- An array that is too large at home may be small enough on the host. -/
theorem Op.grafted_newArray (hcells : m.limits.cells ≤ host.limits.cells)
    (hmemory : m.limits.memory ≤ host.limits.memory) :
    Grafted host id (Op.newArray.exec m) (Op.newArray.exec (host.graft m)) ∨
      ∃ (e : Fault) (vs : List Value), e.Narrow m.limits host.limits ∧
        Op.newArray.exec m = .error e { m with operands := vs } := by
  have hlimits : (host.graft m).limits = host.limits := rfl
  have hpop : Grafted host id (Exec.popInt .newArray m) (Exec.popInt .newArray (host.graft m)) :=
    Grafts.popInt .newArray m
  rw [Op.exec_newArray, Op.exec_newArray, hlimits]
  simp only [bind, EStateM.bind]
  generalize hr : Exec.popInt .newArray m = r, Exec.popInt .newArray (host.graft m) = r' at hpop
  cases hpop with
  | error he m' => exact .inl (.error he m')
  | ok n m' =>
    obtain ⟨vs, rfl⟩ := Exec.popInt_eq_ok hr
    rcases Exec.newArray_of_le hcells hmemory n with heq | ⟨e, hnarrow, heq⟩
    · simp only [heq]
      exact .inl (Grafts.newArray _ n _)
    · simp only [heq]
      exact .inr ⟨e, vs, hnarrow, rfl⟩

/-- An operation that works on operands alone does on the host what it does at home, unless an array
is too large at home. -/
theorem Op.grafted_or_cut (hop : op.isAction = true)
    (hpush : ∀ v, op = .push v → v.shift host.offset = v)
    (hwrite : op = .write → ∀ v ∈ m.operands.head?, v.shift host.offset = v)
    (hcells : m.limits.cells ≤ host.limits.cells)
    (hmemory : m.limits.memory ≤ host.limits.memory) :
    Grafted host id (op.exec m) (op.exec (host.graft m)) ∨
      ∃ (e : Fault) (vs : List Value), e.Narrow m.limits host.limits ∧
        op.exec m = .error e { m with operands := vs } := by
  by_cases hw : op = .write
  · subst hw
    exact .inl (Op.grafted_write (hwrite rfl))
  · by_cases hn : op = .newArray
    · subst hn
      exact Op.grafted_newArray hcells hmemory
    · exact .inl (Op.grafts hop hw hn hpush m)

/-- Under the same limits no array is too large at home only. -/
theorem Op.grafted_of_limits (hop : op.isAction = true)
    (hpush : ∀ v, op = .push v → v.shift host.offset = v)
    (hwrite : op = .write → ∀ v ∈ m.operands.head?, v.shift host.offset = v)
    (hlimits : host.limits = m.limits) :
    Grafted host id (op.exec m) (op.exec (host.graft m)) := by
  have hcut := Op.grafted_or_cut (m := m) hop hpush hwrite (hlimits ▸ Nat.le_refl _)
    (hlimits ▸ Nat.le_refl _)
  rw [hlimits] at hcut
  exact hcut.resolve_right fun ⟨e, _, hnarrow, _⟩ ↦ e.not_narrow _ hnarrow

end

/-! ## What operations leave alone -/

namespace Machine

/-- The machine without its objects. -/
def bare (m : Machine) : Machine := { m with store := .empty }

/-- The machine without its output. -/
def mute (m : Machine) : Machine := { m with output := "" }

@[simp] theorem shift_bare (m : Machine) (v : Value) : v.shift m.bare.offset = v := v.shift_zero

/-- With nothing from before on the host, the machine keeps its values, objects and output. -/
theorem bare_mute_graft (host m : Machine) :
    host.bare.mute.graft m = host.put host.frames m.operands m.world host.steps := by
  have hoperands : m.operands.map (·.shift host.bare.mute.offset) = m.operands := by
    have hshift : ∀ v : Value, v.shift host.bare.mute.offset = v := host.shift_bare
    simp only [hshift, List.map_id']
  have hstore : host.bare.mute.store.after m.store = m.store := Store.empty_after m.store
  have houtput : host.bare.mute.output ++ m.output = m.output := String.empty_append
  rw [graft, hoperands, hstore, houtput]
  rfl

theorem graft_bare_mute (m : Machine) : m.bare.graft m.mute = m := by
  have hoperands : m.operands.map (·.shift m.bare.offset) = m.operands := by
    simp only [shift_bare, List.map_id']
  simp only [graft, mute, hoperands]
  simp only [bare, Store.empty_after, String.append_empty]

end Machine

/-- An operation that works on operands alone changes nothing but operands, the store and the input,
and only adds to the output. -/
theorem Op.exec_isAction {op : Op} (hop : op.isAction = true) (m : Machine) :
    ∃ vs w, (∃ s, w.output = m.output ++ s) ∧
      (op.exec m = .ok () (m.put m.frames vs w m.steps) ∨
        ∃ e : Fault, e.isLocal = true ∧ op.exec m = .error e (m.put m.frames vs w m.steps)) := by
  -- The machine is a graft onto itself, and what a graft leaves alone is the host's.
  have hgrafted : Grafted m.bare id (op.exec m.mute) (op.exec (m.bare.graft m.mute)) :=
    Op.grafted_of_limits hop (fun v _ ↦ m.shift_bare v) (fun _ v _ ↦ m.shift_bare v) rfl
  rw [Machine.graft_bare_mute] at hgrafted
  generalize op.exec m.mute = r, op.exec m = r' at hgrafted
  cases hgrafted with
  | ok _ m' =>
    exact ⟨(m.bare.graft m').operands, (m.bare.graft m').world, ⟨m'.output, rfl⟩, .inl rfl⟩
  | @error e he m' =>
    have hlocal : (e.shift m.bare.offset).isLocal = true := by
      rw [show e.shift m.bare.offset = e from e.shift_zero]
      exact he
    exact ⟨(m.bare.graft m').operands, (m.bare.graft m').world, ⟨m'.output, rfl⟩,
      .inr ⟨_, hlocal, rfl⟩⟩

/-! ## What an operation can come to -/

/-- What an operation that succeeds can make of the frames of a machine. -/
inductive Op.Moves (m : Machine) : Op → List Frame → Prop where
  | stay (op : Op) : Moves m op m.frames
  | store {slot : Nat} {v : Value} {fr : Frame} {frs : List Frame} (frames : m.frames = fr :: frs) :
      Moves m (.store slot) (fr.store slot v :: frs)
  | jump {op : Op} {n : Nat} {fr : Frame} {frs : List Frame} (frames : m.frames = fr :: frs)
      (target : op.target? = some (n : Int)) : Moves m op (fr.goto n :: frs)
  | call {x : String} {t : Template} (found : m.template? x = some t)
      (depth : m.frames.length < m.limits.callDepth) : Moves m (.call x) (.enter t :: m.frames)
  | ret : Moves m .ret m.frames.tail

/-- The faults an operation can raise. -/
inductive Op.Raises (m : Machine) : Op → Fault → Prop where
  | ofLocal {op : Op} {e : Fault} (h : e.isLocal = true) : Raises m op e
  | noFrame {op : Op} (h : m.frames = []) : Raises m op .noFrame
  | uninitialized (slot : Nat) : Raises m (.load slot) (.uninitializedSlot slot)
  | badJump {op : Op} {target : Int} (h : op.target? = some target) (hneg : target < 0) :
      Raises m op (.badJump target)
  | unresolved (x : String) : Raises m (.call x) (.unresolvedCall x)
  | depth (x : String) : Raises m (.call x) (.callDepth m.limits.callDepth)

/-- What an operation can come to. If it faults, the frames stay. -/
inductive Op.ComesTo (m : Machine) (op : Op) : EStateM.Result Fault Machine Unit → Prop where
  | ok {frs : List Frame} {vs : List Value} {w : World} (moves : op.Moves m frs)
      (output : ∃ s, w.output = m.output ++ s) : ComesTo m op (.ok () (m.put frs vs w m.steps))
  | error {e : Fault} {vs : List Value} {w : World} (raises : op.Raises m e)
      (output : ∃ s, w.output = m.output ++ s) :
      ComesTo m op (.error e (m.put m.frames vs w m.steps))

namespace Op

variable {m : Machine} {op : Op}

theorem ComesTo.ok_same {frs : List Frame} (vs : List Value) (moves : op.Moves m frs) :
    op.ComesTo m (.ok () ((m.withOperands vs).withFrames frs)) :=
  .ok (w := m.world) moves ⟨"", (String.append_empty).symm⟩

theorem ComesTo.error_same {e : Fault} (vs : List Value) (raises : op.Raises m e) :
    op.ComesTo m (.error e (m.withOperands vs)) :=
  .error (w := m.world) raises ⟨"", (String.append_empty).symm⟩

theorem comesTo_jump {target : Int} (hop : op.target? = some target) (vs : List Value) :
    op.ComesTo m ((Op.jump target).exec (m.withOperands vs)) := by
  have hframes : (m.withOperands vs).frames = m.frames := rfl
  rw [Op.jump_eq, hframes]
  cases target with
  | negSucc n => exact .error_same vs (.badJump hop (Int.negSucc_lt_zero n))
  | ofNat n =>
    cases hfrs : m.frames with
    | nil => exact .error_same vs (.noFrame hfrs)
    | cons fr frs => exact .ok_same vs (.jump hfrs hop)

theorem comesTo (op : Op) (m : Machine) : op.ComesTo m (op.exec m) := by
  -- An action stays in its frame. The other operations are few, and each has its equation.
  cases hop : op.isAction with
  | true =>
    obtain ⟨vs, w, hout, hexec | ⟨e, he, hexec⟩⟩ := Op.exec_isAction hop m
    · rw [hexec]
      exact .ok (.stay op) hout
    · rw [hexec]
      exact .error (.ofLocal he) hout
  | false =>
    cases op with
    | load slot =>
      rw [Op.load_eq]
      cases hfrs : m.frames with
      | nil => exact .error_same m.operands (.noFrame hfrs)
      | cons fr frs =>
        simp only [Frame.load]
        cases fr.slots[slot]? with
        | none => exact .error_same m.operands (.uninitialized slot)
        | some v => exact .ok_same (v :: m.operands) (.stay _)
    | store slot =>
      rw [Op.store_eq]
      cases m.operands with
      | nil => exact .error_same m.operands (.ofLocal rfl)
      | cons v vs =>
        cases hfrs : m.frames with
        | nil => exact .error_same vs (.noFrame hfrs)
        | cons fr frs => exact .ok_same vs (.store hfrs)
    | jump target => exact comesTo_jump rfl m.operands
    | jumpUnless target =>
      rw [Op.jumpUnless_eq]
      cases m.operands with
      | nil => exact .error_same m.operands (.ofLocal rfl)
      | cons v vs =>
        cases v with
        | bool b =>
          cases b with
          | true => exact .ok_same vs (.stay _)
          | false => exact comesTo_jump rfl vs
        | null | int | double | str | ref => exact .error_same vs (.ofLocal rfl)
    | call x =>
      rw [Op.call_eq]
      cases ht : m.template? x with
      | none => exact .error_same m.operands (.unresolved x)
      | some t =>
        by_cases hdepth : m.limits.callDepth ≤ m.frames.length
        · simp only [if_pos hdepth]
          exact .error_same m.operands (.depth x)
        · simp only [if_neg hdepth]
          exact .ok_same m.operands (.call ht (Nat.lt_of_not_le hdepth))
    | ret =>
      rw [Op.ret_eq]
      exact .ok_same _ .ret
    | _ => cases hop

end Op

end Pebble
