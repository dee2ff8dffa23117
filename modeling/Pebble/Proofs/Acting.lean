import Pebble.Proofs.Stepping

/-!
# What an operation does to its operands and the world

Most operations touch neither the frames nor the code: they take operands, may change the store,
the input and the output, and leave operands. `Op.Does` gives that effect on its own, as an action
on the world alone. Executing such an operation is performing its action on the operands it finds
(`Op.Does.exec`), whatever else is on the stack and whatever the frames are.

An action that faults says nothing about the operands. The machine has then taken some of them and
left the others.
-/

namespace Pebble

/-- An action on the world that may fault. -/
abbrev Act (α : Type) := EStateM Fault World α

namespace Act

/-- Passes on what a part of the machine says. -/
def lift {α : Type} : Except Fault α → Act α
  | .ok a => pure a
  | .error e => throw e

/-- Passes on what the store says. -/
def fromStore {α : Type} : Except StoreFault α → Act α
  | .ok a => pure a
  | .error e => throw (.store e)

/-- The fault of an operand that `op` cannot take. -/
def rejected {α : Type} (op : Op) (wanted : Operands) : Value → Act α
  | .null => throw (.null op)
  | v => throw (.mismatch op wanted [v.kind])

def asInt (op : Op) : Value → Act Int32
  | .int n => return n
  | v => rejected op .int v

def asBool (op : Op) : Value → Act Bool
  | .bool b => return b
  | v => rejected op .bool v

def asRef (op : Op) : Value → Act Nat
  | .ref r => return r
  | v => rejected op .object v

/-- The fields of a record. -/
def fields (r : Nat) : Act Fields := do
  fromStore ((← get).store.fields r)

/-- The cells of an array. -/
def cells (r : Nat) : Act (Array Value) := do
  fromStore ((← get).store.cells r)

def changeStore (change : Store → Store) : Act Unit :=
  modify fun w ↦ { w with store := change w.store }

/-- Allocates an object. -/
def allocate (o : Obj) : Act Value := do
  let r := (← get).store.next
  changeStore (·.add o)
  return .ref r

/-- The index of an item among `size` items. -/
def itemIndex (op : Op) (index : Int32) (size : Nat) : Act Nat :=
  match index.toInt with
  | .ofNat i => if i < size then pure i else throw (.indexOutOfBounds op index size)
  | .negSucc _ => throw (.indexOutOfBounds op index size)

def item (op : Op) (cells : Array Value) (index : Int32) : Act Value := do
  return cells.getD (← itemIndex op index cells.size) .null

/-- The character at an index, as a text. -/
def character (op : Op) (s : String) (index : Int32) : Act Value := do
  let i ← itemIndex op index s.length
  return .str ((s.drop i).take 1).copy

def logic (o : LogicOp) (lhs rhs : Value) : Act Value := do
  let b ← asBool (.logic o) rhs
  let a ← asBool (.logic o) lhs
  return .bool (o.apply a b)

def not (v : Value) : Act Value := do
  return .bool !(← asBool .not v)

def setField (x : String) (record v : Value) : Act Unit := do
  let r ← asRef (.setField x) record
  let _ ← fields r
  changeStore (·.setField r x v)

def getField (x : String) (record : Value) : Act Value := do
  let r ← asRef (.getField x) record
  match (← fields r).get? x with
  | none => throw (.missingField x)
  | some v => return v

/-- The size of an array that is wanted. -/
def arraySize (size : Value) : Act Nat := do
  let wanted ← asInt .newArray size
  if wanted < 0 then throw (.negativeSize wanted)
  return wanted.toInt.toNat

/-- Allocates an array of any size. -/
def buildArray (size : Value) : Act Value := do
  allocate (.array (Array.replicate (← arraySize size) .null))

/-- Allocates an array within limits. -/
def newArray (l : Limits) (size : Value) : Act Value := do
  let n ← arraySize size
  if l.cells < n then throw (.arrayTooLarge n l.cells)
  allocate (← fromStore (Store.newArray n l.memory))

def setItem (array index v : Value) : Act Unit := do
  let i ← asInt .setItem index
  let r ← asRef .setItem array
  let size := (← cells r).size
  let i ← itemIndex .setItem i size
  changeStore (·.setCell r i v)

def getItem (array index : Value) : Act Value := do
  let i ← asInt .getItem index
  let r ← asRef .getItem array
  item .getItem (← cells r) i

def write (s : String) : Act Unit :=
  modify fun w ↦ { w with output := w.output ++ s }

/-- Reads a line, or null at the end of the input. -/
def readLine : Act Value := do
  match Exec.splitLine (← get).input with
  | ([], _) => return .null
  | (line, rest) =>
    modify fun w ↦ { w with input := rest }
    match String.fromUTF8? line.toByteArray with
    | none => throw .notText
    | some s => return .str (Exec.chomp s)

/-- The number of characters or cells. -/
def size : Value → Act Value
  | .str s => return .int (Int32.ofNat s.length)
  | .ref r => return .int (Int32.ofNat (← cells r).size)
  | v => rejected .size .stringOrArray v

/-- A character or a cell. -/
def element (container index : Value) : Act Value := do
  let i ← asInt .element index
  match container with
  | .str s => character .element s i
  | .ref r => item .element (← cells r) i
  | v => rejected .element .stringOrArray v

end Act

/-- An operation that works on operands alone: it neither uses the frame nor jumps. -/
def Op.isAction : Op → Bool
  | load _ | store _ | jump _ | jumpUnless _ | call _ | ret => false
  | _ => true

open Act in
/-- `op.Does l args act`: what `op` does to the operands `args`, the top one first, within the
limits `l`. The action answers the operands that it leaves. -/
inductive Op.Does (l : Limits) : Op → List Value → Act (List Value) → Prop where
  | push (v : Value) : Does l (.push v) [] (return [v])
  | pop (v : Value) : Does l .pop [v] (return [])
  | dup (v : Value) : Does l .dup [v] (return [v, v])
  | nop : Does l .nop [] (return [])
  | arith (o : ArithOp) (lhs rhs : Value) :
      Does l (.arith o) [rhs, lhs] do return [← lift (o.apply lhs rhs)]
  | logic (o : LogicOp) (lhs rhs : Value) :
      Does l (.logic o) [rhs, lhs] do return [← Act.logic o lhs rhs]
  | not (v : Value) : Does l .not [v] do return [← Act.not v]
  | order (o : OrderOp) (lhs rhs : Value) :
      Does l (.order o) [rhs, lhs] do return [.bool (← lift (o.apply lhs rhs))]
  | equal (lhs rhs : Value) : Does l .equal [rhs, lhs] (return [.bool (lhs.equal rhs)])
  | unequal (lhs rhs : Value) : Does l .unequal [rhs, lhs] (return [.bool !(lhs.equal rhs)])
  | newRecord : Does l .newRecord [] do return [← allocate (.record [])]
  | setField (x : String) (record v : Value) :
      Does l (.setField x) [v, record] do
        Act.setField x record v
        return []
  | getField (x : String) (record : Value) :
      Does l (.getField x) [record] do return [← Act.getField x record]
  | newArray (wanted : Value) :
      Does l .newArray [wanted] do return [← Act.newArray l wanted]
  | setItem (array index v : Value) :
      Does l .setItem [v, index, array] do
        Act.setItem array index v
        return []
  | getItem (array index : Value) :
      Does l .getItem [index, array] do return [← Act.getItem array index]
  | write (v : Value) : Does l .write [v] do
      Act.write v.text
      return []
  | read : Does l .read [] do return [← readLine]
  | size (v : Value) : Does l .size [v] do return [← Act.size v]
  | element (container index : Value) :
      Does l .element [index, container] do return [← Act.element container index]
  | convert (c : Conversion) (v : Value) :
      Does l (.convert c) [v] do return [← lift (c.apply v)]

/-- Allocates an array of a wanted size within limits. -/
def Exec.newArray (l : Limits) (wanted : Int32) : Exec Unit := do
  if wanted < 0 then throw (.negativeSize wanted)
  let n := wanted.toInt.toNat
  if l.cells < n then throw (.arrayTooLarge n l.cells)
  allocate (← fromStore (Store.newArray n l.memory))

theorem Op.exec_newArray (m : Machine) :
    Op.newArray.exec m = (Exec.popInt .newArray >>= Exec.newArray m.limits) m := by
  rw [Op.exec]
  simp only [Exec.popInt, Exec.pop, bind_assoc, Machine.get_bind]
  cases m.operands with
  | nil => rfl
  | cons v vs =>
    cases v with
    | int n =>
      simp only [bind_assoc, Machine.modify_bind, pure_bind, Exec.newArray]
      by_cases hneg : n < 0
      · rw [if_pos hneg, if_pos hneg]
        rfl
      · rw [if_neg hneg, if_neg hneg]
        rfl
    | null | double | bool | str | ref => rfl

/-- What executing an operation on the operands `taken`, with `vs` below them, comes to when its
action comes to the first outcome. -/
def Performs (m : Machine) (frs : List Frame) (vs taken : List Value) (k : Nat) :
    EStateM.Result Fault World (List Value) → EStateM.Result Fault Machine Unit → Prop
  | .ok left w, r => r = .ok () (m.put frs (left ++ vs) w k)
  | .error e w, r => ∃ left, left <:+ taken ∧ r = .error e (m.put frs (left ++ vs) w k)

section
variable {m : Machine} {frs : List Frame} {vs taken : List Value} {k : Nat} {w : World}
  {α β : Type} {f : α → Act β} {left : β → Act (List Value)} {g : α → Exec Unit}

/-- Both sides go on with what a part of the machine says. -/
theorem performs_lift {x : Except Fault α} {f : α → Act (List Value)}
    (h : ∀ a, Performs m frs vs taken k (f a w) (g a (m.put frs vs w k))) :
    Performs m frs vs taken k ((Act.lift x >>= f) w)
      ((Exec.lift x >>= g) (m.put frs vs w k)) := by
  cases x with
  | ok a => exact h a
  | error e => exact ⟨[], List.nil_suffix, rfl⟩

/-- Both sides go on with what the store says. -/
theorem performs_fromStore {x : Except StoreFault α}
    (h : ∀ a, Performs m frs vs taken k ((f a >>= left) w) (g a (m.put frs vs w k))) :
    Performs m frs vs taken k (((Act.fromStore x >>= f) >>= left) w)
      ((Exec.fromStore x >>= g) (m.put frs vs w k)) := by
  cases x with
  | ok a => exact h a
  | error e => exact ⟨[], List.nil_suffix, rfl⟩

/-- Both sides go on with an index that is in range. -/
theorem performs_itemIndex {op : Op} {index : Int32} {size : Nat} {f : Nat → Act β}
    {g : Nat → Exec Unit}
    (h : ∀ i, Performs m frs vs taken k ((f i >>= left) w) (g i (m.put frs vs w k))) :
    Performs m frs vs taken k (((Act.itemIndex op index size >>= f) >>= left) w)
      ((Exec.itemIndex op index size >>= g) (m.put frs vs w k)) := by
  rw [Act.itemIndex, Exec.itemIndex]
  cases index.toInt with
  | negSucc _ => exact ⟨[], List.nil_suffix, rfl⟩
  | ofNat i =>
    by_cases hi : i < size
    · simp only [if_pos hi]
      exact h i
    · simp only [if_neg hi]
      exact ⟨[], List.nil_suffix, rfl⟩

theorem performs_item {op : Op} {cells : Array Value} {index : Int32} :
    Performs m frs vs taken k ((Act.item op cells index >>= fun v ↦ pure [v]) w)
      ((Exec.item op cells index >>= Exec.push) (m.put frs vs w k)) := by
  rw [Exec.item, bind_assoc]
  refine performs_itemIndex fun i ↦ ?_
  exact rfl

theorem performs_newArray {l : Limits} {n : Int32} :
    Performs m frs vs taken k ((Act.newArray l (.int n) >>= fun v ↦ pure [v]) w)
      (Exec.newArray l n (m.put frs vs w k)) := by
  rw [Act.newArray, Exec.newArray]
  simp only [Act.arraySize, Act.asInt, pure_bind]
  by_cases hneg : n < 0
  · simp only [if_pos hneg]
    exact ⟨[], List.nil_suffix, rfl⟩
  · simp only [if_neg hneg, pure_bind]
    by_cases hlarge : l.cells < n.toInt.toNat
    · simp only [if_pos hlarge]
      exact ⟨[], List.nil_suffix, rfl⟩
    · simp only [if_neg hlarge]
      refine performs_fromStore fun o ↦ ?_
      exact rfl

theorem performs_readLine :
    Performs m frs vs taken k ((Act.readLine >>= fun v ↦ pure [v]) w)
      ((Exec.readLine >>= Exec.push) (m.put frs vs w k)) := by
  have hinput : (m.put frs vs w k).input = w.input := rfl
  rw [Act.readLine, Exec.readLine, bind_assoc, bind_assoc, Machine.get_bind, Machine.get_bind,
    hinput]
  rcases Exec.splitLine w.input with ⟨line, rest⟩
  cases line with
  | nil => exact rfl
  | cons b line =>
    simp only [modify, modifyGet, MonadStateOf.modifyGet]
    cases String.fromUTF8? (b :: line).toByteArray with
    | none => exact ⟨[], List.nil_suffix, rfl⟩
    | some s => exact rfl

end

/-- Executing an operation is performing its action. -/
theorem Op.Does.exec {op : Op} {m : Machine} {args : List Value} {act : Act (List Value)}
    (h : op.Does m.limits args act) (frs : List Frame) (vs : List Value) (w : World)
    (k : Nat) : Performs m frs vs args k (act w) (op.exec (m.put frs (args ++ vs) w k)) := by
  -- The machine takes operands one by one and each may be refused, so the cases are split on the
  -- operands that are looked at, and then both sides compute.
  cases h with
  | push | pop | dup | nop | equal | unequal | newRecord | write => exact rfl
  | arith | order | convert =>
    refine performs_lift fun a ↦ ?_
    exact rfl
  | logic o lhs rhs =>
    cases rhs with
    | bool b =>
      cases lhs with
      | bool a => exact rfl
      | null | int | double | str | ref => exact ⟨[], List.nil_suffix, rfl⟩
    | null | int | double | str | ref => exact ⟨[lhs], List.suffix_cons _ _, rfl⟩
  | not v =>
    cases v with
    | bool b => exact rfl
    | null | int | double | str | ref => exact ⟨[], List.nil_suffix, rfl⟩
  | setField x record v =>
    cases record with
    | ref r =>
      show Performs _ _ _ _ _
        (((Act.fromStore (w.store.fields r) >>= fun _ ↦
          Act.changeStore (·.setField r x v)) >>= fun _ ↦ pure []) w)
        ((discard (Exec.fromStore (w.store.fields r)) >>= fun _ ↦
          (modify fun m ↦ { m with store := m.store.setField r x v } : Exec Unit))
          (m.put frs vs w k))
      cases w.store.fields r with
      | ok fs => exact rfl
      | error e => exact ⟨[], List.nil_suffix, rfl⟩
    | null | int | double | bool | str => exact ⟨[], List.nil_suffix, rfl⟩
  | getField x record =>
    cases record with
    | ref r =>
      refine performs_fromStore fun fs ↦ ?_
      cases fs.get? x with
      | none => exact ⟨[], List.nil_suffix, rfl⟩
      | some v => exact rfl
    | null | int | double | bool | str => exact ⟨[], List.nil_suffix, rfl⟩
  | newArray wanted =>
    rw [Op.exec_newArray]
    cases wanted with
    | int n => exact performs_newArray
    | null | double | bool | str | ref => exact ⟨[], List.nil_suffix, rfl⟩
  | setItem array index v =>
    cases index with
    | int n =>
      cases array with
      | ref r =>
        refine performs_fromStore fun cells ↦ ?_
        refine performs_itemIndex fun i ↦ ?_
        exact rfl
      | null | int | double | bool | str => exact ⟨[], List.nil_suffix, rfl⟩
    | null | double | bool | str | ref =>
      exact ⟨[array], (List.suffix_cons _ _).trans (List.suffix_cons _ _), rfl⟩
  | getItem array index =>
    cases index with
    | int n =>
      cases array with
      | ref r => exact performs_fromStore fun cells ↦ performs_item
      | null | int | double | bool | str => exact ⟨[], List.nil_suffix, rfl⟩
    | null | double | bool | str | ref => exact ⟨[array], List.suffix_cons _ _, rfl⟩
  | read => exact performs_readLine
  | size v =>
    cases v with
    | ref r =>
      refine performs_fromStore fun cells ↦ ?_
      exact rfl
    | str s => exact rfl
    | null | int | double | bool => exact ⟨[], List.nil_suffix, rfl⟩
  | element container index =>
    cases index with
    | int n =>
      cases container with
      | str s =>
        refine performs_itemIndex fun i ↦ ?_
        exact rfl
      | ref r => exact performs_fromStore fun cells ↦ performs_item
      | null | int | double | bool => exact ⟨[], List.nil_suffix, rfl⟩
    | null | double | bool | str | ref => exact ⟨[container], List.suffix_cons _ _, rfl⟩

/-! ## Operations on frames -/

section
variable {m : Machine} {fr : Frame} {frs : List Frame} {vs : List Value} {w : World} {k : Nat}

theorem Op.exec_load {slot : Nat} {v : Value} (h : fr.slots[slot]? = some v) :
    (Op.load slot).exec (m.put (fr :: frs) vs w k) = .ok () (m.put (fr :: frs) (v :: vs) w k) := by
  have hload : fr.load slot = .ok v := by rw [Frame.load, h]
  have hexec : (Op.load slot).exec (m.put (fr :: frs) vs w k) =
      (Exec.lift (fr.load slot) >>= Exec.push) (m.put (fr :: frs) vs w k) := rfl
  rw [hexec, hload]
  rfl

theorem Op.exec_store (slot : Nat) (v : Value) :
    (Op.store slot).exec (m.put (fr :: frs) (v :: vs) w k) =
      .ok () (m.put (fr.store slot v :: frs) vs w k) := rfl

/-- The slots after one has been set: the others keep their values. -/
theorem Frame.getElem?_store (fr : Frame) (k j : Nat) (v : Value) {u : Value}
    (h : fr.slots[j]? = some u) (hne : j ≠ k) : (fr.store k v).slots[j]? = some u := by
  have hlt : j < fr.slots.size := (Array.getElem?_eq_some_iff.mp h).1
  rw [Frame.store]
  simp only
  rw [Array.getElem?_setIfInBounds_ne (Ne.symm hne), Array.getElem?_append_left hlt, h]

theorem Frame.getElem?_store_self (fr : Frame) (k : Nat) (v : Value) :
    (fr.store k v).slots[k]? = some v := by
  rw [Frame.store]
  simp only
  rw [Array.getElem?_setIfInBounds_self]
  rw [if_pos]
  simp only [Array.size_append, Array.size_replicate]
  omega

/-- A frame that goes on at another index. -/
def Frame.goto (fr : Frame) (n : Nat) : Frame := { fr with pc := n }

theorem Op.exec_jump (n : Nat) :
    (Op.jump n).exec (m.put (fr :: frs) vs w k) = .ok () (m.put (fr.goto n :: frs) vs w k) := rfl

theorem Op.exec_jumpUnless (n : Nat) (v : Value) :
    (Op.jumpUnless n).exec (m.put (fr :: frs) (v :: vs) w k) =
      match Act.asBool (.jumpUnless n) v w with
      | .ok b w => .ok () (m.put ((if b then fr else fr.goto n) :: frs) vs w k)
      | .error e w => .error e (m.put (fr :: frs) vs w k) := by
  cases v with
  | bool b => cases b <;> rfl
  | null | int | double | str | ref => rfl

theorem Op.exec_call {x : String} {t : Template} (h : m.template? x = some t) :
    (Op.call x).exec (m.put frs vs w k) =
      if m.limits.callDepth ≤ frs.length then
        .error (.callDepth m.limits.callDepth) (m.put frs vs w k)
      else .ok () (m.put (.enter t :: frs) vs w k) := by
  rw [Op.exec, Exec.call, Machine.get_bind, Machine.put_template?, h]
  have hlimit : (m.put frs vs w k).limits = m.limits := rfl
  have hframes : (m.put frs vs w k).frames = frs := rfl
  simp only [hlimit, hframes]
  by_cases hdepth : m.limits.callDepth ≤ frs.length
  · simp only [if_pos hdepth]
    rfl
  · simp only [if_neg hdepth]
    rfl

theorem Op.exec_ret (v : Value) :
    Op.ret.exec (m.put (fr :: frs) (v :: vs) w k) =
      .ok () (m.put frs (if frs.isEmpty then vs else v :: vs) w k) := rfl

end

/-! The same operations on any machine, also on one that has no frame or too few operands. -/

/-- The machine with other operands. -/
def Machine.withOperands (m : Machine) (vs : List Value) : Machine := { m with operands := vs }

/-- An operation whose action succeeds leaves what the action leaves. -/
theorem Op.Does.exec_of_ok {op : Op} {m : Machine} {args left : List Value}
    {act : Act (List Value)} {w : World} (h : op.Does m.limits args act) (vs : List Value)
    (hact : act m.world = .ok left w) :
    op.exec (m.withOperands (args ++ vs)) = .ok () (m.put m.frames (left ++ vs) w m.steps) := by
  have hexec := h.exec m.frames vs m.world m.steps
  rw [hact] at hexec
  exact hexec

/-- The machine with other frames. -/
def Machine.withFrames (m : Machine) (frs : List Frame) : Machine := { m with frames := frs }

/-- The operands after a return to the frames `frs`: the value on top goes to the caller, if there
is one, and it is null if there is no value. -/
def handedBack (frs : List Frame) (vs : List Value) : List Value :=
  if frs.isEmpty then vs.tail else vs.headD .null :: vs.tail

section
variable (m : Machine)

theorem Op.load_eq (slot : Nat) :
    (Op.load slot).exec m =
      match m.frames with
      | [] => .error .noFrame m
      | fr :: _ =>
        match fr.load slot with
        | .ok v => .ok () (m.withOperands (v :: m.operands))
        | .error e => .error e m := by
  rw [Op.exec, Exec.frame, bind_assoc, Machine.get_bind]
  cases m.frames with
  | nil => rfl
  | cons fr frs =>
    simp only [pure_bind]
    cases fr.load slot <;> rfl

theorem Op.store_eq (slot : Nat) :
    (Op.store slot).exec m =
      match m.operands, m.frames with
      | [], _ => .error .stackUnderflow m
      | _ :: vs, [] => .error .noFrame (m.withOperands vs)
      | v :: vs, fr :: frs => .ok () ((m.withOperands vs).withFrames (fr.store slot v :: frs)) := by
  obtain ⟨ts, ops, frs, st, l, steps, tr, inp, out⟩ := m
  cases ops with
  | nil => rfl
  | cons v vs => cases frs <;> rfl

theorem Op.jump_eq (target : Int) :
    (Op.jump target).exec m =
      match target, m.frames with
      | .negSucc _, _ => .error (.badJump target) m
      | .ofNat _, [] => .error .noFrame m
      | .ofNat n, fr :: frs => .ok () (m.withFrames (fr.goto n :: frs)) := by
  obtain ⟨ts, ops, frs, st, l, steps, tr, inp, out⟩ := m
  cases target with
  | negSucc _ => rfl
  | ofNat n => cases frs <;> rfl

theorem Op.jumpUnless_eq (target : Int) :
    (Op.jumpUnless target).exec m =
      match m.operands with
      | [] => .error .stackUnderflow m
      | v :: vs =>
        match v with
        | .bool true => .ok () (m.withOperands vs)
        | .bool false => (Op.jump target).exec (m.withOperands vs)
        | v => Exec.rejected (.jumpUnless target) .bool v (m.withOperands vs) := by
  obtain ⟨ts, ops, frs, st, l, steps, tr, inp, out⟩ := m
  match ops with
  | [] => rfl
  | .bool true :: vs => rfl
  | .bool false :: vs => rfl
  | .null :: vs | .int _ :: vs | .double _ :: vs | .str _ :: vs | .ref _ :: vs => rfl

theorem Op.call_eq (x : String) :
    (Op.call x).exec m =
      match m.template? x with
      | none => .error (.unresolvedCall x) m
      | some t =>
        if m.limits.callDepth ≤ m.frames.length then .error (.callDepth m.limits.callDepth) m
        else .ok () (m.withFrames (.enter t :: m.frames)) := by
  cases ht : m.template? x with
  | none =>
    rw [Op.exec, Exec.call, Machine.get_bind, ht]
    rfl
  | some t =>
    have hcall : (Op.call x).exec (m.put m.frames m.operands m.world m.steps) = _ :=
      Op.exec_call ht
    exact hcall

theorem Op.ret_eq :
    Op.ret.exec m =
      .ok () ((m.withOperands (handedBack m.frames.tail m.operands)).withFrames m.frames.tail) :=
  rfl

end

/-! ## Faults

A fault names the operation that raised it, and with a conditional jump comes the target of the
jump, which depends on where the code stands. -/

/-- An operation without the target of its jump. -/
def Op.untargeted : Op → Op
  | jump _ => jump 0
  | jumpUnless _ => jumpUnless 0
  | op => op

/-- A fault without the target of a jump. -/
def Fault.untargeted : Fault → Fault
  | null op => null op.untargeted
  | mismatch op wanted found => mismatch op.untargeted wanted found
  | indexOutOfBounds op index size => indexOutOfBounds op.untargeted index size
  | e => e

/-- The faults of a run that has come to one of its limits. -/
def Fault.isLimit : Fault → Bool
  | callDepth _ | stackOverflow _ | stepLimit _ | arrayTooLarge _ _ => true
  | store (.outOfMemory _) => true
  | _ => false

end Pebble
