import Mathlib.Tactic.Common
import Pebble.Machine.Exec

/-!
# Renaming references

What a program does with references does not depend on their numbers, except where it writes them.
Let a store be put behind an older one: every reference into it is then larger by the number of
older objects. This file gives that renaming on values, objects, frames, stores and faults, and
shows that the operations on them commute with it.

Reference 0 names no object in any store and stays 0, so that no operation needs a condition on the
references it meets.
-/

namespace Pebble

/-! ## Values -/

/-- A reference when `d` objects come first. -/
def shiftRef (d r : Nat) : Nat := if r = 0 then 0 else r + d

theorem shiftRef_succ (d n : Nat) : shiftRef d (n + 1) = n + d + 1 := by
  rw [shiftRef, if_neg (Nat.succ_ne_zero n)]
  omega

theorem shiftRef_zero_left (r : Nat) : shiftRef 0 r = r := by
  rw [shiftRef]
  split
  · next h => exact h.symm
  · rfl

theorem shiftRef_inj {d a b : Nat} : shiftRef d a = shiftRef d b ↔ a = b := by
  rw [shiftRef, shiftRef]
  split <;> split <;> omega

namespace Value

def shift (d : Nat) : Value → Value
  | ref r => ref (shiftRef d r)
  | v => v

theorem shift_of_ne_ref {v : Value} (h : ∀ r, v ≠ .ref r) (d : Nat) : v.shift d = v := by
  cases v with
  | ref r => exact absurd rfl (h r)
  | null | int | double | bool | str => rfl

@[simp] theorem shift_zero (v : Value) : v.shift 0 = v := by
  cases v with
  | ref r => exact congrArg ref (shiftRef_zero_left r)
  | null | int | double | bool | str => rfl

@[simp] theorem equal_shift (d : Nat) (a b : Value) :
    (a.shift d).equal (b.shift d) = a.equal b := by
  cases a with
  | ref r =>
    cases b with
    | ref s =>
      show (shiftRef d r == shiftRef d s) = (r == s)
      rw [Bool.eq_iff_iff, beq_iff_eq, beq_iff_eq, shiftRef_inj]
    | null | int | double | bool | str => rfl
  | null | int | double | bool | str => cases b <;> rfl

end Value

@[simp] theorem ArithOp.apply_shift (o : ArithOp) (d : Nat) (a b : Value) :
    o.apply (a.shift d) (b.shift d) = o.apply a b := by
  cases a <;> cases b <;> cases o <;> rfl

@[simp] theorem OrderOp.apply_shift (o : OrderOp) (d : Nat) (a b : Value) :
    o.apply (a.shift d) (b.shift d) = o.apply a b := by
  cases a <;> cases b <;> cases o <;> rfl

@[simp] theorem Conversion.apply_shift (c : Conversion) (d : Nat) (v : Value) :
    c.apply (v.shift d) = c.apply v := by
  cases v <;> cases c <;> rfl

/-! ## Objects and frames -/

namespace Fields

def shift (d : Nat) (fs : Fields) : Fields := fs.map fun f ↦ (f.1, f.2.shift d)

theorem get?_shift (d : Nat) (fs : Fields) (x : String) :
    (fs.shift d).get? x = (fs.get? x).map (·.shift d) := by
  induction fs with
  | nil => rfl
  | cons f fs ih =>
    have htail : List.lookup x (Fields.shift d fs) = (List.lookup x fs).map (·.shift d) := ih
    rw [get?, get?, shift, List.map_cons, List.lookup_cons, List.lookup_cons]
    cases x == f.1 with
    | true => rfl
    | false => exact htail

theorem set_shift (d : Nat) (x : String) (v : Value) (fs : Fields) :
    (fs.shift d).set x (v.shift d) = (fs.set x v).shift d := by
  induction fs with
  | nil => rfl
  | cons f fs ih =>
    rw [set, shift, List.map_cons, set]
    split
    · rfl
    · exact congrArg _ ih

end Fields

def Obj.shift (d : Nat) : Obj → Obj
  | record fs => record (fs.shift d)
  | array cells => array (cells.map (·.shift d))

@[simp] theorem Obj.shift_zero (o : Obj) : o.shift 0 = o := by
  cases o with
  | record fs => simp [shift, Fields.shift]
  | array cells => simp [shift]

namespace Frame

def shift (d : Nat) (fr : Frame) : Frame := { fr with slots := fr.slots.map (·.shift d) }

@[simp] theorem shift_zero (fr : Frame) : fr.shift 0 = fr := by
  simp [shift]

@[simp] theorem shift_enter (d : Nat) (t : Template) : (Frame.enter t).shift d = .enter t := by
  simp [shift, enter]

theorem store_shift (d : Nat) (fr : Frame) (slot : Nat) (v : Value) :
    (fr.shift d).store slot (v.shift d) = (fr.store slot v).shift d := by
  simp [store, shift, Array.map_setIfInBounds, Value.shift]

end Frame

/-! ## Stores -/

namespace Store

/-- A store that comes behind an older one. -/
def after (older σ : Store) : Store :=
  ⟨older.objects ++ σ.objects.map (·.shift older.objects.size)⟩

section
variable (older σ : Store) (r : Nat)

theorem empty_after : Store.empty.after σ = σ := by
  simp [after, empty]

theorem get?_after :
    (older.after σ).get? (shiftRef older.objects.size r) =
      (σ.get? r).map (·.shift older.objects.size) := by
  cases r with
  | zero => rfl
  | succ n =>
    rw [shiftRef_succ, get?, get?, after, Array.getElem?_append_right (Nat.le_add_left ..),
      Nat.add_sub_cancel, Array.getElem?_map]

theorem next_after : (older.after σ).next = shiftRef older.objects.size σ.next := by
  simp only [next, shiftRef_succ, after, Array.size_append, Array.size_map]
  omega

theorem add_after (o : Obj) :
    (older.after σ).add (o.shift older.objects.size) = older.after (σ.add o) := by
  simp [add, after]

theorem update_after {f g : Obj → Obj}
    (h : ∀ o, g (o.shift older.objects.size) = (f o).shift older.objects.size) :
    (older.after σ).update (shiftRef older.objects.size r) g = older.after (σ.update r f) := by
  cases r with
  | zero => rfl
  | succ n =>
    rw [shiftRef_succ, update, update, after, after]
    congr 1
    refine Array.ext (by simp) fun i hi hi' ↦ ?_
    by_cases hold : i < older.objects.size
    · have hne : n + older.objects.size ≠ i := by omega
      rw [Array.getElem_modify, if_neg hne, Array.getElem_append_left hold,
        Array.getElem_append_left hold]
    · have hle : older.objects.size ≤ i := Nat.le_of_not_lt hold
      simp only [Array.getElem_modify, Array.getElem_append_right hle, Array.getElem_map]
      by_cases hi : n = i - older.objects.size
      · rw [if_pos (by omega), if_pos hi, h]
      · rw [if_neg (by omega), if_neg hi]

theorem setField_after (x : String) (v : Value) :
    (older.after σ).setField (shiftRef older.objects.size r) x (v.shift older.objects.size) =
      older.after (σ.setField r x v) := by
  refine update_after older σ r fun o ↦ ?_
  cases o with
  | record fs => exact congrArg Obj.record (Fields.set_shift ..)
  | array cells => rfl

theorem setCell_after (i : Nat) (v : Value) :
    (older.after σ).setCell (shiftRef older.objects.size r) i (v.shift older.objects.size) =
      older.after (σ.setCell r i v) := by
  refine update_after older σ r fun o ↦ ?_
  cases o with
  | record fs => rfl
  | array cells => simp only [Obj.shift, Array.map_setIfInBounds]

end

end Store

/-! ## Faults -/

def StoreFault.shift (d : Nat) : StoreFault → StoreFault
  | noSuchObject kind r => noSuchObject kind (shiftRef d r)
  | e => e

/-- Of all faults, only that of a missing object names a reference. -/
def Fault.shift (d : Nat) : Fault → Fault
  | store f => store (f.shift d)
  | e => e

@[simp] theorem Fault.shift_zero (e : Fault) : e.shift 0 = e := by
  cases e with
  | store f =>
    cases f with
    | noSuchObject kind r => simp only [shift, StoreFault.shift, shiftRef_zero_left]
    | outOfMemory size => rfl
  | _ => rfl

/-- What a store says, after renaming. -/
def renamed {α β : Type} (d : Nat) (f : α → β) (x : Except StoreFault α) : Except StoreFault β :=
  (x.map f).mapError (·.shift d)

theorem Store.fields_after (older σ : Store) (r : Nat) :
    (older.after σ).fields (shiftRef older.objects.size r) =
      renamed older.objects.size (·.shift older.objects.size) (σ.fields r) := by
  rw [fields, fields, get?_after]
  match σ.get? r with
  | none | some (.record _) | some (.array _) => rfl

theorem Store.cells_after (older σ : Store) (r : Nat) :
    (older.after σ).cells (shiftRef older.objects.size r) =
      renamed older.objects.size (·.map (·.shift older.objects.size)) (σ.cells r) := by
  rw [cells, cells, get?_after]
  match σ.get? r with
  | none | some (.record _) | some (.array _) => rfl

end Pebble
