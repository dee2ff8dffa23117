import Mathlib.Tactic.Common
import Pebble.Proofs.MachineSafety

/-!
# Sizes and indices

A string has characters and an array has cells, and both are reached by an index. The size that a
program is told is the number of items as a word, but an index is compared with the number itself.
So the two agree as long as the number fits into a word, and no longer: of a string with `2 ^ 31`
characters or more, every index that is not negative is in range, and the size is some word.

## Arrays

An array cannot grow that long. Its size is an operand when it is made, so it is a word, and no
operation changes it (`Machine.performAll_arraysWithin`). Strings can, since there is no limit on
what is put together.
-/

namespace Pebble

/-- The operation can be executed. -/
def Op.Succeeds (op : Op) (m : Machine) : Prop :=
  ∃ m', op.exec m = .ok () m'

namespace Act

variable {α : Type} {w : World}

theorem cells_bind {m : Machine} {r : Nat} {cells : Array Value} (h : m.store.cells r = .ok cells)
    (f : Array Value → Act α) : (Act.cells r >>= f) m.world = f cells m.world := by
  have hworld : m.world.store.cells r = .ok cells := h
  rw [Act.cells, bind_assoc, Machine.get_bind, hworld]
  rfl

theorem itemIndex_of_lt {op : Op} {i : Int32} {k size : Nat} (hi : i.toInt = k) (hk : k < size) :
    itemIndex op i size = pure k := by
  rw [itemIndex, hi]
  exact if_pos hk

/-- Where only the index can be refused, the action succeeds exactly if the index is in range. -/
theorem itemIndex_bind_succeeds_iff {op : Op} {i : Int32} {size : Nat} {f : Nat → Act α}
    (hf : ∀ k, ∃ a w', f k w = .ok a w') :
    (∃ a w', (itemIndex op i size >>= f) w = .ok a w') ↔ 0 ≤ i.toInt ∧ i.toInt < size := by
  rw [itemIndex]
  cases i.toInt with
  | negSucc k =>
    refine iff_of_false ?_ fun h ↦ by omega
    rintro ⟨a, w', h⟩
    cases h
  | ofNat k =>
    by_cases hk : k < size
    · simp only [if_pos hk]
      exact iff_of_true (hf k) ⟨Int.natCast_nonneg k, Int.ofNat_lt.mpr hk⟩
    · simp only [if_neg hk]
      refine iff_of_false ?_ fun h ↦ hk (Int.ofNat_lt.mp h.2)
      rintro ⟨a, w', h⟩
      cases h

end Act

/-- An operation on operands succeeds if its action does. -/
theorem Op.Does.succeeds_iff {op : Op} {m : Machine} {args : List Value} {act : Act (List Value)}
    (h : op.Does m.limits args act) (vs : List Value) :
    op.Succeeds (m.withOperands (args ++ vs)) ↔ ∃ left w, act m.world = .ok left w := by
  constructor
  · rintro ⟨m', hok⟩
    have hexec := h.exec m.frames vs m.world m.steps
    cases hact : act m.world with
    | ok left w => exact ⟨left, w, rfl⟩
    | error e w =>
      rw [hact] at hexec
      obtain ⟨left, -, herror⟩ := hexec
      cases hok.symm.trans herror
  · rintro ⟨left, w, hact⟩
    exact ⟨_, h.exec_of_ok vs hact⟩

/-! ## Items -/

/-- How many items can be reached by an index: the characters of a string, or the cells of an
array. -/
def Value.items? (σ : Store) : Value → Option Nat
  | .str s => some s.length
  | .ref r => match σ.cells r with
    | .ok cells => some cells.size
    | .error _ => none
  | _ => none

theorem Value.cells_of_items? {σ : Store} {r size : Nat}
    (h : (Value.ref r).items? σ = some size) :
    ∃ cells, σ.cells r = .ok cells ∧ cells.size = size := by
  rw [items?] at h
  cases hcells : σ.cells r with
  | ok cells =>
    rw [hcells] at h
    exact ⟨cells, rfl, Option.some.inj h⟩
  | error e =>
    rw [hcells] at h
    cases h

namespace Machine

variable {m : Machine} {x : Value} {vs : List Value}

/-- The size is the number of items, as a word. -/
theorem size_exec {size : Nat} (h : x.items? m.store = some size) :
    Op.size.exec (m.withOperands (x :: vs)) =
      .ok () (m.withOperands (.int (Int32.ofNat size) :: vs)) := by
  have hact : (do return [← Act.size x] : Act (List Value)) m.world =
      .ok [.int (Int32.ofNat size)] m.world := by
    cases x with
    | str s => cases h; rfl
    | ref r =>
      obtain ⟨cells, hcells, rfl⟩ := Value.cells_of_items? h
      rw [Act.size, bind_assoc, Act.cells_bind hcells]
      rfl
    | null | int | double | bool => cases h
  exact (Op.Does.size x).exec_of_ok vs hact

/-- What has a size has items. -/
theorem exists_items?_of_size_exec {n : Int32}
    (h : Op.size.exec (m.withOperands (x :: vs)) = .ok () (m.withOperands (.int n :: vs))) :
    ∃ size, x.items? m.store = some size ∧ n = Int32.ofNat size := by
  have hitems : ∃ size, x.items? m.store = some size := by
    obtain ⟨left, w, hact⟩ := ((Op.Does.size x).succeeds_iff vs).mp ⟨_, h⟩
    cases x with
    | str s => exact ⟨_, rfl⟩
    | ref r =>
      rw [Value.items?]
      cases hcells : m.store.cells r with
      | ok cells => exact ⟨_, rfl⟩
      | error e =>
        have hworld : m.world.store.cells r = .error e := hcells
        simp only [Act.size, Act.cells, Machine.get_bind, bind_assoc, hworld] at hact
        cases hact
    | null | int | double | bool => cases hact
  obtain ⟨size, hitems⟩ := hitems
  rw [size_exec hitems] at h
  injection h with _ hm
  have hoperands := congrArg Machine.operands hm
  injection hoperands with hint
  exact ⟨size, hitems, (Value.int.inj hint).symm⟩

/-- An item can be reached exactly if its index is not negative and less than the number of items,
which may be more than a word can say. -/
theorem element_succeeds_iff {size : Nat} (h : x.items? m.store = some size) (i : Int32) :
    Op.element.Succeeds (m.withOperands (.int i :: x :: vs)) ↔
      0 ≤ i.toInt ∧ i.toInt < size := by
  refine ((Op.Does.element x (.int i)).succeeds_iff vs).trans ?_
  cases x with
  | str s =>
    cases h
    simp only [Act.element, Act.asInt, Act.character, pure_bind, bind_assoc]
    exact Act.itemIndex_bind_succeeds_iff fun k ↦ ⟨_, _, rfl⟩
  | ref r =>
    obtain ⟨cells, hcells, rfl⟩ := Value.cells_of_items? h
    simp only [Act.element, Act.asInt, Act.item, pure_bind, bind_assoc, Act.cells_bind hcells]
    exact Act.itemIndex_bind_succeeds_iff fun k ↦ ⟨_, _, rfl⟩
  | null | int | double | bool => cases h

section
variable {r size : Nat} (h : (Value.ref r).items? m.store = some size) (i : Int32)
include h

theorem getItem_succeeds_iff :
    Op.getItem.Succeeds (m.withOperands (.int i :: .ref r :: vs)) ↔
      0 ≤ i.toInt ∧ i.toInt < size := by
  refine ((Op.Does.getItem (.ref r) (.int i)).succeeds_iff vs).trans ?_
  obtain ⟨cells, hcells, rfl⟩ := Value.cells_of_items? h
  simp only [Act.getItem, Act.asInt, Act.asRef, Act.item, pure_bind, bind_assoc,
    Act.cells_bind hcells]
  exact Act.itemIndex_bind_succeeds_iff fun k ↦ ⟨_, _, rfl⟩

theorem setItem_succeeds_iff (v : Value) :
    Op.setItem.Succeeds (m.withOperands (v :: .int i :: .ref r :: vs)) ↔
      0 ≤ i.toInt ∧ i.toInt < size := by
  refine ((Op.Does.setItem (.ref r) (.int i) v).succeeds_iff vs).trans ?_
  obtain ⟨cells, hcells, rfl⟩ := Value.cells_of_items? h
  simp only [Act.setItem, Act.asInt, Act.asRef, pure_bind, bind_assoc, Act.cells_bind hcells]
  exact Act.itemIndex_bind_succeeds_iff fun k ↦ ⟨_, _, rfl⟩

end

end Machine

/-! ## Characters -/

/-- The characters of a string, each as a text. -/
def characters (s : String) : List String :=
  s.toList.map String.singleton

theorem length_characters (s : String) : (characters s).length = s.length := by
  rw [characters, List.length_map, String.length_toList]

theorem join_characters (s : String) : String.join (characters s) = s := by
  rw [← String.toList_inj, String.toList_join, characters, List.flatMap_map]
  simp only [String.toList_singleton, List.flatMap_singleton']

theorem copy_take_drop_of_getElem? {s c : String} {k : Nat} (h : (characters s)[k]? = some c) :
    ((s.drop k).take 1).copy = c := by
  rw [characters, List.getElem?_map, Option.map_eq_some_iff] at h
  obtain ⟨ch, hch, rfl⟩ := h
  have htoList : ((s.drop k).take 1).copy.toList = (s.toList.drop k).take 1 := by simp
  rw [← String.toList_inj, htoList, List.take_one, List.head?_drop, hch, String.toList_singleton]
  rfl

namespace Machine

variable {m : Machine} {vs : List Value}

/-- The item at an index of a string is the character there. -/
theorem element_exec_of_str {s c : String} {k : Nat} (h : (characters s)[k]? = some c)
    (hword : k < 2 ^ 31) :
    Op.element.exec (m.withOperands (.int (Int32.ofNat k) :: .str s :: vs)) =
      .ok () (m.withOperands (.str c :: vs)) := by
  have hk : k < s.length := by
    rw [← length_characters]
    exact (List.getElem?_eq_some_iff.mp h).1
  have hact : (do return [← Act.element (.str s) (.int (Int32.ofNat k))] : Act (List Value))
      m.world = .ok [.str c] m.world := by
    simp only [Act.element, Act.asInt, Act.character, pure_bind,
      Act.itemIndex_of_lt (Int32.toInt_ofNat_of_lt hword) hk, copy_take_drop_of_getElem? h]
    rfl
  exact (Op.Does.element (.str s) (.int (Int32.ofNat k))).exec_of_ok vs hact

/-! ## Arrays are short -/

theorem runFor_arraysWithin (h : m.store.ArraysWithin (2 ^ 31 - 1)) (n : Nat) :
    (m.runFor n).2.store.ArraysWithin (2 ^ 31 - 1) := by
  refine runFor_induction (P := fun m ↦ m.store.ArraysWithin (2 ^ 31 - 1))
    (Q := fun _ m ↦ m.store.ArraysWithin (2 ^ 31 - 1)) (fun _ h ↦ h) ?_ n m h
  intro m₁ h₁ st m₂ hstep
  have h₂ := step_arraysWithin (fun size _ hword ↦ by omega) h₁
  rw [hstep] at h₂
  split <;> exact h₂

/-- Whatever has been done to a machine, the size of an array is a word. -/
theorem performAll_arraysWithin (h : m.store.ArraysWithin (2 ^ 31 - 1)) (events : List Event) :
    (m.performAll events).store.ArraysWithin (2 ^ 31 - 1) := by
  induction events generalizing m with
  | nil => exact h
  | cons e events ih =>
    refine ih ?_
    rcases m.perform_cases e with hstore | ⟨n, m', -, -, hstore, hrun⟩
    · rw [hstore]
      exact h
    · rw [hrun]
      exact runFor_arraysWithin (hstore ▸ h) n

theorem lt_of_items? {r size : Nat} (h : m.store.ArraysWithin (2 ^ 31 - 1))
    (hitems : (Value.ref r).items? m.store = some size) : size < 2 ^ 31 := by
  obtain ⟨cells, hcells, rfl⟩ := Value.cells_of_items? hitems
  have hle := h r cells (Store.get?_of_cells hcells)
  omega

/-! ## Sizes as words -/

theorem lt_size_iff {size : Nat} (h : size < 2 ^ 31) (i : Int32) :
    0 ≤ i.toInt ∧ i.toInt < size ↔ 0 ≤ i ∧ i < Int32.ofNat size := by
  rw [Int32.le_iff_toInt_le, Int32.lt_iff_toInt_lt, Int32.toInt_zero, Int32.toInt_ofNat_of_lt h]

/-- The last index is less than such a number of items, but not less than any word. -/
theorem not_lt_size_iff {size : Nat} (h : 2 ^ 31 ≤ size) :
    ∃ i : Int32, ¬ (0 ≤ i.toInt ∧ i.toInt < size ↔ 0 ≤ i ∧ i < Int32.ofNat size) := by
  refine ⟨Int32.maxValue, fun hiff ↦ ?_⟩
  have hmax : Int32.maxValue.toInt = 2 ^ 31 - 1 := rfl
  have hlast := (hiff.mp ⟨by omega, by omega⟩).2
  have hword := (Int32.ofNat size).toInt_lt
  rw [Int32.lt_iff_toInt_lt] at hlast
  omega

/-- **The size says which indices there are.** Let a machine have gone through any events, and let a
value have a size that is the word `n`.
* It has an item exactly at the indices from 0 on that are less than `n`, unless it is a string with
  more characters than a word can say, and then that is false.
* The items of an array can be read and set at these indices.
* The characters of such a string at these indices, one after the other, are the string. -/
theorem size_bounds_indices (limits : Limits) (input : List UInt8) (events : List Event) :
    let m := (fresh limits input).performAll events
    ∀ (x : Value) (vs : List Value) (n : Int32),
      Op.size.exec (m.withOperands (x :: vs)) = .ok () (m.withOperands (.int n :: vs)) →
      ((∀ i : Int32, Op.element.Succeeds (m.withOperands (.int i :: x :: vs)) ↔ 0 ≤ i ∧ i < n) ↔
        ∀ s, x = .str s → s.length < 2 ^ 31) ∧
      (∀ r, x = .ref r → ∀ (i : Int32) (v : Value),
        (Op.getItem.Succeeds (m.withOperands (.int i :: x :: vs)) ↔ 0 ≤ i ∧ i < n) ∧
        (Op.setItem.Succeeds (m.withOperands (v :: .int i :: x :: vs)) ↔ 0 ≤ i ∧ i < n)) ∧
      ∀ s, x = .str s → s.length < 2 ^ 31 →
        ∃ cs : List String, cs.length = n.toInt ∧ String.join cs = s ∧
          ∀ (k : Nat) (c : String), cs[k]? = some c →
            Op.element.exec (m.withOperands (.int (Int32.ofNat k) :: x :: vs)) =
              .ok () (m.withOperands (.str c :: vs)) := by
  intro m x vs n hexec
  have harrays : m.store.ArraysWithin (2 ^ 31 - 1) :=
    performAll_arraysWithin (Store.arraysWithin_empty _) events
  obtain ⟨size, hitems, rfl⟩ := exists_items?_of_size_exec hexec
  -- An array is never too long, and of a string that is the question.
  have harray : ∀ r, x = .ref r → size < 2 ^ 31 := by
    rintro r rfl
    exact lt_of_items? harrays hitems
  have hstring : ∀ s, x = .str s → size = s.length := by
    rintro s rfl
    exact (Option.some.inj hitems).symm
  refine ⟨⟨fun hall s hx ↦ ?_, fun hshort i ↦ ?_⟩, fun r hx i v ↦ ?_, fun s hx hshort ↦ ?_⟩
  · by_contra hlong
    obtain ⟨i, hi⟩ := not_lt_size_iff (hstring s hx ▸ Nat.le_of_not_lt hlong)
    exact hi ((element_succeeds_iff hitems i).symm.trans (hall i))
  · have hword : size < 2 ^ 31 := by
      cases x with
      | str s => exact hstring s rfl ▸ hshort s rfl
      | ref r => exact harray r rfl
      | null | int | double | bool => cases hitems
    exact (element_succeeds_iff hitems i).trans (lt_size_iff hword i)
  · subst hx
    have hsize := lt_size_iff (harray r rfl) i
    exact ⟨(getItem_succeeds_iff hitems i).trans hsize,
      (setItem_succeeds_iff hitems i v).trans hsize⟩
  · have hsize := hstring s hx
    subst hx
    refine ⟨characters s, ?_, join_characters s, fun k c hc ↦ ?_⟩
    · rw [hsize, Int32.toInt_ofNat_of_lt hshort, length_characters]
    · refine element_exec_of_str hc ?_
      have hk := (List.getElem?_eq_some_iff.mp hc).1
      rw [length_characters] at hk
      omega

/-- A machine that has made an array of three cells, and a text of two characters and three
bytes. -/
theorem size_bounds_indices_three :
    let m := (fresh Limits.standard []).performAll
      [.register ⟨"main", #[.plain (.push (.int 3)), .plain .newArray, .plain .ret]⟩, .run 9]
    Op.size.exec (m.withOperands [.ref 1]) = .ok () (m.withOperands [.int 3]) ∧
      (∀ i : Int32, Op.getItem.Succeeds (m.withOperands [.int i, .ref 1]) ↔ 0 ≤ i ∧ i < 3) ∧
      Op.size.exec (m.withOperands [.str "né"]) = .ok () (m.withOperands [.int 2]) ∧
      ∀ i : Int32, Op.element.Succeeds (m.withOperands [.int i, .str "né"]) ↔ 0 ≤ i ∧ i < 2 := by
  intro m
  have harray : Op.size.exec (m.withOperands [.ref 1]) = .ok () (m.withOperands [.int 3]) :=
    size_exec (by rfl)
  have hstring : Op.size.exec (m.withOperands [.str "né"]) = .ok () (m.withOperands [.int 2]) :=
    size_exec (by rfl)
  obtain ⟨-, hitems, -⟩ := size_bounds_indices _ _ _ _ _ _ harray
  obtain ⟨hchars, -, -⟩ := size_bounds_indices _ _ _ _ _ _ hstring
  refine ⟨harray, fun i ↦ (hitems 1 rfl i .null).1, hstring, hchars.mpr fun s hs ↦ ?_⟩
  cases hs
  decide

/-- The size of a string with `2 ^ 31` characters is negative, and still it has a first
character. -/
theorem size_negative_of_long_string :
    let m := fresh Limits.standard []
    let s := String.ofList (List.replicate (2 ^ 31) 'a')
    Op.size.exec (m.withOperands [.str s]) = .ok () (m.withOperands [.int (-2147483648)]) ∧
      Op.element.Succeeds (m.withOperands [.int 0, .str s]) ∧
      ¬ (0 : Int32) < -2147483648 := by
  intro m s
  have hlength : s.length = 2 ^ 31 := by
    rw [String.length_ofList, List.length_replicate]
  have hitems : (Value.str s).items? m.store = some (2 ^ 31) := congrArg some hlength
  refine ⟨size_exec hitems, ?_, by decide⟩
  exact (element_succeeds_iff hitems 0).mpr (by decide)

end Machine

end Pebble
