import Mathlib.Tactic.Common
import Pebble.Code.Slots
import Pebble.Typing

/-!
# Slots and nested scopes

A slot table is one list of names; a stack of scopes is a list of lists. Both hand out variables
from the innermost one outwards, and the table of a stack of scopes is the stack laid flat, with
the place of each border kept. This holds of scopes of types as well as of scopes of values, so
the scopes here are lists of names with anything attached.

The slot of a variable is the number of variables declared before it. With the bindings laid flat,
innermost first, that is an index into the reversed list.
-/

namespace Pebble

namespace SlotTable

variable {α : Type}

/-- How many variables there are outside of each scope, the innermost scope first. -/
def marksOf : List (List (String × α)) → List Nat
  | [] => []
  | _ :: outer => outer.flatten.length :: marksOf outer

/-- The variables of a stack of scopes, the innermost scope first. -/
def ofStack (stack : List (List (String × α))) : SlotTable :=
  ⟨stack.flatten.map Prod.fst, marksOf stack⟩

theorem push_ofStack (stack : List (List (String × α))) :
    (ofStack stack).push = ofStack ([] :: stack) := by
  rw [push, ofStack, List.length_map]
  rfl

theorem declare_ofStack (scope : List (String × α)) (outer : List (List (String × α)))
    (x : String) (a : α) :
    (ofStack (scope :: outer)).declare x = ofStack (((x, a) :: scope) :: outer) := by
  simp [ofStack, declare, marksOf]

theorem next_ofStack (stack : List (List (String × α))) :
    (ofStack stack).next = stack.flatten.length := by
  rw [next, ofStack, List.length_map]

/-- The slot of a variable leads to its innermost binding. -/
theorem slotIn?_eq_some {x : String} {k : Nat} {bs : List (String × α)}
    (h : slotIn? x (bs.map Prod.fst) = some k) :
    ∃ a, bs.lookup x = some a ∧ bs.reverse[k]? = some (x, a) := by
  induction bs with
  | nil => cases h
  | cons b bs ih =>
    obtain ⟨y, a⟩ := b
    rw [List.map_cons, slotIn?] at h
    by_cases hy : y = x
    · rw [if_pos hy, Option.some.injEq, List.length_map] at h
      subst hy h
      refine ⟨a, by simp, ?_⟩
      rw [List.reverse_cons, List.getElem?_append_right (by simp)]
      simp
    · rw [if_neg hy] at h
      obtain ⟨a', hlook, hget⟩ := ih h
      have hne : (x == y) = false := by simpa using fun hxy : x = y ↦ hy hxy.symm
      refine ⟨a', by rw [List.lookup_cons, hne]; exact hlook, ?_⟩
      rw [List.reverse_cons, List.getElem?_append_left]
      · exact hget
      · exact (List.getElem?_eq_some_iff.mp hget).1

/-- A bound variable has a slot. -/
theorem slotIn?_isSome {x : String} {a : α} {bs : List (String × α)}
    (h : bs.lookup x = some a) : ∃ k, slotIn? x (bs.map Prod.fst) = some k := by
  induction bs with
  | nil => cases h
  | cons b bs ih =>
    obtain ⟨y, a'⟩ := b
    rw [List.map_cons, slotIn?]
    by_cases hy : y = x
    · exact ⟨_, if_pos hy⟩
    · have hne : (x == y) = false := by simpa using fun hxy : x = y ↦ hy hxy.symm
      rw [List.lookup_cons, hne] at h
      rw [if_neg hy]
      exact ih h

end SlotTable

/-- Looking a name up scope by scope is looking it up in the scopes laid flat. -/
theorem findSome?_lookup_eq {α : Type} (x : String) (stack : List (List (String × α))) :
    stack.findSome? (·.lookup x) = stack.flatten.lookup x := by
  induction stack with
  | nil => rfl
  | cons scope outer ih =>
    rw [List.findSome?_cons, List.flatten_cons, List.lookup_append, ← ih]
    cases scope.lookup x <;> rfl

namespace Scopes

/-- All bindings, the innermost first. -/
def bindings (s : Scopes) : List (String × Ty) := s.stack.flatten

theorem lookup_eq (s : Scopes) (x : String) : s.lookup x = s.bindings.lookup x :=
  findSome?_lookup_eq x s.stack

end Scopes

end Pebble
