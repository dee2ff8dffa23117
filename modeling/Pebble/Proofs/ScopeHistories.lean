import Mathlib.Data.List.Induction
import Mathlib.Data.List.Nodup
import Mathlib.Data.Set.Function
import Mathlib.Order.Interval.Set.Defs
import Mathlib.Tactic.Common
import Pebble.Proofs.Scoping

/-!
# Variables along a history of scopes

Scopes of types are a stack with a list of names for each scope that is open. A slot table is one
list of names, and closing a scope cuts it off where the scope began. If the same steps are taken on
both, they agree on every name: it has a slot exactly if it has a type, and both are those of the
innermost declaration whose scope is still open.

## Declarations

A name can be declared many times, and two declarations can have the same type. So a declaration
is a step of the history, known by its index, and what both tables say is compared with the history.
Whether the scope of a declaration is still open depends only on the steps behind it (`IsOpen`), and
the slot it was given only on the steps before it (`slotGiven`).

## The construction

The stack of scopes can also be filled with the numbers of the declarations (`numbered`). With the
numbers left out it is the stack of types, and laid flat it is the slot table. Its bindings are the
open declarations, from the last one to the first.
-/

namespace Pebble

/-- A step that changes which variables there are. -/
inductive ScopeStep where
  | push
  | declare (x : String) (t : Ty)
  | pop

namespace ScopeStep

def onTable (t : SlotTable) : ScopeStep → SlotTable
  | push => t.push
  | declare x _ => t.declare x
  | pop => t.pop

def onScopes (s : Scopes) : ScopeStep → Scopes
  | push => s.push
  | declare x t => s.declare x t
  | pop => s.pop

/-- How many scopes are open inside of a scope that had `level` of them, unless it is closed
itself. -/
def level? : Nat → ScopeStep → Option Nat
  | level, push => some (level + 1)
  | level, declare _ _ => some level
  | 0, pop => none
  | level + 1, pop => some level

end ScopeStep

namespace ScopeHistory

/-- The slot table after these steps. -/
def tableAfter (h : List ScopeStep) : SlotTable := h.foldl ScopeStep.onTable .empty

/-- The scopes after these steps. -/
def scopesAfter (h : List ScopeStep) : Scopes := h.foldl ScopeStep.onScopes .empty

/-- How many scopes these steps leave open inside of the one they begin in, unless they close that
one too. -/
def level? (h : List ScopeStep) : Option Nat := h.foldlM ScopeStep.level? 0

/-- Step `i` declares a variable, and its scope is still open. So are `level` scopes inside of
that one. -/
structure IsOpen (h : List ScopeStep) (i : Nat) (x : String) (t : Ty) (level : Nat) : Prop where
  declares : h[i]? = some (.declare x t)
  level : level? (h.drop (i + 1)) = some level

/-- Among the open declarations of a name, that of step `i` is in the innermost scope. -/
def IsInnermost (h : List ScopeStep) (i : Nat) (x : String) (t : Ty) : Prop :=
  ∃ level, IsOpen h i x t level ∧
    ∀ j u level', IsOpen h j x u level' → j ≠ i → level < level'

/-- The slot that the declaration in step `i` was given. -/
def slotGiven (h : List ScopeStep) (i : Nat) : Nat := (tableAfter (h.take i)).next

/-- The steps open and close scopes in order and declare each variable in a scope that does not
have the name. -/
structure Admissible (h : List ScopeStep) : Prop where
  bracketed : ∃ level, level? h = some level
  inScope : ∀ i x t, h[i]? = some (.declare x t) → level? (h.take i) ≠ some 0
  fresh : ∀ i x t, h[i]? = some (.declare x t) → (scopesAfter (h.take i)).declaredHere x = false

/-! ## Levels -/

section
variable {h : List ScopeStep} {n level : Nat}

theorem level?_append (h h' : List ScopeStep) :
    level? (h ++ h') = (level? h).bind fun level ↦ h'.foldlM ScopeStep.level? level :=
  List.foldlM_append

theorem level?_concat (h : List ScopeStep) (step : ScopeStep) :
    level? (h ++ [step]) = (level? h).bind fun level ↦ ScopeStep.level? level step := by
  rw [level?_append]
  congr
  funext level
  exact bind_pure _

theorem level?_take (hh : level? h = some level) (n : Nat) :
    ∃ level', level? (h.take n) = some level' := by
  rw [← List.take_append_drop n h, level?_append] at hh
  obtain ⟨level', hlevel, -⟩ := Option.bind_eq_some_iff.mp hh
  exact ⟨level', hlevel⟩

end

/-! ## Histories step by step -/

section
variable {h : List ScopeStep} {step : ScopeStep} {i n level : Nat} {x : String} {t : Ty}

theorem tableAfter_concat (h : List ScopeStep) (step : ScopeStep) :
    tableAfter (h ++ [step]) = step.onTable (tableAfter h) := by
  rw [tableAfter, List.foldl_append]
  rfl

theorem scopesAfter_concat (h : List ScopeStep) (step : ScopeStep) :
    scopesAfter (h ++ [step]) = step.onScopes (scopesAfter h) := by
  rw [scopesAfter, List.foldl_append]
  rfl

theorem Admissible.take (hh : Admissible h) (n : Nat) : Admissible (h.take n) := by
  obtain ⟨level, hlevel⟩ := hh.bracketed
  have hearlier : ∀ {i x t}, (h.take n)[i]? = some (.declare x t) →
      h[i]? = some (.declare x t) ∧ (h.take n).take i = h.take i := by
    intro i x t hi
    rw [List.getElem?_take] at hi
    split at hi
    · next hlt => exact ⟨hi, by rw [List.take_take, Nat.min_eq_left hlt.le]⟩
    · cases hi
  refine ⟨level?_take hlevel n, fun i x t hi ↦ ?_, fun i x t hi ↦ ?_⟩
  · rw [(hearlier hi).2]
    exact hh.inScope i x t (hearlier hi).1
  · rw [(hearlier hi).2]
    exact hh.fresh i x t (hearlier hi).1

theorem Admissible.of_concat (hh : Admissible (h ++ [step])) : Admissible h := by
  have htake := hh.take h.length
  rwa [List.take_left] at htake

theorem IsOpen.lt (hi : IsOpen h i x t level) : i < h.length :=
  (List.getElem?_eq_some_iff.mp hi.declares).1

theorem IsOpen.take (hi : IsOpen h i x t level) (hlt : i < n) :
    ∃ level', IsOpen (h.take n) i x t level' := by
  have hprefix : (h.take n).drop (i + 1) = (h.drop (i + 1)).take (n - (i + 1)) := List.drop_take
  obtain ⟨level', hlevel⟩ := level?_take hi.level (n - (i + 1))
  exact ⟨level', by rw [List.getElem?_take_of_lt hlt, hi.declares], hprefix ▸ hlevel⟩

end

/-! ## Numbered scopes -/

end ScopeHistory

/-- What a step does to a stack of scopes in which a variable of type `t` stands with `tag t`. -/
def ScopeStep.onStack {α : Type} (tag : Ty → α) (stack : List (List (String × α))) :
    ScopeStep → List (List (String × α))
  | push => [] :: stack
  | declare x t => match stack with
    | [] => []
    | scope :: outer => ((x, tag t) :: scope) :: outer
  | pop => stack.tail

theorem SlotTable.pop_ofStack {α : Type} (stack : List (List (String × α))) :
    (ofStack stack).pop = ofStack stack.tail := by
  cases stack with
  | nil => rfl
  | cons scope outer =>
    simp only [ofStack, pop, marksOf, List.flatten_cons, List.tail_cons, List.length_map,
      List.length_append, Nat.add_sub_cancel]
    rw [← List.map_drop, List.drop_left]

namespace ScopeStep

variable {α β : Type} {stack : List (List (String × α))}

/-- A slot table takes a step like the stack of which it is made. -/
theorem onTable_ofStack (tag : Ty → α) (step : ScopeStep)
    (hscope : ∀ x t, step = .declare x t → stack ≠ []) :
    step.onTable (.ofStack stack) = .ofStack (step.onStack tag stack) := by
  cases step with
  | push => exact SlotTable.push_ofStack stack
  | pop => exact SlotTable.pop_ofStack stack
  | declare x t =>
    cases stack with
    | nil => exact absurd rfl (hscope x t rfl)
    | cons scope outer => exact SlotTable.declare_ofStack scope outer x (tag t)

theorem stack_onScopes (s : Scopes) (step : ScopeStep) :
    (step.onScopes s).stack = step.onStack id s.stack := by
  cases step with
  | push | pop => rfl
  | declare x t =>
    rw [onScopes, Scopes.declare]
    cases h : s.stack with
    | nil => exact h
    | cons => rfl

theorem map_onStack (tag : Ty → α) (f : α → β) (stack : List (List (String × α)))
    (step : ScopeStep) :
    (step.onStack tag stack).map (List.map (Prod.map id f)) =
      step.onStack (f ∘ tag) (stack.map (List.map (Prod.map id f))) := by
  cases step with
  | push => rfl
  | pop => exact List.map_tail
  | declare x t => cases stack <;> rfl

end ScopeStep

namespace ScopeHistory

/-- The stack of scopes after these steps, each variable with the number of its declaration and its
type. -/
def numbered (h : List ScopeStep) : List (List (String × Nat × Ty)) :=
  h.zipIdx.foldl (fun stack step ↦ step.1.onStack (step.2, ·) stack) []

section
variable {h : List ScopeStep} {step : ScopeStep} {i n level : Nat} {x : String} {t : Ty}

theorem numbered_concat (h : List ScopeStep) (step : ScopeStep) :
    numbered (h ++ [step]) = step.onStack (h.length, ·) (numbered h) := by
  rw [numbered, List.zipIdx_append, List.foldl_append, Nat.zero_add]
  rfl

theorem stack_scopesAfter (h : List ScopeStep) :
    (scopesAfter h).stack = (numbered h).map (List.map (Prod.map id Prod.snd)) := by
  induction h using List.reverseRecOn with
  | nil => rfl
  | append_singleton h step ih =>
    rw [scopesAfter_concat, ScopeStep.stack_onScopes, ih, numbered_concat, ScopeStep.map_onStack]
    rfl

theorem length_numbered (hlevel : level? h = some level) : (numbered h).length = level := by
  induction h using List.reverseRecOn generalizing level with
  | nil => exact Option.some.inj hlevel
  | append_singleton h step ih =>
    rw [level?_concat] at hlevel
    obtain ⟨level', hlevel', hstep⟩ := Option.bind_eq_some_iff.mp hlevel
    have hlength := ih hlevel'
    rw [numbered_concat]
    cases step with
    | push =>
      cases hstep
      exact congrArg (· + 1) hlength
    | declare x t =>
      cases hstep
      cases hstack : numbered h <;> rwa [hstack] at hlength
    | pop =>
      obtain _ | level' := level'
      · cases hstep
      · cases hstep
        rw [ScopeStep.onStack, List.length_tail, hlength, Nat.add_sub_cancel]

theorem Admissible.numbered_ne_nil (hh : Admissible (h ++ [.declare x t])) : numbered h ≠ [] := by
  intro hnil
  obtain ⟨level, hlevel⟩ := hh.of_concat.bracketed
  have hlength := length_numbered hlevel
  rw [hnil] at hlength
  refine hh.inScope h.length x t (by simp) ?_
  rw [List.take_left, hlevel, ← hlength]
  rfl

theorem Admissible.tableAfter_eq (hh : Admissible h) : tableAfter h = .ofStack (numbered h) := by
  induction h using List.reverseRecOn with
  | nil => rfl
  | append_singleton h step ih =>
    rw [tableAfter_concat, numbered_concat, ih hh.of_concat]
    refine ScopeStep.onTable_ofStack _ step ?_
    rintro x t rfl
    exact hh.numbered_ne_nil

/-! ## Open declarations -/

/-- A declaration is open after one more step if it is made by this step, or was open before and its
scope has not been closed. -/
theorem isOpen_concat :
    IsOpen (h ++ [step]) i x t level ↔
      (i = h.length ∧ step = .declare x t ∧ level = 0) ∨
        ∃ level', IsOpen h i x t level' ∧ ScopeStep.level? level' step = some level := by
  -- The declaration was made before this step, by it, or not at all.
  rcases Nat.lt_trichotomy i h.length with hlt | rfl | hgt
  · have hdrop : (h ++ [step]).drop (i + 1) = h.drop (i + 1) ++ [step] :=
      List.drop_append_of_le_length hlt
    constructor
    · rintro ⟨hi, hlevel⟩
      rw [List.getElem?_append_left hlt] at hi
      rw [hdrop, level?_concat] at hlevel
      obtain ⟨level', hlevel', hstep⟩ := Option.bind_eq_some_iff.mp hlevel
      exact .inr ⟨level', ⟨hi, hlevel'⟩, hstep⟩
    · rintro (⟨rfl, -⟩ | ⟨level', hi, hstep⟩)
      · exact absurd hlt (Nat.lt_irrefl _)
      · refine ⟨by rw [List.getElem?_append_left hlt, hi.declares], ?_⟩
        rw [hdrop, level?_concat, hi.level]
        exact hstep
  · have hget : (h ++ [step])[h.length]? = some step := by simp
    have hdrop : (h ++ [step]).drop (h.length + 1) = [] := by simp
    constructor
    · rintro ⟨hi, hlevel⟩
      rw [hget] at hi
      rw [hdrop] at hlevel
      exact .inl ⟨rfl, Option.some.inj hi, (Option.some.inj hlevel).symm⟩
    · rintro (⟨-, rfl, rfl⟩ | ⟨level', hi, -⟩)
      · exact ⟨hget, by rw [hdrop]; rfl⟩
      · exact absurd hi.lt (Nat.lt_irrefl _)
  · constructor
    · intro hi
      have hlt := hi.lt
      rw [List.length_append, List.length_singleton] at hlt
      omega
    · rintro (⟨rfl, -⟩ | ⟨level', hi, -⟩)
      · exact absurd hgt (Nat.lt_irrefl _)
      · exact absurd hi.lt (Nat.lt_asymm hgt)

/-- The open declarations are those on the stack, each as deep as its scope. -/
theorem Admissible.isOpen_iff (hh : Admissible h) :
    IsOpen h i x t level ↔ ∃ scope, (numbered h)[level]? = some scope ∧ (x, i, t) ∈ scope := by
  induction h using List.reverseRecOn generalizing level with
  | nil => exact iff_of_false (fun hi ↦ absurd hi.lt (Nat.not_lt_zero _)) (by simp [numbered])
  | append_singleton h step ih =>
    have ih : ∀ level, IsOpen h i x t level ↔
        ∃ scope, (numbered h)[level]? = some scope ∧ (x, i, t) ∈ scope :=
      fun level ↦ ih hh.of_concat
    rw [isOpen_concat, numbered_concat]
    cases step with
    | push =>
      cases level with
      | zero => simp [ScopeStep.onStack, ScopeStep.level?]
      | succ level => simp [ScopeStep.onStack, ScopeStep.level?, ih]
    | pop =>
      have hpop : ∀ level', ScopeStep.level? level' .pop = some level ↔ level' = level + 1 := by
        rintro (_ | level') <;> simp [ScopeStep.level?]
      simp [ScopeStep.onStack, hpop, ih]
    | declare y u =>
      obtain ⟨scope, outer, hstack⟩ := List.exists_cons_of_ne_nil hh.numbered_ne_nil
      simp only [hstack] at ih ⊢
      cases level with
      | zero =>
        have hnew : i = h.length ∧ (y = x ∧ u = t) ↔ x = y ∧ i = h.length ∧ t = u := by
          rw [eq_comm (a := y), eq_comm (a := u), and_left_comm]
        simp [ScopeStep.onStack, ScopeStep.level?, ih, hnew]
      | succ level => simp [ScopeStep.onStack, ScopeStep.level?, ih]

theorem Admissible.mem_flatten_iff (hh : Admissible h) :
    (x, i, t) ∈ (numbered h).flatten ↔ ∃ level, IsOpen h i x t level := by
  simp only [hh.isOpen_iff, List.mem_flatten]
  constructor
  · rintro ⟨scope, hscope, hmem⟩
    obtain ⟨level, hlevel⟩ := List.mem_iff_getElem?.mp hscope
    exact ⟨level, scope, hlevel, hmem⟩
  · rintro ⟨level, scope, hlevel, hmem⟩
    exact ⟨scope, List.mem_of_getElem? hlevel, hmem⟩

/-! ## Slots -/

/-- Behind an open declaration stand the variables there were when it was made. -/
theorem Admissible.flatten_numbered_take (hh : Admissible h)
    {inner outer : List (String × Nat × Ty)}
    (hsplit : (numbered h).flatten = inner ++ (x, i, t) :: outer) :
    (numbered (h.take i)).flatten = outer := by
  induction h using List.reverseRecOn generalizing inner with
  | nil => simp [numbered] at hsplit
  | append_singleton h step ih =>
    -- A declaration that was on the stack before this step was made before it.
    have hearlier : ∀ inner, (numbered h).flatten = inner ++ (x, i, t) :: outer →
        (numbered ((h ++ [step]).take i)).flatten = outer := by
      intro inner hsplit
      have hmem : (x, i, t) ∈ (numbered h).flatten := by simp [hsplit]
      obtain ⟨level, hi⟩ := hh.of_concat.mem_flatten_iff.mp hmem
      rw [List.take_append_of_le_length hi.lt.le]
      exact ih hh.of_concat hsplit
    rw [numbered_concat] at hsplit
    cases step with
    | push => exact hearlier inner hsplit
    | pop =>
      cases hstack : numbered h with
      | nil => simp [hstack, ScopeStep.onStack] at hsplit
      | cons scope stack =>
        rw [hstack] at hsplit
        refine hearlier (scope ++ inner) ?_
        rw [hstack, List.flatten_cons, List.append_assoc, ← hsplit]
        rfl
    | declare y u =>
      obtain ⟨scope, stack, hstack⟩ := List.exists_cons_of_ne_nil hh.numbered_ne_nil
      have hflatten : (y, h.length, u) :: (numbered h).flatten = inner ++ (x, i, t) :: outer := by
        rw [← hsplit, hstack]
        rfl
      cases inner with
      | nil =>
        injection hflatten with hnew hold
        cases hnew
        rw [List.take_left, hold]
      | cons b inner =>
        injection hflatten with _ hold
        exact hearlier _ hold

theorem Admissible.slotGiven_eq (hh : Admissible h) {inner outer : List (String × Nat × Ty)}
    (hsplit : (numbered h).flatten = inner ++ (x, i, t) :: outer) :
    slotGiven h i = outer.length := by
  rw [slotGiven, (hh.take i).tableAfter_eq, SlotTable.next_ofStack, hh.flatten_numbered_take hsplit]

/-- The slot that a declaration was given is its place among the open ones. -/
theorem Admissible.getElem?_slotGiven (hh : Admissible h) (hi : IsOpen h i x t level) :
    (numbered h).flatten.reverse[slotGiven h i]? = some (x, i, t) := by
  obtain ⟨inner, outer, hsplit⟩ := List.append_of_mem (hh.mem_flatten_iff.mpr ⟨level, hi⟩)
  rw [hh.slotGiven_eq hsplit, hsplit]
  simp

/-- At every place among the open declarations stands one that was given this slot. -/
theorem Admissible.isOpen_of_getElem? (hh : Admissible h) {k : Nat}
    (hk : (numbered h).flatten.reverse[k]? = some (x, i, t)) :
    (∃ level, IsOpen h i x t level) ∧ slotGiven h i = k := by
  obtain ⟨hlt, hb⟩ := List.getElem?_eq_some_iff.mp hk
  have hsplit : (numbered h).flatten = ((numbered h).flatten.reverse.drop (k + 1)).reverse ++
      (x, i, t) :: ((numbered h).flatten.reverse.take k).reverse := by
    rw [← List.reverse_inj, List.reverse_append, List.reverse_cons, List.reverse_reverse,
      List.reverse_reverse, ← hb, List.append_assoc, List.singleton_append,
      ← List.drop_eq_getElem_cons hlt, List.take_append_drop]
  refine ⟨hh.mem_flatten_iff.mp (List.mem_reverse.mp (List.mem_of_getElem? hk)), ?_⟩
  rw [hh.slotGiven_eq hsplit, List.length_reverse, List.length_take, Nat.min_eq_left hlt.le]

theorem Admissible.next_eq (hh : Admissible h) :
    (tableAfter h).next = (numbered h).flatten.length := by
  rw [hh.tableAfter_eq, SlotTable.next_ofStack]

/-- The open declarations have the slots from the first to the last, each one its own. -/
theorem Admissible.bijOn_slotGiven (hh : Admissible h) :
    Set.BijOn (slotGiven h) {i | ∃ x t level, IsOpen h i x t level}
      (Set.Iio (tableAfter h).next) := by
  rw [hh.next_eq]
  refine ⟨?_, ?_, ?_⟩
  · rintro i ⟨x, t, level, hi⟩
    have hlt := (List.getElem?_eq_some_iff.mp (hh.getElem?_slotGiven hi)).1
    rwa [List.length_reverse] at hlt
  · rintro i ⟨x, t, level, hi⟩ j ⟨y, u, level', hj⟩ hslot
    have hget := hh.getElem?_slotGiven hi
    have hslot : slotGiven h i = slotGiven h j := hslot
    rw [hslot, hh.getElem?_slotGiven hj] at hget
    cases hget
    rfl
  · intro k hk
    have hk : k < (numbered h).flatten.reverse.length := by rwa [List.length_reverse]
    obtain ⟨hopen, hslot⟩ := hh.isOpen_of_getElem? (List.getElem?_eq_getElem hk)
    exact ⟨_, ⟨_, _, hopen⟩, hslot⟩

/-! ## Names -/

theorem lookup_map_snd {α β : Type} (f : α → β) (x : String) (bs : List (String × α)) :
    (bs.map (Prod.map id f)).lookup x = (bs.lookup x).map f := by
  induction bs with
  | nil => rfl
  | cons b bs ih =>
    rw [List.map_cons, List.lookup_cons, List.lookup_cons, ih, Prod.map_fst, id]
    cases x == b.1 <;> rfl

theorem lookup_scopesAfter (h : List ScopeStep) (x : String) :
    (scopesAfter h).lookup x = ((numbered h).findSome? (·.lookup x)).map Prod.snd := by
  rw [Scopes.lookup, stack_scopesAfter, List.findSome?_map, List.map_findSome?]
  exact congrArg (List.findSome? · _) (funext fun scope ↦ lookup_map_snd Prod.snd x scope)

theorem Admissible.nodup (hh : Admissible h) :
    ∀ scope ∈ numbered h, (scope.map Prod.fst).Nodup := by
  induction h using List.reverseRecOn with
  | nil => simp [numbered]
  | append_singleton h step ih =>
    have ih := ih hh.of_concat
    rw [numbered_concat]
    cases step with
    | push => exact List.forall_mem_cons.mpr ⟨List.nodup_nil, ih⟩
    | pop => exact fun scope hscope ↦ ih scope (List.mem_of_mem_tail hscope)
    | declare y u =>
      obtain ⟨scope, outer, hstack⟩ := List.exists_cons_of_ne_nil hh.numbered_ne_nil
      have hfresh := hh.fresh h.length y u (by simp)
      rw [List.take_left, Scopes.declaredHere, stack_scopesAfter, hstack] at hfresh
      rw [hstack] at ih ⊢
      obtain ⟨hscope, houter⟩ := List.forall_mem_cons.mp ih
      refine List.forall_mem_cons.mpr ⟨List.nodup_cons.mpr ⟨fun hy ↦ ?_, hscope⟩, houter⟩
      obtain ⟨b, hb, rfl⟩ := List.mem_map.mp hy
      have hnone : scope.lookup b.1 = none := by simpa [lookup_map_snd] using hfresh
      simpa using List.lookup_eq_none_iff.mp hnone b hb

/-- A name that is found on the stack is that of its innermost open declaration. -/
theorem Admissible.isInnermost_of_lookup (hh : Admissible h)
    (hfind : (numbered h).findSome? (·.lookup x) = some (i, t)) : IsInnermost h i x t := by
  obtain ⟨inner, scope, outer, hstack, hlookup, hinner⟩ := List.findSome?_eq_some_iff.mp hfind
  have hget : (numbered h)[inner.length]? = some scope := by simp [hstack]
  have hmem : (x, i, t) ∈ scope := by
    obtain ⟨before, after, rfl, -⟩ := List.lookup_eq_some_iff.mp hlookup
    simp
  refine ⟨inner.length, hh.isOpen_iff.mpr ⟨scope, hget, hmem⟩, fun j u level hj hne ↦ ?_⟩
  obtain ⟨scope', hget', hmem'⟩ := hh.isOpen_iff.mp hj
  rcases Nat.lt_trichotomy inner.length level with hlt | rfl | hgt
  · exact hlt
  · -- In one scope a name is declared only once.
    cases hget.symm.trans hget'
    have hnodup := hh.nodup scope (List.mem_of_getElem? hget)
    cases List.inj_on_of_nodup_map hnodup hmem hmem' rfl
    exact absurd rfl hne
  · -- Further in, the name has not been found.
    rw [hstack, List.getElem?_append_left hgt] at hget'
    have hnone := List.lookup_eq_none_iff.mp (hinner scope' (List.mem_of_getElem? hget')) _ hmem'
    simp at hnone

theorem Admissible.slot?_of_lookup (hh : Admissible h)
    (hfind : (numbered h).findSome? (·.lookup x) = some (i, t)) :
    (tableAfter h).slot? x = some (slotGiven h i) := by
  rw [findSome?_lookup_eq] at hfind
  obtain ⟨k, hk⟩ := SlotTable.slotIn?_isSome hfind
  obtain ⟨b, hb, hget⟩ := SlotTable.slotIn?_eq_some hk
  cases hfind.symm.trans hb
  rw [(hh.isOpen_of_getElem? hget).2, hh.tableAfter_eq]
  exact hk

theorem Admissible.slot?_of_lookup_none (hh : Admissible h)
    (hfind : (numbered h).findSome? (·.lookup x) = none) : (tableAfter h).slot? x = none := by
  rw [findSome?_lookup_eq] at hfind
  rw [hh.tableAfter_eq]
  refine Option.eq_none_iff_forall_ne_some.mpr fun k hk ↦ ?_
  obtain ⟨b, hb, -⟩ := SlotTable.slotIn?_eq_some hk
  cases hfind.symm.trans hb

theorem Admissible.not_isOpen_of_lookup_none (hh : Admissible h)
    (hfind : (numbered h).findSome? (·.lookup x) = none) (i : Nat) (t : Ty) (level : Nat) :
    ¬ IsOpen h i x t level := by
  intro hi
  rw [findSome?_lookup_eq] at hfind
  have hnone := List.lookup_eq_none_iff.mp hfind _ (hh.mem_flatten_iff.mpr ⟨level, hi⟩)
  simp at hnone

/-! ## Blocks -/

/-- Inside of a block the scopes around it stay as they are. -/
theorem numbered_block (h : List ScopeStep) {body : List ScopeStep}
    (hbody : level? body = some level) :
    ∃ inner, numbered (h ++ .push :: body) = inner ++ numbered h ∧ inner.length = level + 1 := by
  induction body using List.reverseRecOn generalizing level with
  | nil =>
    cases hbody
    exact ⟨[[]], numbered_concat h .push, rfl⟩
  | append_singleton body step ih =>
    rw [level?_concat] at hbody
    obtain ⟨level', hlevel', hstep⟩ := Option.bind_eq_some_iff.mp hbody
    obtain ⟨inner, hinner, hlength⟩ := ih hlevel'
    obtain ⟨scope, inner, rfl⟩ := List.exists_cons_of_length_eq_add_one hlength
    rw [← List.cons_append, ← List.append_assoc, numbered_concat, hinner]
    cases step with
    | push =>
      cases hstep
      exact ⟨[] :: scope :: inner, rfl, congrArg (· + 1) hlength⟩
    | declare x t =>
      cases hstep
      exact ⟨((x, _, t) :: scope) :: inner, rfl, hlength⟩
    | pop =>
      obtain _ | level' := level'
      · cases hstep
      · cases hstep
        exact ⟨inner, rfl, Nat.succ.inj hlength⟩

theorem Admissible.tableAfter_block (hh : Admissible h) {body : List ScopeStep}
    (hbody : level? body = some level) :
    tableAfter (h ++ .push :: body) = .ofStack (numbered (h ++ .push :: body)) := by
  induction body using List.reverseRecOn generalizing level with
  | nil => rw [tableAfter_concat, numbered_concat, hh.tableAfter_eq]; exact SlotTable.push_ofStack _
  | append_singleton body step ih =>
    rw [level?_concat] at hbody
    obtain ⟨level', hlevel', -⟩ := Option.bind_eq_some_iff.mp hbody
    obtain ⟨inner, hinner, hlength⟩ := numbered_block h hlevel'
    rw [← List.cons_append, ← List.append_assoc, tableAfter_concat, numbered_concat, ih hlevel']
    refine ScopeStep.onTable_ofStack _ step fun x t _ hnil ↦ ?_
    rw [hnil] at hinner
    obtain ⟨rfl, -⟩ := List.append_eq_nil_iff.mp hinner.symm
    cases hlength

/-- When a block is closed, the stack is what it was when the block was opened. -/
theorem numbered_closed (h : List ScopeStep) {body : List ScopeStep}
    (hbody : level? body = some 0) : numbered (h ++ .push :: body ++ [.pop]) = numbered h := by
  obtain ⟨inner, hinner, hlength⟩ := numbered_block h hbody
  obtain ⟨scope, rfl⟩ := List.length_eq_one_iff.mp hlength
  rw [numbered_concat, hinner]
  rfl

theorem Admissible.tableAfter_closed (hh : Admissible h) {body : List ScopeStep}
    (hbody : level? body = some 0) :
    tableAfter (h ++ .push :: body ++ [.pop]) = tableAfter h := by
  rw [tableAfter_concat, hh.tableAfter_block hbody,
    ScopeStep.onTable_ofStack ((h ++ .push :: body).length, ·) .pop (fun _ _ hpop ↦ nomatch hpop),
    ← numbered_concat, numbered_closed h hbody, hh.tableAfter_eq]

theorem scopesAfter_closed (h : List ScopeStep) {body : List ScopeStep}
    (hbody : level? body = some 0) :
    scopesAfter (h ++ .push :: body ++ [.pop]) = scopesAfter h := by
  have hstack : (scopesAfter (h ++ .push :: body ++ [.pop])).stack = (scopesAfter h).stack := by
    rw [stack_scopesAfter, numbered_closed h hbody, stack_scopesAfter]
  exact congrArg Scopes.mk hstack

end

/-- **Slots are variables.** Let scopes be opened and closed in order, and let no name be declared
twice in one scope. Then a slot table and a stack of scopes that went through the same steps agree.
* A name without an open declaration has neither a slot nor a type. Otherwise they are the slot
  and the type of its innermost open declaration.
* The open declarations have the slots from 0 on, as many as there are, and no two share one.
* A declaration keeps the slot it was given as long as its scope is open.
* When a scope is closed, both tables are what they were when it was opened. -/
theorem slots_refine_scopes {h : List ScopeStep} (hh : Admissible h) :
    (∀ x, ((tableAfter h).slot? x = none ∧ (scopesAfter h).lookup x = none ∧
          ∀ i t level, ¬ IsOpen h i x t level) ∨
        ∃ i t, IsInnermost h i x t ∧ (tableAfter h).slot? x = some (slotGiven h i) ∧
          (scopesAfter h).lookup x = some t) ∧
      Set.BijOn (slotGiven h) {i | ∃ x t level, IsOpen h i x t level}
        (Set.Iio (tableAfter h).next) ∧
      (∀ i x t level n, IsOpen h i x t level → i < n →
        (tableAfter (h.take n)).names.reverse[slotGiven h i]? = some x) ∧
      ∀ body, level? body = some 0 →
        tableAfter (h ++ .push :: body ++ [.pop]) = tableAfter h ∧
        scopesAfter (h ++ .push :: body ++ [.pop]) = scopesAfter h := by
  refine ⟨fun x ↦ ?_, hh.bijOn_slotGiven, fun i x t level n hi hlt ↦ ?_,
    fun body hbody ↦ ⟨hh.tableAfter_closed hbody, scopesAfter_closed h hbody⟩⟩
  · have hlookup := lookup_scopesAfter h x
    cases hfind : (numbered h).findSome? (·.lookup x) with
    | none =>
      rw [hfind] at hlookup
      exact .inl ⟨hh.slot?_of_lookup_none hfind, hlookup, hh.not_isOpen_of_lookup_none hfind⟩
    | some declaration =>
      rw [hfind] at hlookup
      exact .inr ⟨_, _, hh.isInnermost_of_lookup hfind, hh.slot?_of_lookup hfind, hlookup⟩
  · have hadmissible := hh.take n
    obtain ⟨level', hi'⟩ := hi.take hlt
    have hgiven : slotGiven (h.take n) i = slotGiven h i := by
      rw [slotGiven, List.take_take, Nat.min_eq_left hlt.le, slotGiven]
    rw [hadmissible.tableAfter_eq, ← hgiven, SlotTable.ofStack, ← List.map_reverse,
      List.getElem?_map, hadmissible.getElem?_slotGiven hi']
    rfl

/-- A variable in a block that takes the slot of one in a block before it and hides one outside. -/
theorem slots_refine_scopes_hiding :
    let h : List ScopeStep := [.push, .declare "x" .int, .push, .declare "y" .bool, .pop, .push,
      .declare "x" .string]
    Admissible h ∧
      (∃ i, IsInnermost h i "x" .string ∧ slotGiven h i = 1) ∧
      Set.BijOn (slotGiven h) {i | ∃ x t level, IsOpen h i x t level} (Set.Iio 2) ∧
      tableAfter (h ++ .push :: [.declare "x" .bool] ++ [.pop]) = tableAfter h := by
  intro h
  have hh : Admissible h := by
    refine ⟨⟨2, rfl⟩, ?_, ?_⟩
    · rintro (_ | _ | _ | _ | _ | _ | _ | i) x t hi <;> cases hi <;> decide
    · rintro (_ | _ | _ | _ | _ | _ | _ | i) x t hi <;> cases hi <;> decide
  obtain ⟨hnames, hslots, -, hblocks⟩ := slots_refine_scopes hh
  refine ⟨hh, ?_, hslots, (hblocks [.declare "x" .bool] rfl).1⟩
  have hslot : (tableAfter h).slot? "x" = some 1 := rfl
  have htype : (scopesAfter h).lookup "x" = some .string := rfl
  rcases hnames "x" with ⟨hnone, -⟩ | ⟨i, t, hi, hi', ht⟩
  · cases hslot.symm.trans hnone
  · cases htype.symm.trans ht
    exact ⟨i, hi, Option.some.inj (hi'.symm.trans hslot)⟩

end ScopeHistory

end Pebble
