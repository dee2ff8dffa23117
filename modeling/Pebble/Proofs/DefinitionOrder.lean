import Pebble.Proofs.FoldedTypes
import Pebble.Proofs.Generating
import Pebble.Proofs.Hosting

/-!
# The order of definitions

The structs and the functions of a program can be written in any order. Whether the program is
accepted does not depend on it, the templates come in the order of the functions and are otherwise
the same, and so is everything that a run does.

## Why the order is not noticed

Definitions are seen through their names only. A check looks up structs and signatures, the
generator looks up the fields of structs, and the machine looks up templates. As long as no name is
used twice, a permutation changes none of the answers (`find?_of_perm`), and a permutation uses a
name twice if and only if the program does.

The one thing that could depend on the order is which of several errors comes first. A program that
is rejected can be rejected for another reason in another order. The generator has only one reason
left to reject a program that has been checked, a jump that is too far, so there the outcome is the
same whichever function comes first.
-/

namespace Pebble

/-! ## Lists in another order -/

/-- The elements of a list in the order in which their indices are given. -/
def inOrder {α : Type} (order : List Nat) (l : List α) : List α :=
  order.filterMap (l[·]?)

section
variable {ε α β : Type} {order : List Nat}

theorem inOrder_range (l : List α) : inOrder (List.range l.length) l = l := by
  induction l with
  | nil => rfl
  | cons a l ih =>
    rw [inOrder, List.length_cons, List.range_succ_eq_map, List.filterMap_cons, List.filterMap_map]
    exact congrArg (a :: ·) ih

theorem inOrder_perm {l : List α} (h : order.Perm (List.range l.length)) :
    (inOrder order l).Perm l := by
  have hperm : (inOrder order l).Perm (inOrder (List.range l.length) l) := h.filterMap (l[·]?)
  rwa [inOrder_range] at hperm

theorem forall₂_inOrder {R : α → β → Prop} {l : List α} {l' : List β}
    (h : List.Forall₂ R l l') (order : List Nat) :
    List.Forall₂ R (inOrder order l) (inOrder order l') := by
  have hrel : ∀ i : Nat, Option.Rel R l[i]? l'[i]? := by
    intro i
    induction h generalizing i with
    | nil => exact .none
    | cons hab _ ih =>
      cases i with
      | zero => exact .some hab
      | succ i => exact ih i
  refine List.rel_filterMap (R := Eq) ?_ (List.forall₂_refl order)
  rintro i _ rfl
  exact hrel i

/-- The last element of a name is found in any order too. -/
theorem find?_reverse_of_perm (key : α → String) (x : String) {l l' : List α} (h : l'.Perm l)
    (hkeys : (l.map key).Nodup) :
    l'.reverse.find? (key · == x) = l.reverse.find? (key · == x) := by
  have hkeys' : (l'.map key).Nodup := (h.map key).nodup_iff.mpr hkeys
  rw [find?_reverse_of_nodup key x hkeys', find?_reverse_of_nodup key x hkeys]
  exact find?_of_perm key x h hkeys

/-- A loop fails with the error of one of the elements. -/
theorem exists_of_mapM_eq_error {f : α → Except ε β} {xs : List α} {e : ε}
    (h : xs.mapM f = .error e) : ∃ x ∈ xs, f x = .error e := by
  induction xs with
  | nil => cases h
  | cons x xs ih =>
    rw [List.mapM_cons] at h
    cases hx : f x with
    | error e' =>
      rw [hx] at h
      cases h
      exact ⟨x, List.mem_cons_self .., hx⟩
    | ok y =>
      cases hxs : xs.mapM f with
      | ok ys =>
        rw [hx, hxs] at h
        cases h
      | error e' =>
        rw [hx, hxs] at h
        cases h
        obtain ⟨x', hx', he⟩ := ih hxs
        exact ⟨x', List.mem_cons_of_mem _ hx', he⟩

/-- A loop in another order answers the same in that order, if there is only one way to fail. -/
theorem mapM_inOrder {f : α → Except ε β} {xs : List α}
    (horder : order.Perm (List.range xs.length)) {e : ε}
    (honly : ∀ x ∈ xs, ∀ e', f x = .error e' → e' = e) :
    (inOrder order xs).mapM f = (xs.mapM f).map (inOrder order) := by
  have hmem : ∀ {x}, x ∈ inOrder order xs ↔ x ∈ xs := (inOrder_perm horder).mem_iff
  cases h : xs.mapM f with
  | ok ys => exact mapM_eq_ok_of_forall₂ (forall₂_inOrder (forall₂_of_mapM_eq_ok h) order)
  | error e₁ =>
    -- The two loops may stop at different elements.
    obtain ⟨x, hx, he₁⟩ := exists_of_mapM_eq_error h
    cases h' : (inOrder order xs).mapM f with
    | ok ys =>
      obtain ⟨y, hy⟩ := exists_ok_of_mapM_eq_ok h' x (hmem.mpr hx)
      rw [he₁] at hy
      cases hy
    | error e₂ =>
      obtain ⟨x', hx', he₂⟩ := exists_of_mapM_eq_error h'
      rw [honly x hx e₁ he₁, honly x' (hmem.mp hx') e₂ he₂]
      rfl

end

/-! ## What code depends on

Code depends on the other definitions of a program only in the names of fields, which the code of a
constructor sets one by one. -/

section
variable {p q : Program}

mutual

theorem Expr.code_congr (hq : q.fieldsOf = p.fieldsOf) :
    (e : Expr) → (t : SlotTable) → e.code q t = e.code p t
  | .lit value pos, t => rfl
  | .path path, t => path.code_congr hq t
  | .call callee args, t => by simp only [Expr.code, argsCode_congr hq args]
  | .newStruct name args, t => by simp only [Expr.code, hq, fieldsCode_congr hq args]
  | .newArray elem size, t => by simp only [Expr.code, size.code_congr hq]
  | .not pos operand, t => by simp only [Expr.code, operand.code_congr hq]
  | .binary op pos lhs rhs, t => by
    simp only [Expr.code, lhs.code_congr hq, rhs.code_congr hq]

theorem Path.code_congr (hq : q.fieldsOf = p.fieldsOf) :
    (path : Path) → (t : SlotTable) → path.code q t = path.code p t
  | .root name index, t => by simp only [Path.code, indexCode_congr hq index]
  | .field base name index, t => by
    simp only [Path.code, base.code_congr hq, indexCode_congr hq index]

theorem indexCode_congr (hq : q.fieldsOf = p.fieldsOf) :
    (index : Option Expr) → (t : SlotTable) → indexCode q t index = indexCode p t index
  | none, t => rfl
  | some index, t => by simp only [indexCode, index.code_congr hq]

theorem argsCode_congr (hq : q.fieldsOf = p.fieldsOf) :
    (args : List Expr) → (t : SlotTable) → argsCode q t args = argsCode p t args
  | [], t => rfl
  | arg :: args, t => by simp only [argsCode, arg.code_congr hq, argsCode_congr hq args]

theorem fieldsCode_congr (hq : q.fieldsOf = p.fieldsOf) :
    (args : List Expr) → (t : SlotTable) → (fields : List String) →
    fieldsCode q t fields args = fieldsCode p t fields args
  | [], t, fields => by simp only [fieldsCode]
  | arg :: args, t, [] => by simp only [fieldsCode]
  | arg :: args, t, field :: fields => by
    simp only [fieldsCode, arg.code_congr hq, fieldsCode_congr hq args]

end

theorem assignCode_congr (hq : q.fieldsOf = p.fieldsOf) (t : SlotTable) (value : Expr)
    (target : Path) : assignCode q t value target = assignCode p t value target := by
  rcases target with ⟨name, _ | index⟩ | ⟨base, name, _ | index⟩ <;>
    simp only [assignCode, Expr.code_congr hq, Path.code_congr hq]

theorem callCode_congr (hq : q.fieldsOf = p.fieldsOf) (t : SlotTable) (callee : Name)
    (args : List Expr) : callCode q t callee args = callCode p t callee args := by
  simp only [callCode, argsCode_congr hq, Expr.code_congr hq]

mutual

theorem Stmt.code_congr (hq : q.fieldsOf = p.fieldsOf) :
    (stmt : Stmt) → (t : SlotTable) → (n : Nat) → stmt.code q t n = stmt.code p t n
  | .var name type none, t, n => rfl
  | .var name type (some init), t, n => by simp only [Stmt.code, init.code_congr hq]
  | .assign target value, t, n => by simp only [Stmt.code, assignCode_congr hq]
  | .ret pos value, t, n => by simp only [Stmt.code, value.code_congr hq]
  | .whileLoop cond body, t, n => by
    simp only [Stmt.code, cond.code_congr hq, blockCode_congr hq body]
  | .forLoop var first last body, t, n => by
    simp only [Stmt.code, first.code_congr hq, last.code_congr hq, blockCode_congr hq body]
  | .ifElse cond body other, t, n => by
    simp only [Stmt.code, cond.code_congr hq, blockCode_congr hq body, other.code_congr hq]
  | .call callee args, t, n => by simp only [Stmt.code, callCode_congr hq]

theorem Else.code_congr (hq : q.fieldsOf = p.fieldsOf) :
    (other : Else) → (t : SlotTable) → (n : Nat) → other.code q t n = other.code p t n
  | .none, t, n => rfl
  | .block body, t, n => by simp only [Else.code, blockCode_congr hq body]
  | .elseIf cond body other, t, n => by
    simp only [Else.code, cond.code_congr hq, blockCode_congr hq body, other.code_congr hq]

theorem blockCode_congr (hq : q.fieldsOf = p.fieldsOf) :
    (stmts : List Stmt) → (t : SlotTable) → (n : Nat) →
    blockCode q t n stmts = blockCode p t n stmts
  | [], t, n => rfl
  | stmt :: stmts, t, n => by
    simp only [blockCode, stmt.code_congr hq, blockCode_congr hq stmts]

end

theorem FunDef.code_congr (hq : q.fieldsOf = p.fieldsOf) (f : FunDef) : f.code q = f.code p := by
  simp only [FunDef.code, blockCode_congr hq]

end

/-! ## Programs in another order -/

/-- The program with its structs and its functions in other orders. -/
def Program.reordered (p : Program) (structOrder functionOrder : List Nat) : Program :=
  ⟨inOrder structOrder p.structs, inOrder functionOrder p.functions⟩

namespace Program

section
variable {p q : Program} (hp : p.Checked)
include hp

theorem Checked.struct?_of_perm (h : q.structs.Perm p.structs) (x : String) :
    q.struct? x = p.struct? x :=
  find?_of_perm (fun d : StructDef ↦ d.name.text) x h hp.structNames

theorem Checked.function?_of_perm (h : q.functions.Perm p.functions) (x : String) :
    q.function? x = p.function? x :=
  find?_of_perm (fun f : FunDef ↦ f.name.text) x h hp.functionNames

theorem Checked.fieldsOf_of_perm (h : q.structs.Perm p.structs) : q.fieldsOf = p.fieldsOf := by
  funext x
  rw [fieldsOf, fieldsOf,
    find?_reverse_of_perm (fun d : StructDef ↦ d.name.text) x.text h hp.structNames]

theorem Checked.sameDeclarations_of_perm (hstructs : q.structs.Perm p.structs)
    (hfunctions : q.functions.Perm p.functions) : p.SameDeclarations q where
  struct? := hp.struct?_of_perm hstructs
  functions x := by rw [hp.function?_of_perm hfunctions]

end

/-- A function is accepted or not whatever the bodies of the others are. -/
theorem SameDeclarations.check_eq_ok {p q : Program} (hq : p.SameDeclarations q) (f : FunDef) :
    f.check q = .ok () ↔ f.check p = .ok () := by
  -- Both come to the same as a check of the folded function against the second program.
  have hp' := (f.sameVerdict_folded hq).eq_ok_iff ()
  have hq' := (f.sameVerdict_folded (.refl q)).eq_ok_iff ()
  exact hq'.symm.trans hp'

section
variable {p q : Program} (hstructs : q.structs.Perm p.structs)
  (hfunctions : q.functions.Perm p.functions)
include hstructs hfunctions

theorem Checked.of_perm (hp : p.Checked) : q.Checked where
  structNames := (hstructs.map _).nodup_iff.mpr hp.structNames
  fieldNames d hd := hp.fieldNames d (hstructs.mem_iff.mp hd)
  functionNames := (hfunctions.map _).nodup_iff.mpr hp.functionNames
  notBuiltin f hf := hp.notBuiltin f (hfunctions.mem_iff.mp hf)
  main := by
    rw [hp.function?_of_perm hfunctions]
    exact hp.main
  functions f hf := by
    rw [(hp.sameDeclarations_of_perm hstructs hfunctions).check_eq_ok]
    exact hp.functions f (hfunctions.mem_iff.mp hf)

/-- A program that is accepted is accepted in any order. -/
theorem check_of_perm (h : p.check = .ok ()) : q.check = .ok () := by
  obtain ⟨hp, hfields⟩ := check_eq_ok.mp h
  refine check_eq_ok.mpr ⟨hp.of_perm hstructs hfunctions, fun d hd ↦ ?_⟩
  rw [(hp.sameDeclarations_of_perm hstructs hfunctions).checkFields_eq]
  exact hfields d (hstructs.mem_iff.mp hd)

end

/-- The templates of a checked program come in the order of its functions. -/
theorem Checked.code_reordered {p : Program} (hp : p.Checked) {structOrder functionOrder : List Nat}
    (hstructs : structOrder.Perm (List.range p.structs.length))
    (hfunctions : functionOrder.Perm (List.range p.functions.length)) :
    (p.reordered structOrder functionOrder).code = p.code.map (inOrder functionOrder) := by
  have hfun : FunDef.code (p.reordered structOrder functionOrder) = FunDef.code p := by
    funext f
    exact f.code_congr (hp.fieldsOf_of_perm (inOrder_perm hstructs))
  rw [code, hfun, code]
  exact mapM_inOrder hfunctions fun f hf e he ↦ FunDef.code_eq_error hp hf he

end Program

/-! ## Templates in another order -/

namespace Machine

/-- A run goes on in the same way with templates that are found under the same names. -/
theorem runFor_withTemplates {m : Machine} {templates : List Template}
    (h : ∀ x, templates.find? (·.name == x) = m.template? x) (n : Nat) :
    { m with templates := templates }.runFor n =
      ((m.runFor n).1, { (m.runFor n).2 with templates := templates }) := by
  -- The other machine is a host with nothing from before, so no reference is renamed.
  let host : Machine := { m with templates := templates }
  have hhost : host.bare.mute.Hosts m :=
    ⟨fun x t ht ↦ (h x).trans ht, Limits.le_refl _, rfl, fun _ ↦ rfl⟩
  have honto : ∀ m' : Machine, m.Continues m' →
      m'.onto host.bare.mute = { m' with templates := templates } := by
    intro m' hm
    rw [onto_bare_mute, show host.limits = m'.limits from hm.limits.symm,
      show host.tracing = m'.tracing from hm.tracing.symm]
  have hrun := runFor_onto hhost (fun _ m' _ ↦ m'.discreet_zero) n
  have hcontinues := continues_runFor n m
  rw [honto m (.refl m)] at hrun
  generalize m.runFor n = r, { m with templates := templates }.runFor n = r' at hrun hcontinues
  cases hrun with
  | running m' | finished m' => rw [honto m' hcontinues]
  | failed e site m' =>
    have hshift : e.shift host.bare.mute.offset = e := e.shift_zero
    rw [hshift, honto m' hcontinues]
  | @cut e site m' r short output =>
    cases e with
    | stepLimit | stackOverflow | callDepth | arrayTooLarge => exact absurd rfl short
    | unresolvedCall x => exact absurd (h x).symm short
    | store f =>
      cases f with
      | outOfMemory => exact absurd rfl short
      | noSuchObject => exact short.elim
    | _ => exact short.elim

/-- Templates with different names can be registered and started in any order. -/
theorem startTemplates_of_perm {ts ts' : List Template} {t : Template} (hperm : ts'.Perm ts)
    (hnames : (ts.map (·.name)).Nodup) (hverify : ∀ t ∈ ts, t.verify = .ok ())
    (hmain : ts.reverse.find? (·.name == "main") = some t) (m : Machine) :
    ∃ m₁ m₂, m.startTemplates ts = (.ok (), m₁) ∧ m.startTemplates ts' = (.ok (), m₂) ∧
      ∀ n, m₂.runFor n =
        ((m₁.runFor n).1, { (m₁.runFor n).2 with templates := m₂.templates }) := by
  have hfind : ∀ x, ts'.reverse.find? (·.name == x) = ts.reverse.find? (·.name == x) :=
    fun x ↦ find?_reverse_of_perm Template.name x hperm hnames
  obtain ⟨templates₁, hfind₁, hstart₁⟩ := startTemplates_of_main hverify hmain m
  obtain ⟨templates₂, hfind₂, hstart₂⟩ := startTemplates_of_main
    (fun t ht ↦ hverify t (hperm.mem_iff.mp ht)) ((hfind "main").trans hmain) m
  refine ⟨_, _, hstart₁, hstart₂, fun n ↦ ?_⟩
  refine runFor_withTemplates (m := { m.reset with templates := templates₁, frames := _ }) ?_ n
  intro x
  rw [hfind₂, hfind]
  exact (hfind₁ x).symm

end Machine

/-- **The order of definitions does not matter.** In any order of its structs and functions, a
program is accepted if and only if it is accepted as it stands. If it is, its code in the other
order is its code with the templates in the order of the functions, or both are too long. On any
machine the templates can then be registered and started in either order. However long the runs are
followed, they stand alike, with the same outcome and the same operands, frames, objects, input,
output and steps; only the table of templates lists them in another order. -/
theorem Program.definition_order_irrelevant (p : Program) {structOrder functionOrder : List Nat}
    (hstructs : structOrder.Perm (List.range p.structs.length))
    (hfunctions : functionOrder.Perm (List.range p.functions.length)) :
    (p.check = .ok () ↔ (p.reordered structOrder functionOrder).check = .ok ()) ∧
    (p.check = .ok () →
      (p.reordered structOrder functionOrder).code = p.code.map (inOrder functionOrder) ∧
      ∀ ts, p.code = .ok ts → ∀ m : Machine,
        ∃ m₁ m₂, m.startTemplates ts = (.ok (), m₁) ∧
          m.startTemplates (inOrder functionOrder ts) = (.ok (), m₂) ∧
          ∀ n, m₂.runFor n =
            ((m₁.runFor n).1, { (m₁.runFor n).2 with templates := m₂.templates })) := by
  have hs := inOrder_perm hstructs
  have hf := inOrder_perm hfunctions
  constructor
  · constructor
    · exact Program.check_of_perm hs hf
    · exact Program.check_of_perm hs.symm hf.symm
  · intro hcheck
    have hp := Program.checked_of_check hcheck
    refine ⟨hp.code_reordered hstructs hfunctions, fun ts hcode m ↦ ?_⟩
    have hall := forall₂_of_mapM_eq_ok hcode
    obtain ⟨f, hmain⟩ := hp.main
    obtain ⟨t, ht, -⟩ := hp.find?_template hcode hmain
    have hnames : (ts.map (·.name)).Nodup := by
      rw [names_of_forall₂_code hall]
      exact hp.functionNames
    -- There are as many templates as functions.
    rw [hall.length_eq] at hfunctions
    exact m.startTemplates_of_perm (inOrder_perm hfunctions) hnames (verify_of_forall₂_code hall) ht

/-- Two structs and two functions that need each other, and a main function behind them:

```text
struct A { b: B }
struct B { a: A }
int f(b: B) { if b == null { return 3 } return g(b.a) }
int g(a: A) { return f(a.b) }
void main() { print(f(new B(new A(null)))) }
```
-/
def mutualProgram : Program :=
  let pos : Pos := ⟨1, 1⟩
  let name (x : String) : Name := ⟨x, pos⟩
  let type (t : TypeName) : TypeRef := ⟨t, false, pos⟩
  let field (x y : String) : Expr := .path (.field (.root (name x) none) (name y) none)
  let a : VarDef := ⟨name "a", type (.struct "A")⟩
  let b : VarDef := ⟨name "b", type (.struct "B")⟩
  let isNull : Expr := .binary .eq pos (.path (.root (name "b") none)) (.lit .null pos)
  let object : Expr := .newStruct (name "B") [.newStruct (name "A") [.lit .null pos]]
  { structs := [⟨name "A", [b]⟩, ⟨name "B", [a]⟩]
    functions := [
      ⟨name "f", type .int, [b],
        [.ifElse isNull [.ret pos (.lit (.int 3) pos)] .none,
          .ret pos (.call (name "g") [field "b" "a"])]⟩,
      ⟨name "g", type .int, [a], [.ret pos (.call (name "f") [field "a" "b"])]⟩,
      ⟨name "main", type .void, [], [.call (name "print") [.call (name "f") [object]]]⟩] }

/-- The structs change places, and the main function comes first. -/
theorem Program.definition_order_irrelevant_mutual :
    [1, 0].Perm (List.range mutualProgram.structs.length) ∧
    [2, 0, 1].Perm (List.range mutualProgram.functions.length) ∧
    ∃ ts m₁ m₂, mutualProgram.check = .ok () ∧ mutualProgram.code = .ok ts ∧
      (mutualProgram.reordered [1, 0] [2, 0, 1]).check = .ok () ∧
      (mutualProgram.reordered [1, 0] [2, 0, 1]).code = .ok (inOrder [2, 0, 1] ts) ∧
      (Machine.fresh .standard []).startTemplates ts = (.ok (), m₁) ∧
      (Machine.fresh .standard []).startTemplates (inOrder [2, 0, 1] ts) = (.ok (), m₂) ∧
      (m₂.runFor 50).1 = .finished ∧ (m₂.runFor 50).2.output = "3" := by
  have hok : (mutualProgram.check.isOk && mutualProgram.code.toOption.any fun ts ↦
      let r := ((Machine.fresh .standard []).startTemplates ts).2.runFor 50
      r.1 = .finished && r.2.output = "3") = true := by
    decide +kernel
  rw [Bool.and_eq_true] at hok
  obtain ⟨hcheck, hcode⟩ := hok
  obtain ⟨_, hcheck⟩ := eq_ok_of_isOk hcheck
  obtain ⟨ts, hcode, h⟩ := eq_ok_of_any hcode
  simp only [Bool.and_eq_true, decide_eq_true_eq] at h
  obtain ⟨hended, hout⟩ := h
  have hstructs : [1, 0].Perm (List.range mutualProgram.structs.length) := by decide
  have hfunctions : [2, 0, 1].Perm (List.range mutualProgram.functions.length) := by decide
  obtain ⟨hiff, hruns⟩ := mutualProgram.definition_order_irrelevant hstructs hfunctions
  obtain ⟨hcode', hruns⟩ := hruns hcheck
  obtain ⟨m₁, m₂, hstart₁, hstart₂, hrun⟩ := hruns ts hcode (.fresh .standard [])
  rw [hstart₁] at hended hout
  refine ⟨hstructs, hfunctions, ts, m₁, m₂, hcheck, hcode, hiff.mp hcheck, ?_, hstart₁, hstart₂, ?_,
    ?_⟩
  · rw [hcode', hcode]
    rfl
  · rw [hrun]
    exact hended
  · rw [hrun]
    exact hout

end Pebble
