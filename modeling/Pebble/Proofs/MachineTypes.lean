import Pebble.Proofs.Acting
import Pebble.Proofs.StmtTypes
import Pebble.Proofs.ValueTypes

/-!
# Well-typed states of the machine

A state is well typed if every active frame stands at a spot of its function and everything is as
the spot says: the slots of the variables in scope hold values of their types, and the operands of
the frame are those that are pending. The frames share one operand stack, so each frame owns a
part of it; a frame that waits for a call owns what is pending below the result.

An instruction that flows from one spot to the next takes a frame that is typed at the first to
one that is typed at the second, or faults in one of a few ways that no static check can exclude
(`Op.Flows.exec`).
-/

namespace Pebble

/-- The faults that a checked program can run into. -/
def Fault.isExpected : Fault → Bool
  | null _ | divisionByZero | indexOutOfBounds _ _ _ | negativeSize _ | badConversion _ _
  | arrayTooLarge _ _ | store (.outOfMemory _) | callDepth _ | stackOverflow _ | stepLimit _
  | notText => true
  | mismatch (.convert .int) _ found | mismatch (.convert .double) _ found => found = [.bool]
  | _ => false

/-! ## Operands and slots -/

/-- Operands that are what the pending ones say. -/
inductive OperandsTyped (Ψ : StoreTy) : List Value → List Pending → Prop where
  | nil : OperandsTyped Ψ [] []
  | val {v : Value} {t vs ps} (hv : v.HasTy Ψ t) (rest : OperandsTyped Ψ vs ps) :
      OperandsTyped Ψ (v :: vs) (.val t :: ps)
  | record {r d n count vs ps} (hr : Ψ r = some (.record d count)) (hn : n ≤ count)
      (rest : OperandsTyped Ψ vs ps) : OperandsTyped Ψ (.ref r :: vs) (.record d n :: ps)
  | copy {v vs ps} (rest : OperandsTyped Ψ (v :: vs) ps) :
      OperandsTyped Ψ (v :: v :: vs) (.copy :: ps)

/-- Slots that hold values of the types of the variables. -/
def SlotsTyped (Ψ : StoreTy) (bindings : List (String × Ty)) (slots : Array Value) : Prop :=
  ∀ (k : Nat) x t, bindings.reverse[k]? = some (x, t) →
    ∃ v : Value, slots[k]? = some v ∧ v.HasTy Ψ t

section
variable {p : Program} {Ψ Ψ' : StoreTy}

theorem OperandsTyped.mono {vs : List Value} {ps : List Pending} (hg : Ψ.Grows Ψ')
    (h : OperandsTyped Ψ vs ps) : OperandsTyped Ψ' vs ps := by
  induction h with
  | nil => exact .nil
  | val hv _ ih => exact .val (hv.mono hg) ih
  | record hr hn _ ih =>
    obtain ⟨τ', hr', hτ⟩ := hg _ _ hr
    cases hτ with
    | record hle => exact .record hr' (Nat.le_trans hn hle) ih
  | copy _ ih => exact .copy ih

theorem OperandsTyped.val_inv {vs : List Value} {t : Ty} {ps : List Pending}
    (h : OperandsTyped Ψ vs (.val t :: ps)) :
    ∃ v vs', vs = v :: vs' ∧ v.HasTy Ψ t ∧ OperandsTyped Ψ vs' ps := by
  cases h with
  | val hv rest => exact ⟨_, _, rfl, hv, rest⟩

theorem OperandsTyped.record_inv {vs : List Value} {d : StructDef} {n : Nat} {ps : List Pending}
    (h : OperandsTyped Ψ vs (.record d n :: ps)) :
    ∃ r count vs', vs = .ref r :: vs' ∧ Ψ r = some (.record d count) ∧ n ≤ count ∧
      OperandsTyped Ψ vs' ps := by
  cases h with
  | record hr hn rest => exact ⟨_, _, _, rfl, hr, hn, rest⟩

theorem OperandsTyped.copy_inv {vs : List Value} {ps : List Pending}
    (h : OperandsTyped Ψ vs (.copy :: ps)) :
    ∃ v vs', vs = v :: v :: vs' ∧ OperandsTyped Ψ (v :: vs') ps := by
  cases h with
  | copy rest => exact ⟨_, _, rfl, rest⟩

/-- A record that has all of its fields is a value. -/
theorem OperandsTyped.built {r count n : Nat} {d : StructDef} {vs : List Value}
    {ps : List Pending} (hr : Ψ r = some (.record d count)) (hn : n ≤ count)
    (rest : OperandsTyped Ψ vs ps) : OperandsTyped Ψ (.ref r :: vs) (.built d n :: ps) := by
  rw [Pending.built]
  split
  · rename_i hfull
    exact .val (.record hr (hfull ▸ hn)) rest
  · exact .record hr hn rest

/-- The arguments of a call, as the function takes them. -/
theorem OperandsTyped.params {vs : List Value} {ps : List Pending} {ts : List Ty}
    {params : List VarDef}
    (hargs : List.Forall₂ (fun t (v : VarDef) ↦ Ty.fits t (.ofRef v.type) = true) ts params)
    (h : OperandsTyped Ψ vs (ts.map .val ++ ps)) :
    ∃ args rest, vs = args ++ rest ∧ OperandsTyped Ψ args (pendingParams params) ∧
      OperandsTyped Ψ rest ps := by
  induction hargs generalizing vs with
  | nil => exact ⟨[], vs, rfl, .nil, h⟩
  | cons hfit _ ih =>
    cases h with
    | val hv rest =>
      obtain ⟨args, rest', rfl, hargs, hrest⟩ := ih rest
      exact ⟨_ :: args, rest', rfl, .val (hv.of_fits hfit) hargs, hrest⟩

namespace SlotsTyped

variable {bindings : List (String × Ty)} {slots : Array Value}

theorem mono (hg : Ψ.Grows Ψ') (h : SlotsTyped Ψ bindings slots) :
    SlotsTyped Ψ' bindings slots := by
  intro k x t hk
  obtain ⟨v, hv, ht⟩ := h k x t hk
  exact ⟨v, hv, ht.mono hg⟩

/-- The variables declared first keep their slots when others are forgotten. -/
theorem of_suffix {bindings' : List (String × Ty)} (h : SlotsTyped Ψ bindings slots)
    (hsuf : bindings' <:+ bindings) : SlotsTyped Ψ bindings' slots := by
  intro k x t hk
  obtain ⟨inner, rfl⟩ := hsuf
  refine h k x t ?_
  rw [List.reverse_append, List.getElem?_append_left]
  · exact hk
  · exact (List.getElem?_eq_some_iff.mp hk).1

theorem nil (Ψ : StoreTy) (slots : Array Value) : SlotsTyped Ψ [] slots := by
  intro k x t hk
  simp at hk

/-- Setting a variable to a value of its type. -/
theorem store {fr : Frame} {bindings : List (String × Ty)} {k : Nat} {x : String} {t : Ty}
    {v : Value} (h : SlotsTyped Ψ bindings fr.slots)
    (hk : bindings.reverse[k]? = some (x, t)) (hv : v.HasTy Ψ t) :
    SlotsTyped Ψ bindings (fr.store k v).slots := by
  intro j y t' hj
  by_cases hjk : j = k
  · subst hjk
    rw [hk, Option.some.injEq, Prod.mk.injEq] at hj
    exact ⟨v, fr.getElem?_store_self j v, hj.2 ▸ hv⟩
  · obtain ⟨u, hu, ht⟩ := h j y t' hj
    exact ⟨u, fr.getElem?_store k j v hu hjk, ht⟩

/-- Giving a new variable the next slot. -/
theorem declare {fr : Frame} {bindings : List (String × Ty)} {x : String} {t : Ty} {v : Value}
    (h : SlotsTyped Ψ bindings fr.slots) (hv : v.HasTy Ψ t) :
    SlotsTyped Ψ ((x, t) :: bindings) (fr.store bindings.length v).slots := by
  intro j y t' hj
  rw [List.reverse_cons] at hj
  by_cases hlt : j < bindings.length
  · rw [List.getElem?_append_left (by simpa using hlt)] at hj
    obtain ⟨u, hu, ht⟩ := h j y t' hj
    exact ⟨u, fr.getElem?_store _ j v hu (by omega), ht⟩
  · rw [List.getElem?_append_right (by simpa using hlt), List.length_reverse] at hj
    have hlast : j - bindings.length = 0 := by
      have := (List.getElem?_eq_some_iff.mp hj).1
      simpa using this
    have hbinding : (x, t) = (y, t') := by simpa [hlast] using hj
    obtain rfl : j = bindings.length := by omega
    exact ⟨v, fr.getElem?_store_self _ v, (Prod.mk.inj hbinding).2 ▸ hv⟩

end SlotsTyped

end

/-! ## Actions on values of the right types -/

/-- The outcome of an action that meets a condition, or faults as expected and leaves the store
alone. -/
def Meets {α : Type} (σ : Store) (P : α → World → Prop) : EStateM.Result Fault World α → Prop
  | .ok a w => P a w
  | .error e w => e.isExpected = true ∧ w.store = σ

theorem Meets.bind {α β : Type} {σ : Store} {P : α → World → Prop} {Q : β → World → Prop}
    {x : Act α} {f : α → Act β} {w : World} (hx : Meets σ P (x w))
    (hf : ∀ a w', P a w' → Meets σ Q (f a w')) : Meets σ Q ((x >>= f) w) := by
  simp only [Bind.bind, EStateM.bind]
  cases hr : x w with
  | ok a w' =>
    rw [hr] at hx
    exact hf a w' hx
  | error e w' =>
    rw [hr] at hx
    exact hx

section
variable {p : Program} {Ψ : StoreTy} {w : World}

theorem meets_asInt {op : Op} {v : Value} (h : v.HasTy Ψ .int) :
    Meets w.store (fun _ w' ↦ w' = w) (Act.asInt op v w) := by
  cases h with
  | null => exact ⟨rfl, rfl⟩
  | int n => exact rfl

theorem meets_asBool {op : Op} {v : Value} (h : v.HasTy Ψ .bool) :
    Meets w.store (fun _ w' ↦ w' = w) (Act.asBool op v w) := by
  cases h with
  | null => exact ⟨rfl, rfl⟩
  | bool b => exact rfl

/-- A value of a struct is `null` or a complete record of that struct. -/
theorem Value.HasTy.struct {v : Value} {d : StructDef} (hσ : w.store.Typed p Ψ)
    (hd : p.struct? d.name.text = some d) {x : String} (hx : x = d.name.text)
    (h : v.HasTy Ψ (.one (.struct x))) :
    v = .null ∨ ∃ r count, v = .ref r ∧ Ψ r = some (.record d count) ∧
      d.fields.length ≤ count := by
  cases h with
  | null => exact .inl rfl
  | @record r d' count hr complete =>
    obtain ⟨fs, -, hd', -⟩ := hσ.fields_eq hr
    rw [hx, hd] at hd'
    cases hd'
    exact .inr ⟨r, count, rfl, hr, complete⟩

theorem meets_asRecord {op : Op} {v : Value} {d : StructDef} (hσ : w.store.Typed p Ψ)
    (hd : p.struct? d.name.text = some d) (h : v.HasTy Ψ (.one (.struct d.name.text))) :
    Meets w.store (fun r w' ↦ w' = w ∧ ∃ count, Ψ r = some (.record d count) ∧
      d.fields.length ≤ count) (Act.asRef op v w) := by
  rcases h.struct hσ hd rfl with rfl | ⟨r, count, rfl, hr, hfull⟩
  · exact ⟨rfl, rfl⟩
  · exact ⟨rfl, count, hr, hfull⟩

theorem meets_asArray {op : Op} {v : Value} {elem : TypeName} (h : v.HasTy Ψ (.array elem)) :
    Meets w.store (fun r w' ↦ w' = w ∧ Ψ r = some (.array elem)) (Act.asRef op v w) := by
  cases h with
  | null => exact ⟨rfl, rfl⟩
  | array hr => exact ⟨rfl, hr⟩

theorem meets_cells {r : Nat} {elem : TypeName} (hσ : w.store.Typed p Ψ)
    (hr : Ψ r = some (.array elem)) :
    Meets w.store (fun cells w' ↦ w' = w ∧ ∀ v ∈ cells, v.HasTy Ψ (.one elem))
      (Act.cells r w) := by
  obtain ⟨cells, hcells, hty⟩ := hσ.cells_eq hr
  have hrun : Act.cells r w = Act.fromStore (w.store.cells r) w := rfl
  rw [hrun, hcells]
  exact ⟨rfl, hty⟩

theorem meets_itemIndex (op : Op) (index : Int32) (size : Nat) :
    Meets w.store (fun _ w' ↦ w' = w) (Act.itemIndex op index size w) := by
  rw [Act.itemIndex]
  cases index.toInt with
  | negSucc _ => exact ⟨rfl, rfl⟩
  | ofNat i =>
    by_cases hi : i < size
    · simp only [if_pos hi]
      exact rfl
    · simp only [if_neg hi]
      exact ⟨rfl, rfl⟩

theorem Value.HasTy.getD {cells : Array Value} {t : Ty} (h : ∀ v ∈ cells, v.HasTy Ψ t) (i : Nat) :
    (cells.getD i .null).HasTy Ψ t := by
  rw [Array.getD_eq_getD_getElem?]
  cases hi : cells[i]? with
  | none => exact .null t
  | some v => exact h v (Array.mem_of_getElem? hi)

theorem meets_item {op : Op} {index : Int32} {cells : Array Value} {t : Ty}
    (h : ∀ v ∈ cells, v.HasTy Ψ t) :
    Meets w.store (fun v w' ↦ w' = w ∧ v.HasTy Ψ t) (Act.item op cells index w) :=
  (meets_itemIndex op index cells.size).bind fun i _ hw ↦ ⟨hw, .getD h i⟩

theorem meets_fields {r count : Nat} {d : StructDef} (hσ : w.store.Typed p Ψ)
    (hr : Ψ r = some (.record d count)) :
    Meets w.store (fun fs w' ↦ w' = w ∧
      List.Forall₂ (FieldTyped Ψ) fs (d.fields.take count)) (Act.fields r w) := by
  obtain ⟨fs, hfs, -, hty⟩ := hσ.fields_eq hr
  have hrun : Act.fields r w = Act.fromStore (w.store.fields r) w := rfl
  rw [hrun, hfs]
  exact ⟨rfl, hty⟩

theorem meets_getField {x : String} {v : Value} {d : StructDef} {decl : VarDef}
    (hσ : w.store.Typed p Ψ) (hd : p.struct? d.name.text = some d)
    (hx : d.fields.find? (·.name.text == x) = some decl)
    (h : v.HasTy Ψ (.one (.struct d.name.text))) :
    Meets w.store (fun v w' ↦ w' = w ∧ v.HasTy Ψ (.ofRef decl.type))
      (Act.getField x v w) := by
  refine (meets_asRecord hσ hd h).bind ?_
  rintro r _ ⟨rfl, count, hr, hfull⟩
  refine (meets_fields hσ hr).bind ?_
  rintro fs _ ⟨rfl, hfs⟩
  rw [List.take_of_length_le hfull] at hfs
  obtain ⟨u, hget, hu⟩ := fieldsTyped_get hx hfs
  rw [hget]
  exact ⟨rfl, hu⟩

theorem meets_getItem {array index : Value} {elem : TypeName} (hσ : w.store.Typed p Ψ)
    (hi : index.HasTy Ψ .int) (ha : array.HasTy Ψ (.array elem)) :
    Meets w.store (fun v w' ↦ w' = w ∧ v.HasTy Ψ (.one elem))
      (Act.getItem array index w) := by
  refine (meets_asInt hi).bind ?_
  rintro i _ rfl
  refine (meets_asArray ha).bind ?_
  rintro r _ ⟨rfl, hr⟩
  refine (meets_cells hσ hr).bind ?_
  rintro cells _ ⟨rfl, hcells⟩
  exact meets_item hcells

theorem meets_size {v : Value} {t : Ty} (hσ : w.store.Typed p Ψ)
    (ht : t.isArray = true ∨ t = .string) (h : v.HasTy Ψ t) :
    Meets w.store (fun v w' ↦ w' = w ∧ v.HasTy Ψ .int) (Act.size v w) := by
  cases h with
  | null => exact ⟨rfl, rfl⟩
  | str s => exact ⟨rfl, .int _⟩
  | array hr =>
    refine (meets_cells hσ hr).bind ?_
    rintro cells _ ⟨rfl, -⟩
    exact ⟨rfl, .int _⟩
  | int | double | bool | record => rcases ht with ht | ht <;> cases ht

theorem meets_element_str {container index : Value} (hi : index.HasTy Ψ .int)
    (hc : container.HasTy Ψ .string) :
    Meets w.store (fun v w' ↦ w' = w ∧ v.HasTy Ψ .string)
      (Act.element container index w) := by
  refine (meets_asInt hi).bind ?_
  rintro i _ rfl
  cases hc with
  | null => exact ⟨rfl, rfl⟩
  | str s => exact (meets_itemIndex _ i s.length).bind fun j _ hw ↦ ⟨hw, .str _⟩

theorem meets_element_array {container index : Value} {elem : TypeName}
    (hσ : w.store.Typed p Ψ) (hi : index.HasTy Ψ .int)
    (hc : container.HasTy Ψ (.array elem)) :
    Meets w.store (fun v w' ↦ w' = w ∧ v.HasTy Ψ (.one elem))
      (Act.element container index w) := by
  refine (meets_asInt hi).bind ?_
  rintro i _ rfl
  cases hc with
  | null => exact ⟨rfl, rfl⟩
  | array hr =>
    refine (meets_cells hσ hr).bind ?_
    rintro cells _ ⟨rfl, hcells⟩
    exact meets_item hcells

theorem meets_readLine (Ψ : StoreTy) :
    Meets w.store (fun v w' ↦ w'.store = w.store ∧ v.HasTy Ψ .string) (Act.readLine w) := by
  rw [Act.readLine, Machine.get_bind]
  rcases Exec.splitLine w.input with ⟨line, rest⟩
  cases line with
  | nil => exact ⟨rfl, .null _⟩
  | cons b line =>
    simp only [modify, modifyGet, MonadStateOf.modifyGet]
    cases String.fromUTF8? (b :: line).toByteArray with
    | none => exact ⟨rfl, rfl⟩
    | some s => exact ⟨rfl, .str _⟩

theorem meets_logic {o : LogicOp} {lhs rhs : Value} (hl : lhs.HasTy Ψ .bool)
    (hr : rhs.HasTy Ψ .bool) :
    Meets w.store (fun v w' ↦ w' = w ∧ v.HasTy Ψ .bool) (Act.logic o lhs rhs w) := by
  refine (meets_asBool hr).bind ?_
  rintro b _ rfl
  refine (meets_asBool hl).bind ?_
  rintro a _ rfl
  exact ⟨rfl, .bool _⟩

theorem meets_not {v : Value} (hv : v.HasTy Ψ .bool) :
    Meets w.store (fun v w' ↦ w' = w ∧ v.HasTy Ψ .bool) (Act.not v w) := by
  refine (meets_asBool hv).bind ?_
  rintro b _ rfl
  exact ⟨rfl, .bool _⟩

theorem meets_arith {o : ArithOp} {lhs rhs : Value} {type : TypeName}
    (h : type = .int ∨ type = .double ∨ type = .string ∧ o = .add)
    (hl : lhs.HasTy Ψ (.one type)) (hr : rhs.HasTy Ψ (.one type)) :
    Meets w.store (fun v w' ↦ w' = w ∧ v.HasTy Ψ (.one type))
      (Act.lift (o.apply lhs rhs) w) := by
  rcases h with rfl | rfl | ⟨rfl, rfl⟩ <;> cases hl <;> cases hr
  case inl.int.int a b =>
    cases o with
    | add | sub | mul => exact ⟨rfl, .int _⟩
    | div =>
      show Meets _ _
        (Act.lift (if b = 0 then .error .divisionByZero else .ok (Value.int (a / b))) w)
      split
      · exact ⟨rfl, rfl⟩
      · exact ⟨rfl, .int _⟩
  case inr.inl.double.double a b =>
    cases o with
    | add | sub | mul => exact ⟨rfl, .double _⟩
    | div =>
      show Meets _ _
        (Act.lift (if b == 0 then .error .divisionByZero else .ok (Value.double (a / b))) w)
      split
      · exact ⟨rfl, rfl⟩
      · exact ⟨rfl, .double _⟩
  case inr.inr.str.str a b => exact ⟨rfl, .str _⟩
  all_goals exact ⟨rfl, rfl⟩

theorem meets_order {o : OrderOp} {lhs rhs : Value} {type : TypeName}
    (h : type = .int ∨ type = .double ∨ type = .string)
    (hl : lhs.HasTy Ψ (.one type)) (hr : rhs.HasTy Ψ (.one type)) :
    Meets w.store (fun _ w' ↦ w' = w) (Act.lift (o.apply lhs rhs) w) := by
  rcases h with rfl | rfl | rfl <;> cases hl <;> cases hr
  case inl.int.int a b => cases o <;> exact rfl
  case inr.inl.double.double a b => cases o <;> exact rfl
  case inr.inr.str.str a b => cases o <;> exact rfl
  all_goals exact ⟨rfl, rfl⟩

/-- A conversion faults on `null`, on a text that spells no number, and on a truth value that
should become a number. -/
theorem meets_convert {c : Conversion} {v : Value} {t : Ty} (ht : t.isObject = false)
    (h : v.HasTy Ψ t) :
    Meets w.store (fun v w' ↦ w' = w ∧ v.HasTy Ψ c.type) (Act.lift (c.apply v) w) := by
  cases h with
  | record | array => cases ht
  | null => cases c <;> exact ⟨rfl, rfl⟩
  | int n =>
    cases c with
    | int => exact ⟨rfl, .int _⟩
    | double => exact ⟨rfl, .double _⟩
    | string => exact ⟨rfl, .str _⟩
  | double d =>
    cases c with
    | int => exact ⟨rfl, .int _⟩
    | double => exact ⟨rfl, .double _⟩
    | string => exact ⟨rfl, .str _⟩
  | bool b =>
    cases c with
    | int | double => exact ⟨rfl, rfl⟩
    | string => exact ⟨rfl, .str _⟩
  | str s =>
    cases c with
    | int =>
      show Meets _ _ (Act.lift (Conversion.read s .int
        ((Decimal.readInt32? s.toList).map .int)) w)
      cases Decimal.readInt32? s.toList with
      | none => exact ⟨rfl, rfl⟩
      | some n => exact ⟨rfl, .int _⟩
    | double =>
      show Meets _ _ (Act.lift (Conversion.read s .double
        ((Decimal.readDouble? s.toList).map .double)) w)
      cases Decimal.readDouble? s.toList with
      | none => exact ⟨rfl, rfl⟩
      | some d => exact ⟨rfl, .double _⟩
    | string => exact ⟨rfl, .str _⟩

/-! ## Instructions that go on to the next one -/

/-- The operands that an action leaves are pending above those it has not touched. -/
def Leaves (p : Program) (Ψ : StoreTy) (own : List Value) (pending : List Pending)
    (left : List Value) (w : World) : Prop :=
  ∃ Ψ', Ψ.Grows Ψ' ∧ w.store.Typed p Ψ' ∧ OperandsTyped Ψ' (left ++ own) pending

theorem leaves_same {own left : List Value} {pending : List Pending} {w' : World}
    (hσ : w.store.Typed p Ψ) (hw : w'.store = w.store)
    (h : OperandsTyped Ψ (left ++ own) pending) : Leaves p Ψ own pending left w' :=
  ⟨Ψ, .refl Ψ, hw ▸ hσ, h⟩

/-- An action that answers a value of a type. -/
theorem leaves_value {own : List Value} {t : Ty} {ps : List Pending} {x : Act Value}
    (hσ : w.store.Typed p Ψ) (hown : OperandsTyped Ψ own ps)
    (h : Meets w.store (fun v w' ↦ w' = w ∧ v.HasTy Ψ t) (x w)) :
    Meets w.store (Leaves p Ψ own (.val t :: ps)) ((x >>= fun v ↦ pure [v]) w) := by
  refine h.bind ?_
  rintro v _ ⟨rfl, hv⟩
  exact leaves_same hσ rfl (.val hv hown)

theorem leaves_newRecord {own : List Value} {ps : List Pending} {d : StructDef}
    (hσ : w.store.Typed p Ψ) (hown : OperandsTyped Ψ own ps)
    (hd : p.struct? d.name.text = some d) :
    Meets w.store (Leaves p Ψ own (.built d 0 :: ps))
      ((Act.allocate (.record []) >>= fun v ↦ pure [v]) w) := by
  have hgrow := hσ.grows_next (.record d 0)
  refine ⟨_, hgrow, hσ.add (.record hd ?_), .built (StoreTy.set_same ..) (Nat.le_refl 0)
    (hown.mono hgrow)⟩
  rw [List.take_zero]
  exact .nil

theorem leaves_newArray {l : Limits} {own : List Value} {ps : List Pending} {v : Value}
    {elem : TypeName} (hσ : w.store.Typed p Ψ) (hown : OperandsTyped Ψ own ps)
    (hv : v.HasTy Ψ .int) :
    Meets w.store (Leaves p Ψ own (.val (.array elem) :: ps))
      ((Act.newArray l v >>= fun v ↦ pure [v]) w) := by
  cases hv with
  | null => exact ⟨rfl, rfl⟩
  | int n =>
    simp only [Act.newArray, Act.arraySize, Act.asInt, pure_bind, Store.newArray]
    by_cases hneg : n < 0
    · simp only [if_pos hneg]
      exact ⟨rfl, rfl⟩
    simp only [if_neg hneg, pure_bind]
    by_cases hlarge : l.cells < n.toInt.toNat
    · simp only [if_pos hlarge]
      exact ⟨rfl, rfl⟩
    simp only [if_neg hlarge]
    by_cases hmemory : l.memory < n.toInt.toNat
    · simp only [if_pos hmemory]
      exact ⟨rfl, rfl⟩
    simp only [if_neg hmemory]
    have hgrow := hσ.grows_next (.array elem)
    refine ⟨_, hgrow, hσ.add (.array fun u hu ↦ ?_), .val (.array (StoreTy.set_same ..))
      (hown.mono hgrow)⟩
    rw [Array.eq_of_mem_replicate hu]
    exact .null _

theorem leaves_setItem {own : List Value} {ps : List Pending} {array index v : Value}
    {elem : TypeName} (hσ : w.store.Typed p Ψ) (hown : OperandsTyped Ψ own ps)
    (ha : array.HasTy Ψ (.array elem)) (hi : index.HasTy Ψ .int) (hv : v.HasTy Ψ (.one elem)) :
    Meets w.store (Leaves p Ψ own ps) ((Act.setItem array index v >>= fun _ ↦ pure []) w) := by
  refine Meets.bind (P := fun _ w' ↦ Leaves p Ψ own ps [] w') ?_ fun _ _ h ↦ h
  refine (meets_asInt hi).bind ?_
  rintro i _ rfl
  refine (meets_asArray ha).bind ?_
  rintro r _ ⟨rfl, hr⟩
  refine (meets_cells hσ hr).bind ?_
  rintro cells _ ⟨rfl, -⟩
  refine (meets_itemIndex _ i cells.size).bind ?_
  rintro j _ rfl
  obtain ⟨Ψ', hσ', hgrow⟩ := hσ.setCell (i := j) hr hv
  exact ⟨Ψ', hgrow, hσ', hown.mono hgrow⟩

theorem leaves_setField {own : List Value} {ps : List Pending} {record v : Value} {x : String}
    {d : StructDef} {decl : VarDef} (hσ : w.store.Typed p Ψ) (hown : OperandsTyped Ψ own ps)
    (hd : p.struct? d.name.text = some d) (hx : d.fields.find? (·.name.text == x) = some decl)
    (hr : record.HasTy Ψ (.one (.struct d.name.text))) (hv : v.HasTy Ψ (.ofRef decl.type)) :
    Meets w.store (Leaves p Ψ own ps) ((Act.setField x record v >>= fun _ ↦ pure []) w) := by
  refine Meets.bind (P := fun _ w' ↦ Leaves p Ψ own ps [] w') ?_ fun _ _ h ↦ h
  refine (meets_asRecord hσ hd hr).bind ?_
  rintro r _ ⟨rfl, count, hr, hfull⟩
  refine (meets_fields hσ hr).bind ?_
  rintro fs _ ⟨rfl, -⟩
  obtain ⟨Ψ', hσ', hgrow⟩ := hσ.setField hr hfull hx hv
  exact ⟨Ψ', hgrow, hσ', hown.mono hgrow⟩

/-- The next field of a record under construction, to which there is a second reference below. -/
theorem leaves_setNext {own : List Value} {ps : List Pending} {r n count : Nat} {v : Value}
    {d : StructDef} {decl : VarDef} (hσ : w.store.Typed p Ψ) (hown : OperandsTyped Ψ own ps)
    (hr : Ψ r = some (.record d count)) (hn : n ≤ count)
    (hnd : (d.fields.map (·.name.text)).Nodup) (hdecl : d.fields[n]? = some decl)
    (hv : v.HasTy Ψ (.ofRef decl.type)) :
    Meets w.store (Leaves p Ψ (.ref r :: own) (.built d (n + 1) :: ps))
      ((Act.setField decl.name.text (.ref r) v >>= fun _ ↦ pure []) w) := by
  refine Meets.bind (P := fun _ w' ↦ Leaves p Ψ (.ref r :: own) (.built d (n + 1) :: ps) [] w') ?_
    fun _ _ h ↦ h
  refine Meets.bind (x := Act.fields r) (meets_fields hσ hr) ?_
  rintro fs _ ⟨rfl, -⟩
  obtain ⟨Ψ', count', hσ', hgrow, hr', hn'⟩ := hσ.setNextField hr hn hnd hdecl hv
  exact ⟨Ψ', hgrow, hσ', .built hr' hn' (hown.mono hgrow)⟩

end

/-- What executing an instruction of the frame `fr` comes to when it goes on at `b`: the frame
owned the operands `own`, with `rest` below them. -/
inductive Executed (p : Program) (Ψ : StoreTy) (m : Machine) (fr : Frame) (frs : List Frame)
    (own rest : List Value) (w : World) (k : Nat) (b : Spot) :
    EStateM.Result Fault Machine Unit → Prop where
  /-- It is as `b` says, in a store that may have grown. -/
  | done {slots : Array Value} {own' : List Value} {w' : World} {Ψ' : StoreTy}
      (grows : Ψ.Grows Ψ') (store : w'.store.Typed p Ψ')
      (slotsTyped : SlotsTyped Ψ' b.scopes.bindings slots)
      (operands : OperandsTyped Ψ' own' b.pending) :
      Executed p Ψ m fr frs own rest w k b
        (.ok () (m.put ({ fr with slots := slots } :: frs) (own' ++ rest) w' k))
  /-- It has faulted; the store is as it was and operands may be gone. -/
  | fault {e : Fault} {own' : List Value} {w' : World} (expected : e.isExpected = true)
      (store : w'.store = w.store) (operands : own' <:+ own) :
      Executed p Ψ m fr frs own rest w k b (.error e (m.put (fr :: frs) (own' ++ rest) w' k))

section
variable {p : Program} {Ψ : StoreTy} {m : Machine} {fr : Frame} {frs : List Frame}
  {rest : List Value} {w : World} {k : Nat} {b : Spot}

theorem Executed.of_does {op : Op} {args own : List Value} {act : Act (List Value)}
    (hdoes : op.Does m.limits args act)
    (hslots : SlotsTyped Ψ b.scopes.bindings fr.slots)
    (h : Meets w.store (Leaves p Ψ own b.pending) (act w)) :
    Executed p Ψ m fr frs (args ++ own) rest w k b
      (op.exec (m.put (fr :: frs) (args ++ own ++ rest) w k)) := by
  have hexec := hdoes.exec (fr :: frs) (own ++ rest) w k
  rw [← List.append_assoc] at hexec
  cases hact : act w with
  | ok left w' =>
    rw [hact] at hexec h
    obtain ⟨Ψ', hgrow, hσ', hops⟩ := h
    rw [hexec, ← List.append_assoc]
    exact .done hgrow hσ' (hslots.mono hgrow) hops
  | error e w' =>
    rw [hact] at hexec h
    obtain ⟨left, hleft, hr⟩ := hexec
    rw [hr, ← List.append_assoc]
    refine .fault h.1 h.2 ?_
    obtain ⟨taken, htaken⟩ := hleft
    exact ⟨taken, by rw [← htaken, List.append_assoc]⟩

/-- An instruction that flows from `a` to `b`, executed where everything is as `a` says. -/
theorem Op.Flows.exec (hp : p.Checked) {op : Op} {a : Spot} {own : List Value}
    (h : op.Flows p a b) (hcall : ∀ x, op ≠ .call x) (hσ : w.store.Typed p Ψ)
    (hslots : SlotsTyped Ψ a.scopes.bindings fr.slots) (hown : OperandsTyped Ψ own a.pending)
    (m : Machine) (frs : List Frame) (rest : List Value) (k : Nat) :
    Executed p Ψ m fr frs own rest w k b (op.exec (m.put (fr :: frs) (own ++ rest) w k)) := by
  -- Each case takes apart the operands that are pending before the instruction. What comes of them
  -- is known from the action that it performs.
  cases h with
  | push l => exact .of_does (.push _) hslots (leaves_same hσ rfl (.val (.ofLiteral l) hown))
  | pop =>
    obtain ⟨v, own, rfl, -, hown⟩ := hown.val_inv
    exact .of_does (.pop v) hslots (leaves_same hσ rfl hown)
  | dup =>
    obtain ⟨r, count, own, rfl, hr, hn, hown⟩ := hown.record_inv
    exact .of_does (.dup _) hslots (leaves_same hσ rfl (.copy (.record hr hn hown)))
  | load hk =>
    obtain ⟨v, hv, ht⟩ := hslots _ _ _ hk
    rw [Op.exec_load hv, ← List.cons_append]
    exact .done (.refl Ψ) hσ hslots (.val ht hown)
  | store hk hfit =>
    obtain ⟨v, own, rfl, hv, hown⟩ := hown.val_inv
    exact .done (.refl Ψ) hσ (hslots.store hk (hv.of_fits hfit)) hown
  | declare hs hfit =>
    obtain ⟨v, own, rfl, hv, hown⟩ := hown.val_inv
    refine .done (.refl Ψ) hσ ?_ hown
    rw [Scopes.bindings_declare hs]
    exact hslots.declare (hv.of_fits hfit)
  | arith htype =>
    obtain ⟨rhs, own, rfl, hr, hown⟩ := hown.val_inv
    obtain ⟨lhs, own, rfl, hl, hown⟩ := hown.val_inv
    exact .of_does (.arith _ lhs rhs) hslots (leaves_value hσ hown (meets_arith htype hl hr))
  | logic =>
    obtain ⟨rhs, own, rfl, hr, hown⟩ := hown.val_inv
    obtain ⟨lhs, own, rfl, hl, hown⟩ := hown.val_inv
    exact .of_does (.logic _ lhs rhs) hslots (leaves_value hσ hown (meets_logic hl hr))
  | not =>
    obtain ⟨v, own, rfl, hv, hown⟩ := hown.val_inv
    exact .of_does (.not v) hslots (leaves_value hσ hown (meets_not hv))
  | order htype =>
    obtain ⟨rhs, own, rfl, hr, hown⟩ := hown.val_inv
    obtain ⟨lhs, own, rfl, hl, hown⟩ := hown.val_inv
    refine .of_does (.order _ lhs rhs) hslots ((meets_order htype hl hr).bind ?_)
    rintro c _ rfl
    exact leaves_same hσ rfl (.val (.bool c) hown)
  | equal =>
    obtain ⟨rhs, own, rfl, -, hown⟩ := hown.val_inv
    obtain ⟨lhs, own, rfl, -, hown⟩ := hown.val_inv
    exact .of_does (.equal lhs rhs) hslots (leaves_same hσ rfl (.val (.bool _) hown))
  | unequal =>
    obtain ⟨rhs, own, rfl, -, hown⟩ := hown.val_inv
    obtain ⟨lhs, own, rfl, -, hown⟩ := hown.val_inv
    exact .of_does (.unequal lhs rhs) hslots (leaves_same hσ rfl (.val (.bool _) hown))
  | call => exact absurd rfl (hcall _)
  | newRecord hd => exact .of_does .newRecord hslots (leaves_newRecord hσ hown hd)
  | setNext hn hd hfit =>
    obtain ⟨v, own, rfl, hv, hown⟩ := hown.val_inv
    obtain ⟨u, own, rfl, hrecord⟩ := hown.copy_inv
    obtain ⟨r, count, own, huo, hr, hle, hown⟩ := hrecord.record_inv
    obtain ⟨rfl, rfl⟩ := List.cons.inj huo
    exact .of_does (.setField _ _ v) hslots
      (leaves_setNext hσ hown hr hle (hp.fieldNames _ hd) hn (hv.of_fits hfit))
  | setField hd hx hfit =>
    obtain ⟨v, own, rfl, hv, hown⟩ := hown.val_inv
    obtain ⟨record, own, rfl, hr, hown⟩ := hown.val_inv
    exact .of_does (.setField _ record v) hslots
      (leaves_setField hσ hown hd hx hr (hv.of_fits hfit))
  | getField hd hx =>
    obtain ⟨record, own, rfl, hr, hown⟩ := hown.val_inv
    exact .of_does (.getField _ record) hslots (leaves_value hσ hown (meets_getField hσ hd hx hr))
  | newArray =>
    obtain ⟨v, own, rfl, hv, hown⟩ := hown.val_inv
    exact .of_does (.newArray v) hslots (leaves_newArray hσ hown hv)
  | setItem hfit =>
    obtain ⟨v, own, rfl, hv, hown⟩ := hown.val_inv
    obtain ⟨index, own, rfl, hi, hown⟩ := hown.val_inv
    obtain ⟨array, own, rfl, ha, hown⟩ := hown.val_inv
    exact .of_does (.setItem array index v) hslots
      (leaves_setItem hσ hown ha hi (hv.of_fits hfit))
  | getItem =>
    obtain ⟨index, own, rfl, hi, hown⟩ := hown.val_inv
    obtain ⟨array, own, rfl, ha, hown⟩ := hown.val_inv
    exact .of_does (.getItem array index) hslots (leaves_value hσ hown (meets_getItem hσ hi ha))
  | write _ =>
    obtain ⟨v, own, rfl, -, hown⟩ := hown.val_inv
    exact .of_does (.write v) hslots (leaves_same hσ rfl hown)
  | read =>
    refine .of_does .read hslots ((meets_readLine Ψ).bind ?_)
    rintro v w' ⟨hw, hv⟩
    exact leaves_same hσ hw (.val hv hown)
  | size ht =>
    obtain ⟨v, own, rfl, hv, hown⟩ := hown.val_inv
    exact .of_does (.size v) hslots (leaves_value hσ hown (meets_size hσ ht hv))
  | elementOfString =>
    obtain ⟨index, own, rfl, hi, hown⟩ := hown.val_inv
    obtain ⟨container, own, rfl, hc, hown⟩ := hown.val_inv
    exact .of_does (.element container index) hslots
      (leaves_value hσ hown (meets_element_str hi hc))
  | elementOfArray =>
    obtain ⟨index, own, rfl, hi, hown⟩ := hown.val_inv
    obtain ⟨container, own, rfl, hc, hown⟩ := hown.val_inv
    exact .of_does (.element container index) hslots
      (leaves_value hσ hown (meets_element_array hσ hi hc))
  | convert ht =>
    obtain ⟨v, own, rfl, hv, hown⟩ := hown.val_inv
    exact .of_does (.convert _ v) hslots (leaves_value hσ hown (meets_convert ht hv))

end

end Pebble
