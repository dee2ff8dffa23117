import Mathlib.Data.List.Forall2
import Pebble.Proofs.Succeeding
import Pebble.Store

/-!
# Values and objects of a static type

A value belongs to a type relative to a *store type*, which says of every reference what it refers
to. `null` belongs to every type and nothing else belongs to the type of `null`.

## Records that are being built

A record exists before its fields do, and its constructor arguments may allocate and call as they
please in between. The type of a record therefore counts the fields that have been set, in the
order of the struct. The count only grows. A reference is a value of the struct once the count has
reached the number of fields, so a value never stops being one, and a record under construction is
none yet.
-/

namespace Pebble

/-- What a reference refers to. -/
inductive ObjTy where
  /-- A record of a struct in which exactly the first `count` fields are set. -/
  | record (d : StructDef) (count : Nat)
  | array (elem : TypeName)

/-- What each reference refers to. -/
abbrev StoreTy := Nat → Option ObjTy

/-- `v.HasTy Ψ t`: the value `v` is `null` or a value of type `t`. -/
inductive Value.HasTy (Ψ : StoreTy) : Value → Ty → Prop where
  | null (t : Ty) : HasTy Ψ .null t
  | int (n : Int32) : HasTy Ψ (.int n) (.one .int)
  | double (d : Float) : HasTy Ψ (.double d) (.one .double)
  | bool (b : Bool) : HasTy Ψ (.bool b) (.one .bool)
  | str (s : String) : HasTy Ψ (.str s) (.one .string)
  | record {r : Nat} {d : StructDef} {count : Nat} (h : Ψ r = some (.record d count))
      (complete : d.fields.length ≤ count) : HasTy Ψ (.ref r) (.one (.struct d.name.text))
  | array {r : Nat} {elem : TypeName} (h : Ψ r = some (.array elem)) :
      HasTy Ψ (.ref r) (.array elem)

/-- A field with its value against its declaration. -/
def FieldTyped (Ψ : StoreTy) (fv : String × Value) (decl : VarDef) : Prop :=
  fv.1 = decl.name.text ∧ fv.2.HasTy Ψ (.ofRef decl.type)

/-- An object of the given type: a record has its first fields, in order and well typed, and an
array has cells of its element type. -/
inductive Obj.Typed (p : Program) (Ψ : StoreTy) : Obj → ObjTy → Prop where
  | record {fs : Fields} {d : StructDef} {count : Nat} (known : p.struct? d.name.text = some d)
      (fields : List.Forall₂ (FieldTyped Ψ) fs (d.fields.take count)) :
      Typed p Ψ (.record fs) (.record d count)
  | array {cells : Array Value} {elem : TypeName} (typed : ∀ v ∈ cells, v.HasTy Ψ (.one elem)) :
      Typed p Ψ (.array cells) (.array elem)

/-- A store whose objects are all as the store type says. -/
structure Store.Typed (p : Program) (Ψ : StoreTy) (σ : Store) : Prop where
  /-- What has a type is there and is of that type. -/
  typed : ∀ r τ, Ψ r = some τ → ∃ o, σ.get? r = some o ∧ o.Typed p Ψ τ
  /-- What is there has a type. -/
  covers : ∀ r o, σ.get? r = some o → ∃ τ, Ψ r = some τ

/-! ## Growing store types -/

/-- Arrays stay what they are; of a record more and more fields are set. -/
inductive ObjTy.Grows : ObjTy → ObjTy → Prop where
  | record {d : StructDef} {n k : Nat} (h : n ≤ k) : Grows (.record d n) (.record d k)
  | array (elem : TypeName) : Grows (.array elem) (.array elem)

namespace StoreTy

/-- The second store type knows all that the first knows. -/
def Grows (Ψ Ψ' : StoreTy) : Prop :=
  ∀ r τ, Ψ r = some τ → ∃ τ', Ψ' r = some τ' ∧ τ.Grows τ'

theorem Grows.refl (Ψ : StoreTy) : Grows Ψ Ψ := by
  intro r τ h
  refine ⟨τ, h, ?_⟩
  cases τ with
  | record d n => exact .record (Nat.le_refl n)
  | array elem => exact .array elem

/-- A store type with one reference changed. -/
def set (Ψ : StoreTy) (r : Nat) (τ : ObjTy) : StoreTy :=
  fun r' ↦ if r' = r then some τ else Ψ r'

@[simp] theorem set_same (Ψ : StoreTy) (r : Nat) (τ : ObjTy) : Ψ.set r τ r = some τ :=
  if_pos rfl

theorem set_other (Ψ : StoreTy) {r r' : Nat} (τ : ObjTy) (h : r' ≠ r) :
    Ψ.set r τ r' = Ψ r' := if_neg h

theorem grows_set {Ψ : StoreTy} (r : Nat) (τ : ObjTy)
    (h : ∀ τ₀, Ψ r = some τ₀ → τ₀.Grows τ) : Ψ.Grows (Ψ.set r τ) := by
  intro r' τ' hr'
  by_cases hr : r' = r
  · subst hr
    exact ⟨τ, set_same Ψ r' τ, h τ' hr'⟩
  · obtain ⟨τ'', h', hg⟩ := Grows.refl Ψ r' τ' hr'
    exact ⟨τ'', (set_other Ψ τ hr).trans h', hg⟩

end StoreTy

section
variable {p : Program} {Ψ Ψ' : StoreTy}

namespace Value.HasTy

theorem mono {v : Value} {t : Ty} (hg : Ψ.Grows Ψ') (h : v.HasTy Ψ t) : v.HasTy Ψ' t := by
  cases h with
  | null => exact .null t
  | int n => exact .int n
  | double d => exact .double d
  | bool b => exact .bool b
  | str s => exact .str s
  | record h complete =>
    obtain ⟨τ', h', hτ⟩ := hg _ _ h
    cases hτ with
    | record hle => exact .record h' (Nat.le_trans complete hle)
  | array h =>
    obtain ⟨τ', h', hτ⟩ := hg _ _ h
    cases hτ with
    | array => exact .array h'

/-- Only `null` has the type of `null`. -/
theorem eq_null {v : Value} (h : v.HasTy Ψ .null) : v = .null := by
  cases h
  rfl

theorem of_fits {v : Value} {t wanted : Ty} (h : v.HasTy Ψ t) (hfit : t.fits wanted = true) :
    v.HasTy Ψ wanted := by
  have hcases : t = .null ∨ t = wanted := by simpa [Ty.fits] using hfit
  rcases hcases with rfl | rfl
  · rw [h.eq_null]
    exact .null wanted
  · exact h

theorem ofLiteral (l : Literal) : (Value.ofLiteral l).HasTy Ψ l.type := by
  cases l with
  | int n => exact .int n
  | double d => exact .double d
  | bool b => exact .bool b
  | str s => exact .str s
  | null => exact .null _

end Value.HasTy

theorem FieldTyped.mono {fv : String × Value} {decl : VarDef} (hg : Ψ.Grows Ψ')
    (h : FieldTyped Ψ fv decl) : FieldTyped Ψ' fv decl :=
  ⟨h.1, h.2.mono hg⟩

theorem Obj.Typed.mono {o : Obj} {τ : ObjTy} (hg : Ψ.Grows Ψ') (h : o.Typed p Ψ τ) :
    o.Typed p Ψ' τ := by
  cases h with
  | record known fields =>
    exact .record known (fields.imp fun _ _ hf ↦ hf.mono hg)
  | array typed => exact .array fun v hv ↦ (typed v hv).mono hg

/-! ## Changing the store -/

namespace Store

variable {σ : Store}

theorem get?_next (σ : Store) : σ.get? σ.next = none := by
  simp [next, get?]

theorem get?_add_next (σ : Store) (o : Obj) : (σ.add o).get? σ.next = some o := by
  simp [next, get?, add]

theorem get?_add_of_ne (σ : Store) (o : Obj) {r : Nat} (h : r ≠ σ.next) :
    (σ.add o).get? r = σ.get? r := by
  cases r with
  | zero => rfl
  | succ n =>
    have hn : n ≠ σ.objects.size := fun hn ↦ h (by rw [next, hn])
    simp [get?, add, Array.getElem?_push, hn]

theorem get?_update_self (σ : Store) (r : Nat) (f : Obj → Obj) :
    (σ.update r f).get? r = (σ.get? r).map f := by
  cases r with
  | zero => rfl
  | succ n => simp [get?, update, Array.getElem?_modify]

theorem get?_update_of_ne (σ : Store) {r r' : Nat} (f : Obj → Obj) (h : r' ≠ r) :
    (σ.update r f).get? r' = σ.get? r' := by
  cases r with
  | zero => rfl
  | succ n =>
    cases r' with
    | zero => rfl
    | succ n' =>
      have hn : ¬ n = n' := fun hn ↦ h (by rw [hn])
      simp [get?, update, Array.getElem?_modify, hn]

namespace Typed

/-- A reference that has not been handed out has no type. -/
theorem next_eq_none (h : σ.Typed p Ψ) : Ψ σ.next = none := by
  cases hτ : Ψ σ.next with
  | none => rfl
  | some τ =>
    obtain ⟨o, ho, -⟩ := h.typed _ _ hτ
    rw [get?_next] at ho
    cases ho

theorem grows_next (h : σ.Typed p Ψ) (τ : ObjTy) : Ψ.Grows (Ψ.set σ.next τ) :=
  StoreTy.grows_set _ τ fun τ₀ h₀ ↦ by rw [h.next_eq_none] at h₀; cases h₀

/-- Allocating an object. -/
theorem add {o : Obj} {τ : ObjTy} (h : σ.Typed p Ψ) (ho : o.Typed p (Ψ.set σ.next τ) τ) :
    (σ.add o).Typed p (Ψ.set σ.next τ) where
  typed r τ' hr := by
    by_cases hnext : r = σ.next
    · subst hnext
      rw [StoreTy.set_same, Option.some.injEq] at hr
      exact ⟨o, get?_add_next σ o, hr ▸ ho⟩
    · rw [StoreTy.set_other _ _ hnext] at hr
      obtain ⟨o', ho', ht⟩ := h.typed r τ' hr
      exact ⟨o', by rw [get?_add_of_ne σ o hnext, ho'], ht.mono (h.grows_next τ)⟩
  covers r o' hr := by
    by_cases hnext : r = σ.next
    · exact ⟨τ, by rw [hnext, StoreTy.set_same]⟩
    · rw [get?_add_of_ne σ o hnext] at hr
      rw [StoreTy.set_other _ _ hnext]
      exact h.covers r o' hr

/-- Changing an object, whose type may grow by that. -/
theorem update {r : Nat} {f : Obj → Obj} {τ₀ τ : ObjTy} (h : σ.Typed p Ψ)
    (hr : Ψ r = some τ₀) (hg : τ₀.Grows τ)
    (hf : ∀ o, o.Typed p (Ψ.set r τ) τ₀ → (f o).Typed p (Ψ.set r τ) τ) :
    (σ.update r f).Typed p (Ψ.set r τ) ∧ Ψ.Grows (Ψ.set r τ) := by
  have hgrows : Ψ.Grows (Ψ.set r τ) := StoreTy.grows_set r τ fun τ₁ h₁ ↦ by
    rw [hr, Option.some.injEq] at h₁
    exact h₁ ▸ hg
  refine ⟨⟨fun r' τ' hr' ↦ ?_, fun r' o' hr' ↦ ?_⟩, hgrows⟩
  · by_cases hsame : r' = r
    · subst hsame
      rw [StoreTy.set_same, Option.some.injEq] at hr'
      obtain ⟨o, ho, ht⟩ := h.typed r' τ₀ hr
      refine ⟨f o, by rw [get?_update_self, ho]; rfl, ?_⟩
      exact hr' ▸ hf o (ht.mono hgrows)
    · rw [StoreTy.set_other _ _ hsame] at hr'
      obtain ⟨o, ho, ht⟩ := h.typed r' τ' hr'
      exact ⟨o, by rw [get?_update_of_ne σ f hsame, ho], ht.mono hgrows⟩
  · by_cases hsame : r' = r
    · exact ⟨τ, by rw [hsame, StoreTy.set_same]⟩
    · rw [get?_update_of_ne σ f hsame] at hr'
      rw [StoreTy.set_other _ _ hsame]
      exact h.covers r' o' hr'

/-- The cells behind a reference to an array. -/
theorem cells_eq {r : Nat} {elem : TypeName} (h : σ.Typed p Ψ) (hr : Ψ r = some (.array elem)) :
    ∃ cells, σ.cells r = .ok cells ∧ ∀ v ∈ cells, v.HasTy Ψ (.one elem) := by
  obtain ⟨o, ho, ht⟩ := h.typed r _ hr
  cases ht with
  | array typed => exact ⟨_, by rw [Store.cells, ho], typed⟩

/-- The fields behind a reference to a record. -/
theorem fields_eq {r : Nat} {d : StructDef} {count : Nat} (h : σ.Typed p Ψ)
    (hr : Ψ r = some (.record d count)) :
    ∃ fs, σ.fields r = .ok fs ∧ p.struct? d.name.text = some d ∧
      List.Forall₂ (FieldTyped Ψ) fs (d.fields.take count) := by
  obtain ⟨o, ho, ht⟩ := h.typed r _ hr
  cases ht with
  | record known fields => exact ⟨_, by rw [Store.fields, ho], known, fields⟩

/-- Setting a cell of an array. -/
theorem setCell {r i : Nat} {elem : TypeName} {v : Value} (h : σ.Typed p Ψ)
    (hr : Ψ r = some (.array elem)) (hv : v.HasTy Ψ (.one elem)) :
    ∃ Ψ', (σ.setCell r i v).Typed p Ψ' ∧ Ψ.Grows Ψ' := by
  refine ⟨_, h.update hr (.array elem) fun o ho ↦ ?_⟩
  have hv' := hv.mono (StoreTy.grows_set r (.array elem) fun τ₀ h₀ ↦ by
    rw [hr, Option.some.injEq] at h₀
    exact h₀ ▸ .array elem)
  cases ho with
  | array typed =>
    refine .array fun u hu ↦ ?_
    rcases Array.mem_or_eq_of_mem_setIfInBounds hu with hu | rfl
    · exact typed u hu
    · exact hv'

end Typed

end Store

/-! ## Setting fields -/

/-- Setting the field at place `n` of a record that has at least the fields before it. -/
theorem fieldsTyped_set {v : Value} {decl : VarDef} (hv : v.HasTy Ψ (.ofRef decl.type)) :
    ∀ {decls : List VarDef} {fs : Fields} {count n : Nat},
      (decls.map (·.name.text)).Nodup → decls[n]? = some decl → n ≤ count →
      List.Forall₂ (FieldTyped Ψ) fs (decls.take count) →
      List.Forall₂ (FieldTyped Ψ) (fs.set decl.name.text v)
        (decls.take (max count (n + 1))) := by
  intro decls
  induction decls with
  | nil => intro fs count n _ hn; simp at hn
  | cons g decls ih =>
    intro fs count n hnd hn hle hfs
    have hnew : FieldTyped Ψ (decl.name.text, v) decl := ⟨rfl, hv⟩
    cases n with
    | zero =>
      have hg : g = decl := by simpa using hn
      subst hg
      cases count with
      | zero =>
        rw [List.take_zero] at hfs
        cases hfs
        exact .cons hnew .nil
      | succ count =>
        rw [List.take_succ_cons] at hfs
        rw [show max (count + 1) (0 + 1) = count + 1 by omega, List.take_succ_cons]
        cases hfs with
        | cons hd tl =>
          rw [Fields.set, if_pos hd.1]
          exact .cons hnew tl
    | succ n =>
      obtain ⟨count, rfl⟩ : ∃ c, count = c + 1 := ⟨count - 1, by omega⟩
      rw [List.getElem?_cons_succ] at hn
      rw [List.map_cons, List.nodup_cons] at hnd
      rw [List.take_succ_cons] at hfs
      rw [show max (count + 1) (n + 1 + 1) = max count (n + 1) + 1 by omega, List.take_succ_cons]
      cases hfs with
      | @cons fv _ fs _ hd tl =>
        -- A field that is not the first one has another name.
        have hne : ¬ fv.1 = decl.name.text := fun heq ↦
          hnd.1 (List.mem_map.mpr ⟨decl, List.mem_of_getElem? hn, by rw [← heq, hd.1]⟩)
        rw [Fields.set, if_neg hne]
        exact .cons hd (ih hnd.2 hn (by omega) tl)

/-- Setting a field that a complete record has. -/
theorem fieldsTyped_set_of_find {x : String} {v : Value} {decl : VarDef}
    (hv : v.HasTy Ψ (.ofRef decl.type)) :
    ∀ {decls : List VarDef} {fs : Fields}, decls.find? (·.name.text == x) = some decl →
      List.Forall₂ (FieldTyped Ψ) fs decls → List.Forall₂ (FieldTyped Ψ) (fs.set x v) decls := by
  intro decls
  induction decls with
  | nil => intro fs hfind; simp at hfind
  | cons g decls ih =>
    intro fs hfind hfs
    cases hfs with
    | @cons fv _ fs _ hd tl =>
      by_cases hx : g.name.text = x
      · rw [List.find?_cons_of_pos (by simpa using hx), Option.some.injEq] at hfind
        subst hfind
        rw [Fields.set, if_pos (hd.1.trans hx)]
        exact .cons ⟨hx.symm, hv⟩ tl
      · rw [List.find?_cons_of_neg (by simpa using hx)] at hfind
        rw [Fields.set, if_neg (fun heq ↦ hx (hd.1.symm.trans heq))]
        exact .cons hd (ih hfind tl)

/-- A declared field of a complete record has a value. -/
theorem fieldsTyped_get {x : String} {decl : VarDef} :
    ∀ {decls : List VarDef} {fs : Fields}, decls.find? (·.name.text == x) = some decl →
      List.Forall₂ (FieldTyped Ψ) fs decls →
      ∃ v, Fields.get? fs x = some v ∧ v.HasTy Ψ (.ofRef decl.type) := by
  intro decls
  induction decls with
  | nil => intro fs hfind; simp at hfind
  | cons g decls ih =>
    intro fs hfind hfs
    cases hfs with
    | @cons fv _ fs _ hd tl =>
      obtain ⟨y, u⟩ := fv
      by_cases hx : g.name.text = x
      · rw [List.find?_cons_of_pos (by simpa using hx), Option.some.injEq] at hfind
        subst hfind
        refine ⟨u, ?_, hd.2⟩
        have hxy : (x == y) = true := by simpa using (hd.1.trans hx).symm
        rw [Fields.get?, List.lookup_cons, hxy]
      · rw [List.find?_cons_of_neg (by simpa using hx)] at hfind
        obtain ⟨v, hget, hv⟩ := ih hfind tl
        refine ⟨v, ?_, hv⟩
        have hxy : (x == y) = false := by
          simpa using fun heq : x = y ↦ hx (heq.trans hd.1).symm
        rw [Fields.get?, List.lookup_cons, hxy]
        exact hget

namespace Store.Typed

variable {σ : Store}

/-- Setting the next field of a record under construction. -/
theorem setNextField {r n count : Nat} {d : StructDef} {decl : VarDef} {v : Value}
    (h : σ.Typed p Ψ) (hr : Ψ r = some (.record d count)) (hle : n ≤ count)
    (hnd : (d.fields.map (·.name.text)).Nodup) (hn : d.fields[n]? = some decl)
    (hv : v.HasTy Ψ (.ofRef decl.type)) :
    ∃ Ψ' count', (σ.setField r decl.name.text v).Typed p Ψ' ∧ Ψ.Grows Ψ' ∧
      Ψ' r = some (.record d count') ∧ n + 1 ≤ count' := by
  have hgrow : ObjTy.Grows (.record d count) (.record d (max count (n + 1))) :=
    .record (Nat.le_max_left ..)
  have hv' := hv.mono (StoreTy.grows_set r (.record d (max count (n + 1)))
    fun τ₀ h₀ ↦ by rw [hr, Option.some.injEq] at h₀; exact h₀ ▸ hgrow)
  have hupd : (σ.setField r decl.name.text v).Typed p (Ψ.set r (.record d (max count (n + 1)))) ∧
      Ψ.Grows (Ψ.set r (.record d (max count (n + 1)))) := by
    refine h.update hr hgrow fun o ho ↦ ?_
    cases ho with
    | record known fields => exact .record known (fieldsTyped_set hv' hnd hn hle fields)
  exact ⟨_, _, hupd.1, hupd.2, StoreTy.set_same .., Nat.le_max_right ..⟩

/-- Setting a field of a complete record. -/
theorem setField {r count : Nat} {d : StructDef} {x : String} {decl : VarDef} {v : Value}
    (h : σ.Typed p Ψ) (hr : Ψ r = some (.record d count)) (hfull : d.fields.length ≤ count)
    (hx : d.fields.find? (·.name.text == x) = some decl) (hv : v.HasTy Ψ (.ofRef decl.type)) :
    ∃ Ψ', (σ.setField r x v).Typed p Ψ' ∧ Ψ.Grows Ψ' := by
  have hv' := hv.mono (StoreTy.grows_set r (.record d count)
    fun τ₀ h₀ ↦ by rw [hr, Option.some.injEq] at h₀; exact h₀ ▸ .record (Nat.le_refl _))
  refine ⟨_, h.update hr (.record (Nat.le_refl _)) fun o ho ↦ ?_⟩
  cases ho with
  | record known fields =>
    refine .record known ?_
    rw [List.take_of_length_le hfull] at fields ⊢
    exact fieldsTyped_set_of_find hv' hx fields

end Store.Typed

end

end Pebble
