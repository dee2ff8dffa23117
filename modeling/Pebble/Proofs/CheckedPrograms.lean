import Mathlib.Data.List.Find
import Mathlib.Data.List.Nodup
import Pebble.Proofs.Succeeding

/-!
# What a successful check says about the definitions

The facts about the definitions of a program that its check establishes, apart from those about
the bodies of its functions: names are different where they have to be, and there is a main
function of the right shape.
-/

namespace Pebble

/-- The definitions of a program that has been checked. -/
structure Program.Checked (p : Program) : Prop where
  /-- No two structs have one name. -/
  structNames : (p.structs.map (·.name.text)).Nodup
  /-- No two fields of a struct have one name. -/
  fieldNames : ∀ d ∈ p.structs, (d.fields.map (·.name.text)).Nodup
  /-- No two functions have one name. -/
  functionNames : (p.functions.map (·.name.text)).Nodup
  /-- No function has the name of a built-in function. -/
  notBuiltin : ∀ f ∈ p.functions, Builtin.ofName? f.name.text = none
  /-- There is a main function. -/
  main : ∃ f, p.function? "main" = some f
  /-- The functions have been checked. -/
  functions : ∀ f ∈ p.functions, f.check p = .ok ()

/-- Names are different if and only if they are new one after the other. -/
theorem nodup_cons_iff_new {α : Type} (key : α → String) {seen : List String} {a : α}
    {l : List α} :
    (((a :: l).map key).Nodup ∧ ∀ b ∈ a :: l, key b ∉ seen) ↔
      key a ∉ seen ∧ (l.map key).Nodup ∧ ∀ b ∈ l, key b ∉ key a :: seen := by
  rw [List.map_cons, List.nodup_cons]
  constructor
  · rintro ⟨⟨hfirst, hnd⟩, hseen⟩
    refine ⟨hseen a (List.mem_cons_self ..), hnd, fun b hb hmem ↦ ?_⟩
    rcases List.mem_cons.mp hmem with heq | hmem
    · exact hfirst (List.mem_map.mpr ⟨b, hb, heq⟩)
    · exact hseen b (List.mem_cons_of_mem _ hb) hmem
  · rintro ⟨hnew, hnd, hseen⟩
    refine ⟨⟨fun hmem ↦ ?_, hnd⟩, fun b hb ↦ ?_⟩
    · obtain ⟨b, hb, heq⟩ := List.mem_map.mp hmem
      exact hseen b hb (heq ▸ List.mem_cons_self ..)
    · rcases List.mem_cons.mp hb with rfl | hb
      · exact hnew
      · exact fun hmem ↦ hseen b hb (List.mem_cons_of_mem _ hmem)

theorem checkStructNames_eq_ok {seen : List String} {ds : List StructDef} {u : Unit} :
    checkStructNames seen ds = .ok u ↔
      (ds.map (·.name.text)).Nodup ∧ ∀ d ∈ ds, d.name.text ∉ seen := by
  induction ds generalizing seen with
  | nil => simp [checkStructNames]
  | cons d ds ih =>
    rw [nodup_cons_iff_new fun d : StructDef ↦ d.name.text]
    simp [checkStructNames, bind_eq_ok, require_eq_ok, ih]

theorem checkFunctionNames_eq_ok {seen : List String} {fs : List FunDef} {u : Unit} :
    checkFunctionNames seen fs = .ok u ↔
      ((fs.map (·.name.text)).Nodup ∧ ∀ f ∈ fs, f.name.text ∉ seen) ∧
        ∀ f ∈ fs, Builtin.ofName? f.name.text = none := by
  induction fs generalizing seen with
  | nil => simp [checkFunctionNames]
  | cons f fs ih =>
    rw [nodup_cons_iff_new fun f : FunDef ↦ f.name.text, List.forall_mem_cons]
    simp only [checkFunctionNames, bind_eq_ok, require_eq_ok, ih, exists_const,
      Option.isNone_iff_eq_none, Bool.not_eq_true', List.contains_eq_mem, decide_eq_false_iff_not]
    tauto

theorem checkFields_eq_ok {p : Program} {seen : List String} {vs : List VarDef} {u : Unit}
    (h : checkFields p seen vs = .ok u) :
    (vs.map (·.name.text)).Nodup ∧ ∀ v ∈ vs, v.name.text ∉ seen := by
  induction vs generalizing seen with
  | nil => simp
  | cons v vs ih =>
    simp only [checkFields, bind_eq_ok, require_eq_ok] at h
    obtain ⟨-, hnew, -, -, hrest⟩ := h
    exact (nodup_cons_iff_new fun v : VarDef ↦ v.name.text).mpr ⟨by simpa using hnew, ih hrest⟩

/-- What a check comes to: apart from the types of fields, all of it is in `Program.Checked`. -/
theorem Program.check_eq_ok {p : Program} :
    p.check = .ok () ↔ p.Checked ∧ ∀ d ∈ p.structs, checkFields p [] d.fields = .ok () := by
  constructor
  · intro h
    simp only [Program.check, bind_eq_ok] at h
    obtain ⟨_, hstructs, _, hfunctions, hmain⟩ := h
    by_cases hnone : (p.function? "main").isNone
    · rw [if_pos hnone] at hmain
      cases hmain
    · rw [if_neg hnone, bind_eq_ok] at hmain
      obtain ⟨_, hfields, hbodies⟩ := hmain
      have hfields := forM_eq_ok.mp hfields
      obtain ⟨⟨hnd, -⟩, hbuiltin⟩ := checkFunctionNames_eq_ok.mp hfunctions
      refine ⟨⟨(checkStructNames_eq_ok.mp hstructs).1, fun d hd ↦ ?_, hnd, hbuiltin, ?_, ?_⟩,
        hfields⟩
      · exact (checkFields_eq_ok (hfields d hd)).1
      · exact Option.ne_none_iff_exists'.mp (by simpa using hnone)
      · exact forM_eq_ok.mp hbodies
  · rintro ⟨hp, hfields⟩
    obtain ⟨f, hf⟩ := hp.main
    simp only [Program.check, bind_eq_ok]
    refine ⟨(), ?_, (), ?_, ?_⟩
    · exact checkStructNames_eq_ok.mpr ⟨hp.structNames, fun _ _ ↦ List.not_mem_nil⟩
    · exact checkFunctionNames_eq_ok.mpr
        ⟨⟨hp.functionNames, fun _ _ ↦ List.not_mem_nil⟩, hp.notBuiltin⟩
    · rw [hf, if_neg (by simp), bind_eq_ok]
      exact ⟨(), forM_eq_ok.mpr hfields, forM_eq_ok.mpr hp.functions⟩

theorem Program.checked_of_check {p : Program} (h : p.check = .ok ()) : p.Checked :=
  (Program.check_eq_ok.mp h).1

/-! ## Finding definitions by name -/

/-- Without repeated names, what is found under a name does not depend on the order. -/
theorem find?_of_perm {α : Type} (key : α → String) (x : String) {l l' : List α}
    (hperm : l'.Perm l) (h : (l.map key).Nodup) :
    l'.find? (key · == x) = l.find? (key · == x) := by
  refine (List.find?_eq_find?_of_perm hperm.symm ?_).symm
  rintro a ⟨ha, hax⟩ b ⟨hb, hbx⟩
  have hkey : key a = key b := (beq_iff_eq.mp hax).trans (beq_iff_eq.mp hbx).symm
  exact List.inj_on_of_nodup_map h ha hb hkey

/-- In a list without repeated names, the last element of a name is the first. -/
theorem find?_reverse_of_nodup {α : Type} (key : α → String) (x : String) {l : List α}
    (h : (l.map key).Nodup) : l.reverse.find? (key · == x) = l.find? (key · == x) :=
  find?_of_perm key x l.reverse_perm h

namespace Program

theorem struct?_some {p : Program} {x : String} {d : StructDef} (h : p.struct? x = some d) :
    d ∈ p.structs ∧ d.name.text = x := by
  rw [struct?] at h
  exact ⟨List.mem_of_find?_eq_some h, by simpa using List.find?_some h⟩

theorem function?_some {p : Program} {x : String} {f : FunDef} (h : p.function? x = some f) :
    f ∈ p.functions ∧ f.name.text = x := by
  rw [function?] at h
  exact ⟨List.mem_of_find?_eq_some h, by simpa using List.find?_some h⟩

theorem Checked.fieldsOf_eq {p : Program} (hp : p.Checked) {x : Name} {d : StructDef}
    (h : p.struct? x.text = some d) : p.fieldsOf x = .ok (d.fields.map (·.name.text)) := by
  have hfind : p.structs.reverse.find? (·.name.text == x.text) = some d := by
    rw [← h, struct?]
    exact find?_reverse_of_nodup (fun d : StructDef ↦ d.name.text) x.text hp.structNames
  rw [fieldsOf, hfind]

end Program

end Pebble
