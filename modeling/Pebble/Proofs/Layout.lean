import Pebble.Code.Verify
import Pebble.Proofs.Succeeding

/-!
# How code is laid out

Code is a flat list, and the code of each part of a program stands somewhere in it. `StandsAt` says
where; it is used of instructions and of what is known about them alike.

The code of a statement also hands on the variables for the next one. Only a declaration changes
them: whatever is declared in a block has been given back when the block is closed.
-/

namespace Pebble

section
variable {α : Type} {whole part part' : List α} {n k : Nat} {a : α}

/-- `part` stands at index `n` of `whole`. -/
def StandsAt (whole : List α) (n : Nat) (part : List α) : Prop :=
  part <+: whole.drop n

theorem standsAt_self (whole : List α) : StandsAt whole 0 whole := List.prefix_refl _

theorem StandsAt.get (h : StandsAt whole n part) (hk : part[k]? = some a) :
    whole[n + k]? = some a := by
  obtain ⟨rest, hrest⟩ := h
  obtain ⟨hlt, -⟩ := List.getElem?_eq_some_iff.mp hk
  rw [← List.getElem?_drop, ← hrest, List.getElem?_append_left hlt, hk]

theorem standsAt_append :
    StandsAt whole n (part ++ part') ↔
      StandsAt whole n part ∧ StandsAt whole (n + part.length) part' := by
  rw [StandsAt, StandsAt, StandsAt, ← List.drop_drop]
  constructor
  · rintro ⟨rest, hrest⟩
    rw [← hrest, List.append_assoc, List.drop_left]
    exact ⟨List.prefix_append _ _, List.prefix_append _ _⟩
  · rintro ⟨⟨rest, hrest⟩, h'⟩
    rw [← hrest, List.drop_left] at h'
    rw [← hrest]
    exact (List.prefix_append_right_inj part).mpr h'

theorem standsAt_cons :
    StandsAt whole n (a :: part) ↔ whole[n]? = some a ∧ StandsAt whole (n + 1) part := by
  rw [← List.singleton_append, standsAt_append, List.length_singleton]
  refine and_congr_left fun _ ↦ ⟨fun h ↦ h.get (k := 0) rfl, fun h ↦ ?_⟩
  obtain ⟨hn, rfl⟩ := List.getElem?_eq_some_iff.mp h
  rw [StandsAt, List.drop_eq_getElem_cons hn]
  exact ⟨_, rfl⟩

end

/-! ## The variables after a statement -/

/-- `t'` is `t` with one more scope open, in which variables may have been declared. -/
def SlotTable.Inside (t t' : SlotTable) : Prop :=
  ∃ xs, t' = ⟨xs ++ t.names, t.names.length :: t.marks⟩

namespace SlotTable

variable {t t' : SlotTable}

theorem inside_push (t : SlotTable) : Inside t t.push := ⟨[], rfl⟩

theorem Inside.declare (h : Inside t t') (x : String) : Inside t (t'.declare x) := by
  obtain ⟨xs, rfl⟩ := h
  exact ⟨x :: xs, rfl⟩

theorem Inside.pop_eq (h : Inside t t') : t'.pop = t := by
  obtain ⟨xs, rfl⟩ := h
  simp only [pop, List.length_append, Nat.add_sub_cancel, List.drop_left]

end SlotTable

/-- The variables after a statement. -/
def Stmt.slotsAfter (t : SlotTable) : Stmt → SlotTable
  | .var name _ _ => t.declare name.text
  | _ => t

/-- The variables after some statements. -/
def slotsAfterAll (t : SlotTable) : List Stmt → SlotTable
  | [] => t
  | stmt :: stmts => slotsAfterAll (stmt.slotsAfter t) stmts

theorem SlotTable.Inside.slotsAfterAll {t t' : SlotTable} (h : Inside t t') (stmts : List Stmt) :
    Inside t (slotsAfterAll t' stmts) := by
  induction stmts generalizing t' with
  | nil => exact h
  | cons stmt stmts ih =>
    refine ih ?_
    cases stmt with
    | var name type init => exact h.declare name.text
    | assign | ret | whileLoop | forLoop | ifElse | call => exact h

section
variable {p : Program}

mutual

/-- The table that comes with the code of a statement. -/
theorem Stmt.code_slots {t t' : SlotTable} {n : Nat} {c : List Instr} :
    (stmt : Stmt) → stmt.code p t n = .ok (c, t') → t' = stmt.slotsAfter t
  | .var name type none, h | .var name type (some init), h => by
    simp only [Stmt.code, bind_eq_ok, pure_eq_ok, Prod.mk.injEq] at h
    obtain ⟨v, -, -, rfl⟩ := h
    rfl
  | .assign target value, h | .ret pos value, h | .call callee args, h => by
    simp only [Stmt.code, bind_eq_ok, pure_eq_ok, Prod.mk.injEq] at h
    obtain ⟨v, -, -, rfl⟩ := h
    rfl
  | .whileLoop cond body, h => by
    simp only [Stmt.code, bind_eq_ok, pure_eq_ok, Prod.mk.injEq] at h
    obtain ⟨c, -, ⟨b, t''⟩, hb, -, rfl⟩ := h
    rw [blockCode_slots body hb]
    exact ((SlotTable.inside_push t).slotsAfterAll body).pop_eq
  | .forLoop var first last body, h => by
    simp only [Stmt.code, bind_eq_ok, pure_eq_ok, Prod.mk.injEq] at h
    obtain ⟨a, -, l, -, ⟨b, t''⟩, hb, -, rfl⟩ := h
    rw [blockCode_slots body hb]
    exact (((SlotTable.inside_push t).declare var.text).slotsAfterAll body).pop_eq
  | .ifElse cond body other, h => by
    simp only [Stmt.code, bind_eq_ok, pure_eq_ok, Prod.mk.injEq] at h
    obtain ⟨c, -, ⟨b, t''⟩, hb, ⟨rest, t₃⟩, hrest, -, rfl⟩ := h
    rw [Else.code_slots other hrest, blockCode_slots body hb]
    exact ((SlotTable.inside_push t).slotsAfterAll body).pop_eq

theorem Else.code_slots {t t' : SlotTable} {n : Nat} {c : List Instr} :
    (other : Else) → other.code p t n = .ok (c, t') → t' = t
  | .none, h => by
    cases h
    rfl
  | .block body, h => by
    simp only [Else.code, bind_eq_ok, pure_eq_ok, Prod.mk.injEq] at h
    obtain ⟨⟨b, t''⟩, hb, -, rfl⟩ := h
    rw [blockCode_slots body hb]
    exact ((SlotTable.inside_push t).slotsAfterAll body).pop_eq
  | .elseIf cond body other, h => by
    simp only [Else.code, bind_eq_ok, pure_eq_ok, Prod.mk.injEq] at h
    obtain ⟨c, -, ⟨b, t''⟩, hb, ⟨rest, t₃⟩, hrest, -, rfl⟩ := h
    rw [Else.code_slots other hrest, blockCode_slots body hb]
    exact ((SlotTable.inside_push t).slotsAfterAll body).pop_eq

theorem blockCode_slots {t t' : SlotTable} {n : Nat} {c : List Instr} :
    (stmts : List Stmt) → blockCode p t n stmts = .ok (c, t') → t' = slotsAfterAll t stmts
  | [], h => by
    cases h
    rfl
  | stmt :: stmts, h => by
    simp only [blockCode, bind_eq_ok, pure_eq_ok, Prod.mk.injEq] at h
    obtain ⟨⟨b, t₁⟩, hb, ⟨rest, t₂⟩, hrest, -, rfl⟩ := h
    rw [blockCode_slots stmts hrest, Stmt.code_slots stmt hb]
    rfl

end

/-- Leaving a block restores the variables. -/
theorem blockCode_pop {t t' : SlotTable} {n : Nat} {c : List Instr} {body : List Stmt}
    (h : blockCode p t.push n body = .ok (c, t')) : t'.pop = t := by
  rw [blockCode_slots body h]
  exact ((SlotTable.inside_push t).slotsAfterAll body).pop_eq

/-! ## Jumps -/

/-- Code in which every jump goes forward to at most `n`, or back. -/
def JumpsWithin (n : Nat) (c : List Instr) : Prop :=
  ∀ i ∈ c, ∀ target, i.op.target? = some target → 0 ≤ target ∧ target ≤ n

section
variable {n k : Nat} {i : Instr} {c c' : List Instr}

theorem jumpsWithin_nil : JumpsWithin n [] := by
  intro i hi
  cases hi

theorem jumpsWithin_cons :
    JumpsWithin n (i :: c) ↔
      (∀ target, i.op.target? = some target → 0 ≤ target ∧ target ≤ n) ∧ JumpsWithin n c :=
  List.forall_mem_cons

theorem jumpsWithin_append :
    JumpsWithin n (c ++ c') ↔ JumpsWithin n c ∧ JumpsWithin n c' :=
  List.forall_mem_append

theorem JumpsWithin.cons_of_none (hi : i.op.target? = none) (h : JumpsWithin n c) :
    JumpsWithin n (i :: c) :=
  jumpsWithin_cons.mpr ⟨fun _ htarget ↦ absurd (hi.symm.trans htarget) (by simp), h⟩

theorem JumpsWithin.single (hi : i.op.target? = none) : JumpsWithin n [i] :=
  jumpsWithin_nil.cons_of_none hi

theorem JumpsWithin.append (h : JumpsWithin n c) (h' : JumpsWithin n c') :
    JumpsWithin n (c ++ c') :=
  jumpsWithin_append.mpr ⟨h, h'⟩

theorem JumpsWithin.mono (h : JumpsWithin n c) (hle : n ≤ k) : JumpsWithin k c := by
  intro i hi target htarget
  obtain ⟨h0, hn⟩ := h i hi target htarget
  omega

/-- A jump to an index in range. -/
theorem target_le {target : Int} (hle : k ≤ n) (h : some (k : Int) = some target) :
    0 ≤ target ∧ target ≤ n := by
  obtain rfl := Option.some.inj h
  omega

end

theorem Builtin.jumpsWithin_action (b : Builtin) (n : Nat) : JumpsWithin n b.action := by
  cases b with
  | println => exact .cons_of_none rfl (.cons_of_none rfl (.single rfl))
  | print | readln | size | get | intVal | dblVal | strVal => exact .single rfl

theorem Builtin.jumpsWithin_code (b : Builtin) (n : Nat) : JumpsWithin n b.code := by
  refine (b.jumpsWithin_action n).append ?_
  cases b.hasResult with
  | true => exact jumpsWithin_nil
  | false => exact .single rfl

mutual

/-- The code of an expression has no jumps. -/
theorem Expr.code_jumps {t : SlotTable} (n : Nat) : (e : Expr) → ∀ {c : List Instr},
    e.code p t = .ok c → JumpsWithin n c
  | .lit value pos, c, h => by
    cases h
    exact .single rfl
  | .path path, c, h => by
    rw [Expr.code] at h
    exact path.code_jumps n h
  | .call callee args, c, h => by
    rw [Expr.code] at h
    cases hb : Builtin.ofName? callee.text with
    | some b =>
      simp only [hb, bind_eq_ok, pure_eq_ok] at h
      obtain ⟨-, -, ca, hca, rfl⟩ := h
      exact (argsCode_jumps n args hca).append (b.jumpsWithin_code n)
    | none =>
      simp only [hb, bind_eq_ok, pure_eq_ok] at h
      obtain ⟨ca, hca, rfl⟩ := h
      exact (argsCode_jumps n args hca).append (.single rfl)
  | .newStruct name args, c, h => by
    simp only [Expr.code, bind_eq_ok] at h
    obtain ⟨fields, -, h⟩ := h
    by_cases hlen : fields.length ≠ args.length
    · rw [if_pos hlen] at h
      cases h
    · simp only [if_neg hlen, bind_eq_ok, pure_eq_ok] at h
      obtain ⟨cf, hcf, rfl⟩ := h
      exact (fieldsCode_jumps n fields args hcf).cons_of_none rfl
  | .newArray elem size, c, h => by
    simp only [Expr.code, bind_eq_ok, pure_eq_ok] at h
    obtain ⟨cs, hcs, rfl⟩ := h
    exact (size.code_jumps n hcs).append (.single rfl)
  | .not pos operand, c, h => by
    simp only [Expr.code, bind_eq_ok, pure_eq_ok] at h
    obtain ⟨co, hco, rfl⟩ := h
    exact (operand.code_jumps n hco).append (.single rfl)
  | .binary op pos lhs rhs, c, h => by
    have hop : op.code.target? = none := by cases op <;> rfl
    rw [Expr.code] at h
    cases hsw : op.isSwapped with
    | true =>
      simp only [hsw, if_true, bind_eq_ok, pure_eq_ok] at h
      obtain ⟨cr, hcr, cl, hcl, rfl⟩ := h
      exact ((rhs.code_jumps n hcr).append (lhs.code_jumps n hcl)).append (.single hop)
    | false =>
      simp only [hsw, Bool.false_eq_true, if_false, bind_eq_ok, pure_eq_ok] at h
      obtain ⟨cl, hcl, cr, hcr, rfl⟩ := h
      exact ((lhs.code_jumps n hcl).append (rhs.code_jumps n hcr)).append (.single hop)

theorem Path.code_jumps {t : SlotTable} (n : Nat) : (path : Path) → ∀ {c : List Instr},
    path.code p t = .ok c → JumpsWithin n c
  | .root name index, c, h => by
    simp only [Path.code, bind_eq_ok, pure_eq_ok] at h
    obtain ⟨slot, -, ci, hci, rfl⟩ := h
    exact (indexCode_jumps n index hci).cons_of_none rfl
  | .field base name index, c, h => by
    simp only [Path.code, bind_eq_ok, pure_eq_ok] at h
    obtain ⟨cb, hcb, ci, hci, rfl⟩ := h
    exact (base.code_jumps n hcb).append ((indexCode_jumps n index hci).cons_of_none rfl)

theorem indexCode_jumps {t : SlotTable} (n : Nat) : (index : Option Expr) →
    ∀ {c : List Instr}, indexCode p t index = .ok c → JumpsWithin n c
  | none, c, h => by
    cases h
    exact jumpsWithin_nil
  | some index, c, h => by
    simp only [indexCode, bind_eq_ok, pure_eq_ok] at h
    obtain ⟨ci, hci, rfl⟩ := h
    exact (index.code_jumps n hci).append (.single rfl)

theorem argsCode_jumps {t : SlotTable} (n : Nat) : (args : List Expr) →
    ∀ {c : List Instr}, argsCode p t args = .ok c → JumpsWithin n c
  | [], c, h => by
    cases h
    exact jumpsWithin_nil
  | arg :: args, c, h => by
    simp only [argsCode, bind_eq_ok, pure_eq_ok] at h
    obtain ⟨later, hlater, ca, hca, rfl⟩ := h
    exact (argsCode_jumps n args hlater).append (arg.code_jumps n hca)

theorem fieldsCode_jumps {t : SlotTable} (n : Nat) : (fields : List String) →
    (args : List Expr) → ∀ {c : List Instr}, fieldsCode p t fields args = .ok c →
    JumpsWithin n c
  | field :: fields, arg :: args, c, h => by
    simp only [fieldsCode, bind_eq_ok, pure_eq_ok] at h
    obtain ⟨ca, hca, rest, hrest, rfl⟩ := h
    exact (((arg.code_jumps n hca).cons_of_none rfl).append (.single rfl)).append
      (fieldsCode_jumps n fields args hrest)
  | [], [], c, h | [], _ :: _, c, h | _ :: _, [], c, h => by
    cases h
    exact jumpsWithin_nil

end

theorem assignCode_jumps {t : SlotTable} (n : Nat) {value : Expr} {target : Path}
    {c : List Instr} (h : assignCode p t value target = .ok c) : JumpsWithin n c := by
  match target with
  | .root name none =>
    simp only [assignCode, bind_eq_ok, pure_eq_ok] at h
    obtain ⟨slot, -, cv, hcv, rfl⟩ := h
    exact (value.code_jumps n hcv).append (.single rfl)
  | .root name (some index) =>
    simp only [assignCode, bind_eq_ok, pure_eq_ok] at h
    obtain ⟨slot, -, ci, hci, cv, hcv, rfl⟩ := h
    exact (((index.code_jumps n hci).cons_of_none rfl).append (value.code_jumps n hcv)).append
      (.single rfl)
  | .field base name none =>
    simp only [assignCode, bind_eq_ok, pure_eq_ok] at h
    obtain ⟨cb, hcb, cv, hcv, rfl⟩ := h
    exact ((base.code_jumps n hcb).append (value.code_jumps n hcv)).append (.single rfl)
  | .field base name (some index) =>
    simp only [assignCode, bind_eq_ok, pure_eq_ok] at h
    obtain ⟨cb, hcb, ci, hci, cv, hcv, rfl⟩ := h
    exact (((base.code_jumps n hcb).append
      ((index.code_jumps n hci).cons_of_none rfl)).append (value.code_jumps n hcv)).append
      (.single rfl)

theorem callCode_jumps {t : SlotTable} (n : Nat) {callee : Name} {args : List Expr}
    {c : List Instr} (h : callCode p t callee args = .ok c) : JumpsWithin n c := by
  rw [callCode] at h
  split at h
  · simp only [bind_eq_ok, pure_eq_ok] at h
    obtain ⟨-, -, ca, hca, rfl⟩ := h
    exact (argsCode_jumps n args hca).append (Builtin.jumpsWithin_action .print n)
  · simp only [bind_eq_ok, pure_eq_ok] at h
    obtain ⟨ce, hce, rfl⟩ := h
    exact (Expr.code_jumps n _ hce).append (.single rfl)

theorem jumpsWithin_branchCode {n : Nat} {note : String} {cond body rest : List Instr}
    (hcond : ∀ k, JumpsWithin k cond) (hbody : JumpsWithin (bodyAt n cond + body.length) body)
    (hrest : JumpsWithin (bodyAt n cond + body.length + 1 + rest.length) rest) :
    JumpsWithin (n + (branchCode n note cond body rest).length)
      (branchCode n note cond body rest) := by
  have hlen : n + (branchCode n note cond body rest).length =
      bodyAt n cond + body.length + 1 + rest.length := by
    simp [branchCode, bodyAt]
    omega
  rw [hlen]
  refine .append (.append (hcond _) (jumpsWithin_cons.mpr ⟨fun target ↦ ?_, ?_⟩))
    (jumpsWithin_cons.mpr ⟨fun target ↦ ?_, hrest⟩)
  · exact target_le (by simp only [bodyAt]; omega)
  · exact hbody.mono (by omega)
  · exact target_le (by simp only [bodyAt]; omega)

mutual

/-- The jumps of a statement stay inside its code or go to its end. -/
theorem Stmt.code_jumps {t t' : SlotTable} {n : Nat} {c : List Instr} :
    (stmt : Stmt) → stmt.code p t n = .ok (c, t') → JumpsWithin (n + c.length) c
  | .var name type none, h => by
    cases h
    exact .cons_of_none rfl (.single rfl)
  | .var name type (some init), h => by
    simp only [Stmt.code, bind_eq_ok, pure_eq_ok, Prod.mk.injEq] at h
    obtain ⟨cv, hcv, rfl, -⟩ := h
    exact (init.code_jumps _ hcv).append (.single rfl)
  | .assign target value, h => by
    simp only [Stmt.code, bind_eq_ok, pure_eq_ok, Prod.mk.injEq] at h
    obtain ⟨ca, hca, rfl, -⟩ := h
    exact assignCode_jumps _ hca
  | .ret pos value, h => by
    simp only [Stmt.code, bind_eq_ok, pure_eq_ok, Prod.mk.injEq] at h
    obtain ⟨cv, hcv, rfl, -⟩ := h
    exact (value.code_jumps _ hcv).append (.single rfl)
  | .call callee args, h => by
    simp only [Stmt.code, bind_eq_ok, pure_eq_ok, Prod.mk.injEq] at h
    obtain ⟨ca, hca, rfl, -⟩ := h
    exact callCode_jumps _ hca
  | .whileLoop cond body, h => by
    simp only [Stmt.code, bind_eq_ok, pure_eq_ok, Prod.mk.injEq] at h
    obtain ⟨cc, hcc, ⟨cb, t''⟩, hcb, rfl, -⟩ := h
    have hbody := blockCode_jumps body hcb
    -- The exit is the end of the code, and the way back is its beginning.
    simp only [bodyAt] at hbody ⊢
    refine .append (.append (cond.code_jumps _ hcc) (jumpsWithin_cons.mpr ⟨fun target ↦ ?_, ?_⟩))
      (jumpsWithin_cons.mpr ⟨fun target ↦ ?_, jumpsWithin_nil⟩)
    · exact target_le (by simp; omega)
    · exact hbody.mono (by simp; omega)
    · exact target_le (by simp)
  | .forLoop var first last body, h => by
    simp only [Stmt.code, bind_eq_ok, pure_eq_ok, Prod.mk.injEq] at h
    obtain ⟨ca, hca, cl, hcl, ⟨cb, t''⟩, hcb, rfl, -⟩ := h
    have hbody := blockCode_jumps body hcb
    simp only [bodyAt, List.cons_append, List.length_cons, List.length_append] at hbody ⊢
    refine .append (.append (.append (first.code_jumps _ hca) (.cons_of_none rfl ?_)) ?_) ?_
    · exact .cons_of_none rfl ((last.code_jumps _ hcl).append (.single rfl))
    · refine jumpsWithin_cons.mpr ⟨fun target ↦ ?_, ?_⟩
      · exact target_le (by simp; omega)
      · exact hbody.mono (by simp; omega)
    · refine .cons_of_none rfl (.cons_of_none rfl (.cons_of_none rfl (.cons_of_none rfl ?_)))
      exact jumpsWithin_cons.mpr ⟨fun target ↦ target_le (by simp; omega), jumpsWithin_nil⟩
  | .ifElse cond body other, h => by
    simp only [Stmt.code, bind_eq_ok, pure_eq_ok, Prod.mk.injEq] at h
    obtain ⟨cc, hcc, ⟨cb, t''⟩, hcb, ⟨rest, t₃⟩, hrest, rfl, -⟩ := h
    exact jumpsWithin_branchCode (fun k ↦ cond.code_jumps k hcc) (blockCode_jumps body hcb)
      (other.code_jumps hrest)

theorem Else.code_jumps {t t' : SlotTable} {n : Nat} {c : List Instr} :
    (other : Else) → other.code p t n = .ok (c, t') → JumpsWithin (n + c.length) c
  | .none, h => by
    cases h
    exact jumpsWithin_nil
  | .block body, h => by
    simp only [Else.code, bind_eq_ok, pure_eq_ok, Prod.mk.injEq] at h
    obtain ⟨⟨cb, t''⟩, hcb, rfl, -⟩ := h
    exact blockCode_jumps body hcb
  | .elseIf cond body other, h => by
    simp only [Else.code, bind_eq_ok, pure_eq_ok, Prod.mk.injEq] at h
    obtain ⟨cc, hcc, ⟨cb, t''⟩, hcb, ⟨rest, t₃⟩, hrest, rfl, -⟩ := h
    exact jumpsWithin_branchCode (fun k ↦ cond.code_jumps k hcc) (blockCode_jumps body hcb)
      (other.code_jumps hrest)

theorem blockCode_jumps {t t' : SlotTable} {n : Nat} {c : List Instr} :
    (stmts : List Stmt) → blockCode p t n stmts = .ok (c, t') → JumpsWithin (n + c.length) c
  | [], h => by
    cases h
    exact jumpsWithin_nil
  | stmt :: stmts, h => by
    simp only [blockCode, bind_eq_ok, pure_eq_ok, Prod.mk.injEq] at h
    obtain ⟨⟨cb, t₁⟩, hcb, ⟨rest, t₂⟩, hrest, rfl, -⟩ := h
    rw [List.length_append]
    refine .append ((stmt.code_jumps hcb).mono (by simp only; omega)) ?_
    exact (blockCode_jumps stmts hrest).mono (by simp only; omega)

end

/-! ## Functions -/

/-- The parts of the code of a function. -/
theorem FunDef.code_eq_ok {f : FunDef} {template : Template} (h : f.code p = .ok template) :
    ∃ body t, blockCode p (paramsCode SlotTable.empty.push f.params).2
        (paramsCode SlotTable.empty.push f.params).1.length f.body = .ok (body, t) ∧
      template = ⟨f.name.text,
        (withReturn ((paramsCode SlotTable.empty.push f.params).1 ++ body)).toArray⟩ := by
  simp only [FunDef.code, bind_eq_ok] at h
  obtain ⟨⟨body, t⟩, hbody, h⟩ := h
  refine ⟨body, t, hbody, ?_⟩
  split at h
  · cases h
  · cases h
    rfl

theorem paramsCode_stores (t : SlotTable) (params : List VarDef) :
    ∀ i ∈ (paramsCode t params).1, ∃ k, i.op = .store k := by
  induction params generalizing t with
  | nil => exact List.forall_mem_nil _
  | cons param params ih =>
    rw [paramsCode]
    exact List.forall_mem_cons.mpr ⟨⟨t.next, rfl⟩, ih _⟩

theorem paramsCode_jumps (n : Nat) (t : SlotTable) (params : List VarDef) :
    JumpsWithin n (paramsCode t params).1 := by
  intro i hi target htarget
  obtain ⟨k, hk⟩ := paramsCode_stores t params i hi
  rw [hk] at htarget
  cases htarget

/-- The generator's test for a jump that goes too far. -/
theorem any_target_gt_iff {c : List Instr} {k n : Nat} (h : JumpsWithin k c) :
    c.any (fun i ↦ i.op.target?.getD 0 > n) = true ↔ ¬ JumpsWithin n c := by
  rw [List.any_eq_true]
  constructor
  · rintro ⟨i, hi, hgt⟩ hwithin
    cases htarget : i.op.target? with
    | none =>
      simp [htarget] at hgt
      omega
    | some target =>
      have hle := (hwithin i hi target htarget).2
      simp [htarget] at hgt
      omega
  · intro hfar
    by_contra hnone
    refine hfar fun i hi target htarget ↦ ⟨(h i hi target htarget).1, ?_⟩
    by_contra hgt
    exact hnone ⟨i, hi, by simpa [htarget] using hgt⟩

/-- The code of a function is that of its parameters and its body, if all jumps can be made. -/
theorem FunDef.code_of_body {f : FunDef} {params c : List Instr} {t t' : SlotTable}
    (hparams : paramsCode SlotTable.empty.push f.params = (params, t))
    (hbody : blockCode p t params.length f.body = .ok (c, t')) :
    (JumpsWithin Template.maxTarget c →
        f.code p = .ok ⟨f.name.text, (withReturn (params ++ c)).toArray⟩) ∧
      (¬ JumpsWithin Template.maxTarget c → f.code p = .error .jumpTooFar) := by
  have hstores : ∀ n, JumpsWithin n params := by
    intro n
    have hjumps := paramsCode_jumps n SlotTable.empty.push f.params
    rwa [hparams] at hjumps
  have hiff := any_target_gt_iff (n := Template.maxTarget)
    ((hstores _).append (blockCode_jumps f.body hbody))
  rw [jumpsWithin_append, and_iff_right (hstores _)] at hiff
  have hcode : f.code p =
      if (params ++ c).any (fun i ↦ i.op.target?.getD 0 > Template.maxTarget) then
        .error .jumpTooFar
      else .ok ⟨f.name.text, (withReturn (params ++ c)).toArray⟩ := by
    rw [FunDef.code, hparams]
    simp only [hbody]
    rfl
  rw [hcode]
  exact ⟨fun hnear ↦ if_neg fun hany ↦ hiff.mp hany hnear, fun hfar ↦ if_pos (hiff.mpr hfar)⟩

theorem JumpsWithin.withReturn {c : List Instr} (h : JumpsWithin c.length c) :
    JumpsWithin (withReturn c).length (withReturn c) := by
  rw [Pebble.withReturn]
  split
  · exact (h.mono (by simp)).append (.cons_of_none rfl (.single rfl))
  · exact h

/-- Code whose last instruction is a return and that has no jump to `n`. -/
structure EndsInReturn (code : List Instr) (n : Nat) : Prop where
  last : code.getLast?.map (·.op) = some .ret
  jumps : ∀ i ∈ code, i.op.target? ≠ some (n : Int)

theorem not_reachesEnd {code : List Instr} (h : reachesEnd code = false) :
    EndsInReturn code code.length := by
  rw [reachesEnd, Bool.or_eq_false_iff] at h
  obtain ⟨hlast, hjumps⟩ := h
  refine ⟨by simpa using hlast, fun i hi ↦ ?_⟩
  simpa using List.any_eq_false.mp hjumps i hi

/-- The code of a function ends in a return, and no jump goes behind it. -/
theorem endsInReturn_withReturn {c : List Instr} (h : JumpsWithin c.length c) :
    EndsInReturn (withReturn c) (withReturn c).length := by
  rw [withReturn]
  split
  · refine ⟨by simp [Instr.plain], fun i hi htarget ↦ ?_⟩
    rcases List.mem_append.mp hi with hi | hi
    · obtain ⟨-, hle⟩ := h i hi _ htarget
      rw [List.length_append] at hle
      simp only [List.length_cons, List.length_nil] at hle
      omega
    · rcases List.mem_pair.mp hi with rfl | rfl
      · cases htarget
      · cases htarget
  · next hend => exact not_reachesEnd (by simpa using hend)

theorem Template.verify_eq_ok {t : Template} (h : JumpsWithin t.instrs.size t.instrs.toList) :
    t.verify = .ok () := by
  have hnone : ∀ x ∈ t.instrs.toList.zipIdx, t.defect? x.2 x.1 = none := by
    rintro ⟨i, index⟩ hi
    simp only [defect?]
    cases htarget : i.op.target? with
    | none => rfl
    | some target =>
      obtain ⟨h0, hle⟩ := h i (List.fst_mem_of_mem_zipIdx hi) target htarget
      simp only
      rw [if_neg (by omega), if_neg (by omega)]
  rw [verify, List.findSome?_eq_none_iff.2 hnone]

/-- The jumps of a generated template stay within it. -/
theorem FunDef.code_jumps {f : FunDef} {template : Template} (h : f.code p = .ok template) :
    JumpsWithin template.instrs.toList.length template.instrs.toList ∧
      EndsInReturn template.instrs.toList template.instrs.toList.length := by
  obtain ⟨body, t, hbody, rfl⟩ := FunDef.code_eq_ok h
  have hjumps := (paramsCode_jumps _ SlotTable.empty.push f.params).append
    (blockCode_jumps f.body hbody)
  rw [← List.length_append] at hjumps
  exact ⟨hjumps.withReturn, endsInReturn_withReturn hjumps⟩

/-- Generated templates pass verification. -/
theorem FunDef.verify_code {f : FunDef} {template : Template} (h : f.code p = .ok template) :
    template.verify = .ok () :=
  Template.verify_eq_ok (FunDef.code_jumps h).1

end

end Pebble
