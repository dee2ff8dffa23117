import Pebble.Proofs.FoldedCode
import Pebble.Proofs.Starting
import Pebble.Proofs.StmtTypes

/-!
# Checked programs have code

The checker and the code generator each keep track of the names in scope, the one in a stack of
scopes and the other in one list of slots. Since the list is the stack laid flat, a name that the
checker finds has a slot. The other things that can go wrong when code is generated are ruled out by
one rule of the checker each: the number of arguments of a built-in function, and the struct of a
constructor and the number of its fields.

What the checker does not bound is the length of code, and a jump cannot name every index. So code
is generated unless that of a function has become too long, and folding only makes it shorter.
-/

namespace Pebble

section
variable {p : Program}

/-! ## Expressions -/

/-- A name in scope has a slot. -/
theorem slotOf_isOk {s : Scopes} {x : Name} {t : Ty} (h : s.lookup x.text = some t) :
    ∃ k, (SlotTable.ofStack s.stack).slotOf x = .ok k := by
  rw [Scopes.lookup_eq] at h
  obtain ⟨k, hk⟩ := SlotTable.slotIn?_isSome h
  have hslot : (SlotTable.ofStack s.stack).slot? x.text = some k := hk
  exact ⟨k, by rw [SlotTable.slotOf, hslot]⟩

theorem Path.lookup_of_typeIn {s : Scopes} {name : Name} {index : Option Expr} {t : Ty}
    (h : (Path.root name index).typeIn p s = .ok t) :
    ∃ t₀, s.lookup name.text = some t₀ ∧ indexedType p s name t₀ index = .ok t := by
  rw [Path.typeIn] at h
  cases hlook : s.lookup name.text with
  | none =>
    rw [hlook] at h
    cases h
  | some t₀ =>
    rw [hlook] at h
    exact ⟨t₀, rfl, h⟩

mutual

/-- The code of an expression that has a type. -/
theorem Expr.code_isOk (hp : p.Checked) (s : Scopes) : (e : Expr) → ∀ {t : Ty},
    e.typeIn p s = .ok t → ∃ c, e.code p (.ofStack s.stack) = .ok c
  | .lit value pos, t, _ => ⟨_, rfl⟩
  | .path path, t, ht => by
    rw [Expr.typeIn] at ht
    rw [Expr.code]
    exact path.code_isOk hp s ht
  | .call callee args, t, ht => by
    rw [Expr.typeIn] at ht
    rw [Expr.code]
    cases hb : Builtin.ofName? callee.text with
    | some b =>
      simp only [hb, bind_eq_ok, pure_eq_ok, require_eq_ok] at ht ⊢
      obtain ⟨u, hlen, ts, hts, -⟩ := ht
      -- The generator counts the arguments of a built-in function once more.
      have harity : b.requireArity callee args.length = .ok u :=
        if_pos (of_decide_eq_true hlen)
      obtain ⟨c, hc⟩ := argsCode_isOk hp s args hts
      exact ⟨_, u, harity, c, hc, rfl⟩
    | none =>
      cases hf : p.function? callee.text with
      | none =>
        simp only [hb, hf] at ht
        cases ht
      | some f =>
        simp only [hb, hf, bind_eq_ok, pure_eq_ok] at ht ⊢
        obtain ⟨_, -, ts, hts, -⟩ := ht
        obtain ⟨c, hc⟩ := argsCode_isOk hp s args hts
        exact ⟨_, c, hc, rfl⟩
  | .newStruct name args, t, ht => by
    rw [Expr.typeIn] at ht
    cases hd : p.struct? name.text with
    | none =>
      rw [hd] at ht
      cases ht
    | some d =>
      simp only [hd, bind_eq_ok, require_eq_ok] at ht
      obtain ⟨_, hlen, ts, hts, -⟩ := ht
      have hcount : ¬ (d.fields.map (·.name.text)).length ≠ args.length := by
        rw [List.length_map, of_decide_eq_true hlen]
        exact fun h ↦ h rfl
      obtain ⟨c, hc⟩ := fieldsCode_isOk hp s (d.fields.map (·.name.text)) args hts
      simp only [Expr.code, bind_eq_ok]
      refine ⟨.noted .newRecord ("new " ++ name.text) :: c, _, hp.fieldsOf_eq hd, ?_⟩
      simp only [if_neg hcount, bind_eq_ok, pure_eq_ok]
      exact ⟨c, hc, rfl⟩
  | .newArray elem size, t, ht => by
    simp only [Expr.typeIn, bind_eq_ok] at ht
    obtain ⟨_, -, ts, hts, -⟩ := ht
    obtain ⟨c, hc⟩ := size.code_isOk hp s hts
    simp only [Expr.code, bind_eq_ok, pure_eq_ok]
    exact ⟨_, c, hc, rfl⟩
  | .not pos operand, t, ht => by
    simp only [Expr.typeIn, bind_eq_ok] at ht
    obtain ⟨u, hu, -⟩ := ht
    obtain ⟨c, hc⟩ := operand.code_isOk hp s hu
    simp only [Expr.code, bind_eq_ok, pure_eq_ok]
    exact ⟨_, c, hc, rfl⟩
  | .binary op pos lhs rhs, t, ht => by
    simp only [Expr.typeIn, bind_eq_ok] at ht
    obtain ⟨tl, htl, tr, htr, -⟩ := ht
    obtain ⟨l, hl⟩ := lhs.code_isOk hp s htl
    obtain ⟨r, hr⟩ := rhs.code_isOk hp s htr
    exact ⟨_, Expr.code_binary.mpr ⟨l, r, hl, hr, rfl⟩⟩

theorem Path.code_isOk (hp : p.Checked) (s : Scopes) : (path : Path) → ∀ {t : Ty},
    path.typeIn p s = .ok t → ∃ c, path.code p (.ofStack s.stack) = .ok c
  | .root name index, t, ht => by
    obtain ⟨t₀, hlook, hindex⟩ := Path.lookup_of_typeIn ht
    obtain ⟨k, hk⟩ := slotOf_isOk hlook
    obtain ⟨c, hc⟩ := indexCode_isOk hp s index hindex
    simp only [Path.code, bind_eq_ok, pure_eq_ok]
    exact ⟨_, k, hk, c, hc, rfl⟩
  | .field base name index, t, ht => by
    simp only [Path.typeIn, bind_eq_ok] at ht
    obtain ⟨tb, htb, tf, -, hindex⟩ := ht
    obtain ⟨b, hb⟩ := base.code_isOk hp s htb
    obtain ⟨c, hc⟩ := indexCode_isOk hp s index hindex
    simp only [Path.code, bind_eq_ok, pure_eq_ok]
    exact ⟨_, b, hb, c, hc, rfl⟩

theorem indexCode_isOk (hp : p.Checked) (s : Scopes) : (index : Option Expr) →
    ∀ {name : Name} {t₀ t : Ty}, indexedType p s name t₀ index = .ok t →
    ∃ c, indexCode p (.ofStack s.stack) index = .ok c
  | none, _, _, _, _ => ⟨[], rfl⟩
  | some index, _, _, _, ht => by
    obtain ⟨elem, -, hti, -⟩ := indexedType_some ht
    obtain ⟨c, hc⟩ := index.code_isOk hp s hti
    simp only [indexCode, bind_eq_ok, pure_eq_ok]
    exact ⟨_, c, hc, rfl⟩

theorem argsCode_isOk (hp : p.Checked) (s : Scopes) : (args : List Expr) →
    ∀ {judge : Judge} {i : Nat} {ts : List Ty}, argTypes p s judge i args = .ok ts →
    ∃ c, argsCode p (.ofStack s.stack) args = .ok c
  | [], _, _, _, _ => ⟨[], rfl⟩
  | arg :: args, _, _, _, hts => by
    simp only [argTypes, bind_eq_ok] at hts
    obtain ⟨t, ht, _, -, ts, hts, -⟩ := hts
    obtain ⟨later, hlater⟩ := argsCode_isOk hp s args hts
    obtain ⟨c, hc⟩ := arg.code_isOk hp s ht
    simp only [argsCode, bind_eq_ok, pure_eq_ok]
    exact ⟨_, later, hlater, c, hc, rfl⟩

theorem fieldsCode_isOk (hp : p.Checked) (s : Scopes) : (fields : List String) →
    (args : List Expr) → ∀ {judge : Judge} {i : Nat} {ts : List Ty},
    argTypes p s judge i args = .ok ts → ∃ c, fieldsCode p (.ofStack s.stack) fields args = .ok c
  | [], [], _, _, _, _ | [], _ :: _, _, _, _, _ | _ :: _, [], _, _, _, _ => ⟨[], rfl⟩
  | field :: fields, arg :: args, _, _, _, hts => by
    simp only [argTypes, bind_eq_ok] at hts
    obtain ⟨t, ht, _, -, ts, hts, -⟩ := hts
    obtain ⟨c, hc⟩ := arg.code_isOk hp s ht
    obtain ⟨rest, hrest⟩ := fieldsCode_isOk hp s fields args hts
    simp only [fieldsCode, bind_eq_ok, pure_eq_ok]
    exact ⟨_, c, hc, rest, hrest, rfl⟩

end

/-! ## Statements -/

section
variable {s : Scopes}

theorem assignCode_isOk (hp : p.Checked) {target : Path} {value : Expr} {wanted t : Ty}
    (hw : target.typeIn p s = .ok wanted) (ht : value.typeIn p s = .ok t) :
    ∃ c, assignCode p (.ofStack s.stack) value target = .ok c := by
  obtain ⟨v, hv⟩ := value.code_isOk hp s ht
  match target with
  | .root name none =>
    obtain ⟨t₀, hlook, -⟩ := Path.lookup_of_typeIn hw
    obtain ⟨k, hk⟩ := slotOf_isOk hlook
    simp only [assignCode, bind_eq_ok, pure_eq_ok]
    exact ⟨_, k, hk, v, hv, rfl⟩
  | .root name (some index) =>
    obtain ⟨t₀, hlook, hindex⟩ := Path.lookup_of_typeIn hw
    obtain ⟨elem, -, hti, -⟩ := indexedType_some hindex
    obtain ⟨k, hk⟩ := slotOf_isOk hlook
    obtain ⟨i, hi⟩ := index.code_isOk hp s hti
    simp only [assignCode, bind_eq_ok, pure_eq_ok]
    exact ⟨_, k, hk, i, hi, v, hv, rfl⟩
  | .field base name none =>
    simp only [Path.typeIn, bind_eq_ok] at hw
    obtain ⟨tb, htb, tf, -, -⟩ := hw
    obtain ⟨b, hb⟩ := base.code_isOk hp s htb
    simp only [assignCode, bind_eq_ok, pure_eq_ok]
    exact ⟨_, b, hb, v, hv, rfl⟩
  | .field base name (some index) =>
    simp only [Path.typeIn, bind_eq_ok] at hw
    obtain ⟨tb, htb, tf, -, hindex⟩ := hw
    obtain ⟨elem, -, hti, -⟩ := indexedType_some hindex
    obtain ⟨b, hb⟩ := base.code_isOk hp s htb
    obtain ⟨i, hi⟩ := index.code_isOk hp s hti
    simp only [assignCode, bind_eq_ok, pure_eq_ok]
    exact ⟨_, b, hb, i, hi, v, hv, rfl⟩

theorem callCode_isOk (hp : p.Checked) {callee : Name} {args : List Expr} {t : Ty}
    (ht : (Expr.call callee args).typeIn p s = .ok t) :
    ∃ c, callCode p (.ofStack s.stack) callee args = .ok c := by
  rw [callCode]
  by_cases hprint : Builtin.ofName? callee.text = some .print
  · simp only [Expr.typeIn, hprint, bind_eq_ok, pure_eq_ok, require_eq_ok] at ht
    obtain ⟨u, hlen, ts, hts, -⟩ := ht
    have harity : Builtin.print.requireArity callee args.length = .ok u :=
      if_pos (of_decide_eq_true hlen)
    obtain ⟨c, hc⟩ := argsCode_isOk hp s args hts
    simp only [if_pos hprint, bind_eq_ok, pure_eq_ok]
    exact ⟨_, u, harity, c, hc, rfl⟩
  · obtain ⟨c, hc⟩ := Expr.code_isOk hp s _ ht
    simp only [if_neg hprint, bind_eq_ok, pure_eq_ok]
    exact ⟨_, c, hc, rfl⟩

theorem condition_isOk (hp : p.Checked) {cond : Expr} {u : Unit}
    (h : checkCondition p s cond = .ok u) : ∃ c, cond.code p (.ofStack s.stack) = .ok c := by
  simp only [checkCondition, bind_eq_ok] at h
  obtain ⟨t, ht, -⟩ := h
  exact cond.code_isOk hp s ht

theorem bound_isOk (hp : p.Checked) {bound : LoopBound} {e : Expr} {u : Unit}
    (h : checkBound p s bound e = .ok u) : ∃ c, e.code p (.ofStack s.stack) = .ok c := by
  simp only [checkBound, bind_eq_ok] at h
  obtain ⟨t, ht, -⟩ := h
  exact e.code_isOk hp s ht

end

mutual

/-- The code of a checked statement, wherever it stands. -/
theorem Stmt.code_isOk (hp : p.Checked) {result : TypeRef} {s s' : Scopes} :
    (stmt : Stmt) → (n : Nat) → stmt.check p result s = .ok s' →
    ∃ r, stmt.code p (.ofStack s.stack) n = .ok r
  | .var name type none, n, _ => ⟨_, rfl⟩
  | .var name type (some init), n, hk => by
    simp only [Stmt.check, bind_eq_ok, pure_eq_ok] at hk
    obtain ⟨_, -, wanted, hw, -⟩ := hk
    obtain ⟨t, ht, -⟩ := fits_of_varType hw
    obtain ⟨c, hc⟩ := init.code_isOk hp s ht
    simp only [Stmt.code, bind_eq_ok, pure_eq_ok]
    exact ⟨_, c, hc, rfl⟩
  | .assign target value, n, hk => by
    simp only [Stmt.check, bind_eq_ok] at hk
    obtain ⟨wanted, hw, t, ht, -⟩ := hk
    obtain ⟨c, hc⟩ := assignCode_isOk hp hw ht
    simp only [Stmt.code, bind_eq_ok, pure_eq_ok]
    exact ⟨_, c, hc, rfl⟩
  | .ret pos value, n, hk => by
    simp only [Stmt.check, bind_eq_ok] at hk
    obtain ⟨t, ht, -⟩ := hk
    obtain ⟨c, hc⟩ := value.code_isOk hp s ht
    simp only [Stmt.code, bind_eq_ok, pure_eq_ok]
    exact ⟨_, c, hc, rfl⟩
  | .whileLoop cond body, n, hk => by
    simp only [Stmt.check, bind_eq_ok] at hk
    obtain ⟨_, hcond, s₁, hbody, -⟩ := hk
    obtain ⟨c, hc⟩ := condition_isOk hp hcond
    obtain ⟨b, hb⟩ := blockCode_isOk hp s.push_ne_nil body (bodyAt n c) hbody
    rw [← s.ofStack_push] at hb
    simp only [Stmt.code, bind_eq_ok, pure_eq_ok]
    exact ⟨_, c, hc, b, hb, rfl⟩
  | .forLoop var first last body, n, hk => by
    simp only [Stmt.check, bind_eq_ok] at hk
    obtain ⟨_, hfirst, _, hlast, s₁, hbody, -⟩ := hk
    have hpush := s.push_ne_nil
    obtain ⟨a, ha⟩ := bound_isOk hp hfirst
    obtain ⟨l, hl⟩ := bound_isOk hp hlast
    have hblock := fun k ↦ blockCode_isOk hp (Scopes.declare_ne_nil hpush) body k hbody
    rw [← Scopes.ofStack_declare (t := .int) hpush] at hl hblock
    rw [← s.ofStack_push] at ha hl hblock
    obtain ⟨b, hb⟩ := hblock (bodyAt (n + a.length + 1)
      (.plain (.load (SlotTable.ofStack s.stack).push.next) :: l ++ [.plain (.order .le)]))
    simp only [Stmt.code, bind_eq_ok, pure_eq_ok]
    exact ⟨_, a, ha, l, hl, b, hb, rfl⟩
  | .ifElse cond body other, n, hk => by
    simp only [Stmt.check, bind_eq_ok] at hk
    obtain ⟨_, hcond, s₁, hbody, hother⟩ := hk
    -- The other branch begins with the variables there were before the first one.
    rw [checkBlock_pop hbody] at hother
    obtain ⟨c, hc⟩ := condition_isOk hp hcond
    obtain ⟨⟨b, t⟩, hb⟩ := blockCode_isOk hp s.push_ne_nil body (bodyAt n c) hbody
    rw [← s.ofStack_push] at hb
    obtain ⟨r, hr⟩ := other.code_isOk hp (bodyAt n c + b.length + 1) hother
    rw [← blockCode_pop hb] at hr
    simp only [Stmt.code, bind_eq_ok, pure_eq_ok]
    exact ⟨_, c, hc, ⟨b, t⟩, hb, r, hr, rfl⟩
  | .call callee args, n, hk => by
    simp only [Stmt.check, bind_eq_ok] at hk
    obtain ⟨t, ht, -⟩ := hk
    obtain ⟨c, hc⟩ := callCode_isOk hp ht
    simp only [Stmt.code, bind_eq_ok, pure_eq_ok]
    exact ⟨_, c, hc, rfl⟩

theorem Else.code_isOk (hp : p.Checked) {result : TypeRef} {s s' : Scopes} :
    (other : Else) → (n : Nat) → other.check p result s = .ok s' →
    ∃ r, other.code p (.ofStack s.stack) n = .ok r
  | .none, n, _ => ⟨_, rfl⟩
  | .block body, n, hk => by
    simp only [Else.check, bind_eq_ok] at hk
    obtain ⟨s₁, hbody, -⟩ := hk
    obtain ⟨b, hb⟩ := blockCode_isOk hp s.push_ne_nil body n hbody
    rw [← s.ofStack_push] at hb
    simp only [Else.code, bind_eq_ok, pure_eq_ok]
    exact ⟨_, b, hb, rfl⟩
  | .elseIf cond body other, n, hk => by
    simp only [Else.check, bind_eq_ok] at hk
    obtain ⟨_, hcond, s₁, hbody, hother⟩ := hk
    rw [checkBlock_pop hbody] at hother
    obtain ⟨c, hc⟩ := condition_isOk hp hcond
    obtain ⟨⟨b, t⟩, hb⟩ := blockCode_isOk hp s.push_ne_nil body (bodyAt n c) hbody
    rw [← s.ofStack_push] at hb
    obtain ⟨r, hr⟩ := other.code_isOk hp (bodyAt n c + b.length + 1) hother
    rw [← blockCode_pop hb] at hr
    simp only [Else.code, bind_eq_ok, pure_eq_ok]
    exact ⟨_, c, hc, ⟨b, t⟩, hb, r, hr, rfl⟩

theorem blockCode_isOk (hp : p.Checked) {result : TypeRef} {s s' : Scopes} (hs : s.stack ≠ []) :
    (stmts : List Stmt) → (n : Nat) → checkBlock p result s stmts = .ok s' →
    ∃ r, blockCode p (.ofStack s.stack) n stmts = .ok r
  | [], n, _ => ⟨_, rfl⟩
  | stmt :: stmts, n, hk => by
    simp only [checkBlock, bind_eq_ok] at hk
    obtain ⟨s₁, hs₁, hrest⟩ := hk
    obtain ⟨⟨c, t⟩, hc⟩ := stmt.code_isOk hp n hs₁
    -- Both sides go on with the variables that the statement leaves in scope.
    obtain rfl := stmt.check_scopes hs₁
    obtain ⟨r, hr⟩ := blockCode_isOk hp (stmt.scopesAfter_ne_nil hs) stmts (n + c.length) hrest
    rw [← stmt.ofStack_scopesAfter hs, ← stmt.code_slots hc] at hr
    simp only [blockCode, bind_eq_ok, pure_eq_ok]
    exact ⟨_, ⟨c, t⟩, hc, r, hr, rfl⟩

end

/-! ## Functions -/

/-- The instructions generated for a function, before a return is added to them. -/
def FunDef.bodyCode (p : Program) (f : FunDef) : Generated (List Instr) := do
  let (params, t) := paramsCode SlotTable.empty.push f.params
  let (body, _) ← blockCode p t params.length f.body
  return params ++ body

/-- Whether a jump can name every index of the generated instructions, and the one behind them. -/
def FunDef.isShort (p : Program) (f : FunDef) : Bool :=
  (f.bodyCode p).toOption.all fun code ↦ code.length < 2 ^ 31

theorem FunDef.bodyCode_isOk (hp : p.Checked) {f : FunDef} (hf : f ∈ p.functions) :
    ∃ body t, blockCode p (paramsCode SlotTable.empty.push f.params).2
        (paramsCode SlotTable.empty.push f.params).1.length f.body = .ok (body, t) ∧
      f.bodyCode p = .ok ((paramsCode SlotTable.empty.push f.params).1 ++ body) := by
  obtain ⟨-, s', hcheck⟩ := FunDef.check_eq_ok (hp.functions f hf)
  have hstart : Scopes.empty.push.stack ≠ [] := Scopes.empty.push_ne_nil
  have hslots : (paramsCode SlotTable.empty.push f.params).2 =
      .ofStack (paramScopes Scopes.empty.push f.params).stack :=
    (paramsStraight (p := p) hstart f.params).2
  obtain ⟨⟨body, t⟩, hbody⟩ := blockCode_isOk hp (paramScopes_ne_nil hstart f.params) f.body
    (paramsCode SlotTable.empty.push f.params).1.length hcheck
  rw [← hslots] at hbody
  refine ⟨body, t, hbody, ?_⟩
  simp only [FunDef.bodyCode, bind_eq_ok, pure_eq_ok]
  exact ⟨(body, t), hbody, rfl⟩

theorem FunDef.code_isOk (hp : p.Checked) {f : FunDef} (hf : f ∈ p.functions)
    (hshort : f.isShort p = true) : ∃ t, f.code p = .ok t := by
  obtain ⟨body, t, hbody, hcode⟩ := FunDef.bodyCode_isOk hp hf
  have hlen : (paramsCode SlotTable.empty.push f.params).1.length + body.length < 2 ^ 31 := by
    rw [← List.length_append]
    rw [FunDef.isShort, hcode] at hshort
    exact of_decide_eq_true hshort
  -- Jumps go to the end of the code at most, and the end can still be named.
  have hbound : Template.maxTarget = 2 ^ 31 - 1 := rfl
  have hjumps := (blockCode_jumps f.body hbody).mono (k := Template.maxTarget) (by omega)
  exact ⟨_, (FunDef.code_of_body rfl hbody).1 hjumps⟩

/-- The generator has one reason left to reject a function that has been checked. -/
theorem FunDef.code_eq_error (hp : p.Checked) {f : FunDef} (hf : f ∈ p.functions) {e : CodeError}
    (h : f.code p = .error e) : e = .jumpTooFar := by
  obtain ⟨body, t, hbody, -⟩ := FunDef.bodyCode_isOk hp hf
  by_cases hjumps : JumpsWithin Template.maxTarget body
  · rw [(FunDef.code_of_body rfl hbody).1 hjumps] at h
    cases h
  · rw [(FunDef.code_of_body rfl hbody).2 hjumps] at h
    cases h
    rfl

/-- The code of a checked program none of whose functions is too long. -/
theorem Program.Checked.code_isOk (hp : p.Checked)
    (hshort : ∀ f ∈ p.functions, f.isShort p = true) : ∃ ts, p.code = .ok ts :=
  mapM_isOk fun f hf ↦ FunDef.code_isOk hp hf (hshort f hf)

/-- What generated code can be used for: every function has a template, and each passes
verification. -/
theorem Program.code_verifies {ts : List Template} (h : p.code = .ok ts) :
    ts.map (·.name) = p.functions.map (·.name.text) ∧ ∀ t ∈ ts, t.verify = .ok () :=
  have hall := forall₂_of_mapM_eq_ok h
  ⟨names_of_forall₂_code hall, verify_of_forall₂_code hall⟩

theorem Program.Checked.startTemplates_isOk (hp : p.Checked) {ts : List Template}
    (h : p.code = .ok ts) (m : Machine) : ∃ m', m.startTemplates ts = (.ok (), m') := by
  obtain ⟨f, hf⟩ := hp.main
  obtain ⟨t, ht, -⟩ := hp.find?_template h hf
  obtain ⟨templates, -, hstart⟩ := Machine.startTemplates_of_main (Program.code_verifies h).2 ht m
  exact ⟨_, hstart⟩

end

/-! ## Accepted programs -/

/-- **Accepted programs compile.** If no function of a program that passes the checks is too long,
then the program has code, folded or not, with one template for each function, and all of them pass
verification. A source text of the program can be started on any machine. -/
theorem Program.accepted_code {p : Program} (hcheck : p.check = .ok ())
    (hshort : ∀ f ∈ p.functions, f.isShort p = true) :
    (∀ q ∈ [p, p.folded], ∃ ts, q.code = .ok ts ∧
      ts.map (·.name) = p.functions.map (·.name.text) ∧ ∀ t ∈ ts, t.verify = .ok ()) ∧
    ∀ source, parseSource source = .ok p → ∀ (m : Machine) (folding : Bool),
      ∃ m', m.startSource folding source = (.ok (), m') := by
  have hp := Program.checked_of_check hcheck
  obtain ⟨ts, hts⟩ := hp.code_isOk hshort
  obtain ⟨folded, hfolded, -⟩ := Program.code_folded hts
  have hnames : p.folded.functions.map (·.name.text) = p.functions.map (·.name.text) :=
    List.map_map ..
  refine ⟨?_, fun source hsource m folding ↦ ?_⟩
  · intro q hq
    rcases List.mem_pair.mp hq with rfl | rfl
    · exact ⟨ts, hts, Program.code_verifies hts⟩
    · exact ⟨folded, hfolded, hnames ▸ Program.code_verifies hfolded⟩
  · have hanalyze : analyzeSource folding source = .ok (if folding then p.folded else p) := by
      simp only [analyzeSource, bind_eq_ok, pure_eq_ok, mapError_eq_ok]
      exact ⟨p, hsource, (), hcheck, rfl⟩
    have hcompile : compileSource folding source = .ok (if folding then folded else ts) := by
      simp only [compileSource, bind_eq_ok, mapError_eq_ok]
      refine ⟨_, hanalyze, ?_⟩
      cases folding with
      | true => exact hfolded
      | false => exact hts
    rw [Machine.startSource, hcompile]
    cases folding with
    | true => exact hp.folded.startTemplates_isOk hfolded m
    | false => exact hp.startTemplates_isOk hts m

/-- A program with a struct, an array, a call and two blocks that declare one name. -/
theorem Program.accepted_code_two_functions :
    ∃ p, parseSource
        ("struct P \x7b x: int, y: bool \x7d int f(p: P, a: [int]) \x7b for i from 0 to 3 \x7b " ++
          "if a[i] < p.x \x7b var t = i \x7d else \x7b var t = p.y print(t) \x7d \x7d " ++
          "return a[0] \x7d void main() \x7b print(f(new P(1 + 1, true), new int[4])) \x7d") =
        .ok p ∧ p.check = .ok () ∧ (∀ f ∈ p.functions, f.isShort p = true) ∧
      ∃ ts, p.folded.code = .ok ts ∧ ts.map (·.name) = ["f", "main"] ∧
        ∀ t ∈ ts, t.verify = .ok () := by
  have hok : (parseSource
      ("struct P \x7b x: int, y: bool \x7d int f(p: P, a: [int]) \x7b for i from 0 to 3 \x7b " ++
        "if a[i] < p.x \x7b var t = i \x7d else \x7b var t = p.y print(t) \x7d \x7d " ++
        "return a[0] \x7d void main() \x7b print(f(new P(1 + 1, true), new int[4])) \x7d")
      ).toOption.any (fun p ↦ p.check.isOk && (p.functions.all fun f ↦ f.isShort p) &&
        p.functions.map (·.name.text) == ["f", "main"]) = true := by
    decide +kernel
  obtain ⟨p, hp, h⟩ := eq_ok_of_any hok
  rw [Bool.and_eq_true, Bool.and_eq_true, List.all_eq_true, beq_iff_eq] at h
  obtain ⟨⟨hcheck, hshort⟩, hnames⟩ := h
  obtain ⟨_, hcheck⟩ := eq_ok_of_isOk hcheck
  obtain ⟨hcode, -⟩ := Program.accepted_code hcheck hshort
  obtain ⟨ts, hts, hmap, hverify⟩ := hcode p.folded (List.mem_pair.mpr (.inr rfl))
  exact ⟨p, hp, hcheck, hshort, ts, hts, hmap.trans hnames, hverify⟩

end Pebble
