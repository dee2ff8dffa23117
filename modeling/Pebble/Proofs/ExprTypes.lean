import Mathlib.Data.List.Forall2
import Pebble.Proofs.CheckedPrograms
import Pebble.Proofs.Spots

/-!
# The code of expressions is typed

`Op.Flows` says for each operation which operands it takes and what it leaves, in terms of spots.
The code of an expression flows from one spot to the next, from a spot with any pending operands
to the one with the value of the expression on top of them (`Expr.straight`).
-/

namespace Pebble

/-- The type of a converted value. -/
def Conversion.type : Conversion → Ty
  | .int => .int
  | .double => .double
  | .string => .string

/-- `op.Flows p a b`: executed where `a` is known, `op` goes on to the next instruction with `b`
known. -/
inductive Op.Flows (p : Program) : Op → Spot → Spot → Prop where
  | push {s ps} (l : Literal) : Flows p (.push (.ofLiteral l)) ⟨s, ps⟩ ⟨s, .val l.type :: ps⟩
  | pop {s ps t} : Flows p .pop ⟨s, .val t :: ps⟩ ⟨s, ps⟩
  | dup {s ps d n} : Flows p .dup ⟨s, .record d n :: ps⟩ ⟨s, .copy :: .record d n :: ps⟩
  | load {s ps x t k} (h : s.bindings.reverse[k]? = some (x, t)) :
      Flows p (.load k) ⟨s, ps⟩ ⟨s, .val t :: ps⟩
  | store {s ps x t k wanted} (h : s.bindings.reverse[k]? = some (x, wanted))
      (hfit : t.fits wanted = true) : Flows p (.store k) ⟨s, .val t :: ps⟩ ⟨s, ps⟩
  | declare {s ps x t wanted} (hs : s.stack ≠ []) (hfit : t.fits wanted = true) :
      Flows p (.store s.bindings.length) ⟨s, .val t :: ps⟩ ⟨s.declare x wanted, ps⟩
  | arith {s ps o type} (h : type = .int ∨ type = .double ∨ type = .string ∧ o = .add) :
      Flows p (.arith o) ⟨s, .val (.one type) :: .val (.one type) :: ps⟩
        ⟨s, .val (.one type) :: ps⟩
  | logic {s ps o} :
      Flows p (.logic o) ⟨s, .val .bool :: .val .bool :: ps⟩ ⟨s, .val .bool :: ps⟩
  | not {s ps} : Flows p .not ⟨s, .val .bool :: ps⟩ ⟨s, .val .bool :: ps⟩
  | order {s ps o type} (h : type = .int ∨ type = .double ∨ type = .string) :
      Flows p (.order o) ⟨s, .val (.one type) :: .val (.one type) :: ps⟩ ⟨s, .val .bool :: ps⟩
  | equal {s ps t t'} : Flows p .equal ⟨s, .val t :: .val t' :: ps⟩ ⟨s, .val .bool :: ps⟩
  | unequal {s ps t t'} : Flows p .unequal ⟨s, .val t :: .val t' :: ps⟩ ⟨s, .val .bool :: ps⟩
  | call {s ps x f ts} (hf : p.function? x = some f)
      (hargs : List.Forall₂ (fun t (v : VarDef) ↦ Ty.fits t (.ofRef v.type) = true) ts f.params) :
      Flows p (.call x) ⟨s, ts.map .val ++ ps⟩ ⟨s, .val f.resultType :: ps⟩
  | newRecord {s ps d} (h : p.struct? d.name.text = some d) :
      Flows p .newRecord ⟨s, ps⟩ ⟨s, .built d 0 :: ps⟩
  | setNext {s ps d n decl t} (hn : d.fields[n]? = some decl) (hd : d ∈ p.structs)
      (hfit : t.fits (.ofRef decl.type) = true) :
      Flows p (.setField decl.name.text) ⟨s, .val t :: .copy :: .record d n :: ps⟩
        ⟨s, .built d (n + 1) :: ps⟩
  | setField {s ps d x decl t} (hd : p.struct? d.name.text = some d)
      (hx : d.fields.find? (·.name.text == x) = some decl)
      (hfit : t.fits (.ofRef decl.type) = true) :
      Flows p (.setField x) ⟨s, .val t :: .val (.one (.struct d.name.text)) :: ps⟩ ⟨s, ps⟩
  | getField {s ps d x decl} (hd : p.struct? d.name.text = some d)
      (hx : d.fields.find? (·.name.text == x) = some decl) :
      Flows p (.getField x) ⟨s, .val (.one (.struct d.name.text)) :: ps⟩
        ⟨s, .val (.ofRef decl.type) :: ps⟩
  | newArray {s ps elem} : Flows p .newArray ⟨s, .val .int :: ps⟩ ⟨s, .val (.array elem) :: ps⟩
  | setItem {s ps elem t} (hfit : t.fits (.one elem) = true) :
      Flows p .setItem ⟨s, .val t :: .val .int :: .val (.array elem) :: ps⟩ ⟨s, ps⟩
  | getItem {s ps elem} :
      Flows p .getItem ⟨s, .val .int :: .val (.array elem) :: ps⟩ ⟨s, .val (.one elem) :: ps⟩
  | write {s ps t} (h : t.isObject = false) : Flows p .write ⟨s, .val t :: ps⟩ ⟨s, ps⟩
  | read {s ps} : Flows p .read ⟨s, ps⟩ ⟨s, .val .string :: ps⟩
  | size {s ps t} (h : t.isArray = true ∨ t = .string) :
      Flows p .size ⟨s, .val t :: ps⟩ ⟨s, .val .int :: ps⟩
  | elementOfString {s ps} :
      Flows p .element ⟨s, .val .int :: .val .string :: ps⟩ ⟨s, .val .string :: ps⟩
  | elementOfArray {s ps elem} :
      Flows p .element ⟨s, .val .int :: .val (.array elem) :: ps⟩ ⟨s, .val (.one elem) :: ps⟩
  | convert {s ps t c} (h : t.isObject = false) :
      Flows p (.convert c) ⟨s, .val t :: ps⟩ ⟨s, .val c.type :: ps⟩

/-! ## Code without jumps -/

/-- Code in which every instruction flows to the next, with the spots of its instructions. -/
inductive Straight (p : Program) : Spot → List Instr → List Spot → Spot → Prop where
  | nil (a : Spot) : Straight p a [] [] a
  | cons {a b e : Spot} {i : Instr} {code : List Instr} {spots : List Spot}
      (h : i.op.Flows p a b) (t : Straight p b code spots e) :
      Straight p a (i :: code) (a :: spots) e

namespace Straight

variable {p : Program} {a b c : Spot} {i : Instr}

theorem single (h : i.op.Flows p a b) : Straight p a [i] [a] b := .cons h (.nil b)

theorem append {code code' : List Instr} {spots spots' : List Spot}
    (h : Straight p a code spots b) (h' : Straight p b code' spots' c) :
    Straight p a (code ++ code') (spots ++ spots') c := by
  induction h with
  | nil => exact h'
  | cons hd _ ih => exact .cons hd (ih h')

theorem length_eq {code : List Instr} {spots : List Spot} (h : Straight p a code spots b) :
    spots.length = code.length := by
  induction h with
  | nil => rfl
  | cons _ _ ih => rw [List.length_cons, List.length_cons, ih]

end Straight

section
variable {p : Program} {s : Scopes}

theorem Expr.ty_eq {e : Expr} {t : Ty} (h : e.typeIn p s = .ok t) : e.ty p s = t := by
  rw [Expr.ty, h, okOr_ok]

theorem Path.ty_eq {path : Path} {t : Ty} (h : path.typeIn p s = .ok t) : path.ty p s = t := by
  rw [Path.ty, h, okOr_ok]

theorem Scopes.ty_eq {x : Name} {t : Ty} (h : s.lookup x.text = some t) : s.ty x = t := by
  rw [Scopes.ty, h, Option.getD_some]

theorem Program.fieldTy_eq {t t' : Ty} {x : Name} (h : p.fieldType t x = .ok t') :
    p.fieldTy t x = t' := by
  rw [Program.fieldTy, h, okOr_ok]

/-- The slot that the code loads a variable from is that of the binding which gives its type. -/
theorem slotOf_eq_ok {x : Name} {k : Nat} (h : (SlotTable.ofStack s.stack).slotOf x = .ok k) :
    ∃ t, s.lookup x.text = some t ∧ s.bindings.reverse[k]? = some (x.text, t) := by
  rw [SlotTable.slotOf] at h
  cases hs : (SlotTable.ofStack s.stack).slot? x.text with
  | none => rw [hs] at h; cases h
  | some k' =>
    rw [hs] at h
    cases h
    obtain ⟨t, hlook, hget⟩ := SlotTable.slotIn?_eq_some hs
    exact ⟨t, by rw [Scopes.lookup_eq]; exact hlook, hget⟩

/-- A field access, with the struct and the declaration that give its type. -/
theorem Program.fieldType_eq_ok {t t' : Ty} {x : Name} (h : p.fieldType t x = .ok t') :
    ∃ d decl, t = .one (.struct d.name.text) ∧ p.struct? d.name.text = some d ∧
      d.fields.find? (·.name.text == x.text) = some decl ∧ t' = .ofRef decl.type := by
  unfold fieldType at h
  split at h
  · rename_i y
    cases hd : p.struct? y with
    | none =>
      simp only [hd] at h
      cases h
    | some d =>
      obtain rfl := (struct?_some hd).2
      cases hx : d.fields.find? (·.name.text == x.text) with
      | none =>
        simp only [hd, hx] at h
        cases h
      | some decl =>
        simp only [hd, hx, Except.ok.injEq] at h
        exact ⟨d, decl, rfl, hd, hx, h.symm⟩
  · cases h

/-- Typed arguments: each has its type, and each has been judged. -/
theorem argTypes_eq_ok {judge : Judge} {i : Nat} {args : List Expr} {ts : List Ty}
    (h : argTypes p s judge i args = .ok ts) :
    ts = args.map (·.ty p s) ∧
      ∀ k a, args[k]? = some a → judge (i + k) a.pos (a.ty p s) = .ok () := by
  induction args generalizing i ts with
  | nil => cases h; simp
  | cons arg args ih =>
    simp only [argTypes, bind_eq_ok, pure_eq_ok] at h
    obtain ⟨t, ht, _, hj, ts', hts, rfl⟩ := h
    obtain ⟨rfl, hjs⟩ := ih hts
    have hty := Expr.ty_eq ht
    refine ⟨by rw [List.map_cons, hty], fun k a hk ↦ ?_⟩
    cases k with
    | zero =>
      obtain rfl : arg = a := by simpa using hk
      rw [hty]
      exact hj
    | succ k =>
      rw [List.getElem?_cons_succ] at hk
      rw [show i + (k + 1) = i + 1 + k by omega]
      exact hjs k a hk

/-- The arguments of a call of a built-in function that has been checked. -/
theorem Builtin.args_ok {b : Builtin} {callee : Name} {args : List Expr} {ts : List Ty}
    (h : argTypes p s (b.judge callee) 0 args = .ok ts) :
    ts = args.map (·.ty p s) ∧
      ∀ k t, (args.map (·.ty p s))[k]? = some t → b.rejects? k t = none := by
  obtain ⟨rfl, hj⟩ := argTypes_eq_ok h
  refine ⟨rfl, fun k t hk ↦ ?_⟩
  rw [List.getElem?_map, Option.map_eq_some_iff] at hk
  obtain ⟨a, ha, rfl⟩ := hk
  have hjudged := hj k a ha
  rw [Nat.zero_add, Builtin.judge] at hjudged
  cases hr : b.rejects? k (a.ty p s) with
  | none => rfl
  | some f =>
    rw [hr] at hjudged
    cases hjudged

/-! ## Operators, built-in functions and arguments -/

/-- The operand types that an operator is checked for, and the type of its result. -/
theorem BinOp.typeOf_eq_ok {op : BinOp} {pos : Pos} {l r t : Ty}
    (h : op.typeOf pos l r = .ok t) :
    (op.isLogical = true ∧ l = .bool ∧ r = .bool ∧ t = .bool) ∨
    (op.isEquality = true ∧ (l = r ∨ l = .null ∨ r = .null) ∧ t = .bool) ∨
    ∃ type, l = .one type ∧ r = .one type ∧
      ((op.isRelational = true ∧ (type = .int ∨ type = .double ∨ type = .string) ∧ t = .bool) ∨
       ((op.isLogical || op.isEquality || op.isRelational) = false ∧
        (type = .int ∨ type = .double ∨ type = .string ∧ op = .add) ∧ t = .one type)) := by
  unfold typeOf at h
  by_cases hlog : op.isLogical = true
  · rw [if_pos hlog] at h
    simp only [bind_eq_ok, require_eq_ok, pure_eq_ok] at h
    obtain ⟨-, hb, rfl⟩ := h
    have hlr : l = .bool ∧ r = .bool := by simpa using hb
    exact .inl ⟨hlog, hlr.1, hlr.2, rfl⟩
  rw [if_neg hlog] at h
  by_cases heq : op.isEquality = true
  · rw [if_pos heq] at h
    simp only [bind_eq_ok, require_eq_ok, pure_eq_ok] at h
    obtain ⟨-, hb, rfl⟩ := h
    exact .inr (.inl ⟨heq, by simpa [or_assoc] using hb, rfl⟩)
  rw [if_neg heq] at h
  simp only [bind_eq_ok, require_eq_ok] at h
  obtain ⟨-, -, -, hlr, hres⟩ := h
  -- From here on both operands have the same type, and that type decides.
  obtain rfl : l = r := by simpa using hlr
  cases l with
  | null => cases hres
  | array elem => cases hres
  | one type =>
    refine .inr (.inr ⟨type, rfl, rfl, ?_⟩)
    by_cases hrel : op.isRelational = true
    · simp only [if_pos hrel, bind_eq_ok, require_eq_ok, pure_eq_ok] at hres
      obtain ⟨-, hb, rfl⟩ := hres
      exact .inl ⟨hrel, by simpa [or_assoc] using hb, rfl⟩
    · simp only [if_neg hrel, bind_eq_ok, require_eq_ok, pure_eq_ok] at hres
      obtain ⟨-, hb, rfl⟩ := hres
      refine .inr ⟨by simp [hlog, heq, hrel], by simpa [or_assoc] using hb, rfl⟩

/-- The operands of an operator, in the order in which they are evaluated. -/
def BinOp.pendingOperands (op : BinOp) (l r : Ty) : List Pending :=
  if op.isSwapped then [.val l, .val r] else [.val r, .val l]

/-- An operator flows from operands it is checked for to its result. -/
theorem BinOp.flows {op : BinOp} {pos : Pos} {l r t : Ty} (ps : List Pending)
    (h : op.typeOf pos l r = .ok t) :
    op.code.Flows p ⟨s, op.pendingOperands l r ++ ps⟩ ⟨s, .val t :: ps⟩ := by
  rcases typeOf_eq_ok h with ⟨hop, rfl, rfl, rfl⟩ | ⟨hop, -, rfl⟩ | ⟨type, rfl, rfl, hcase⟩
  · cases op with
    | and | or => exact .logic
    | add | sub | mul | div | eq | ne | lt | le | gt | ge => cases hop
  · cases op with
    | eq => exact .equal
    | ne => exact .unequal
    | add | sub | mul | div | and | or | lt | le | gt | ge => cases hop
  · rcases hcase with ⟨hop, htype, rfl⟩ | ⟨hop, htype, rfl⟩
    · cases op with
      | lt | le | gt | ge => exact .order htype
      | add | sub | mul | div | and | or | eq | ne => cases hop
    · cases op with
      | add => exact .arith (by simpa using htype)
      | sub | mul | div => exact .arith (by simpa using htype)
      | and | or | eq | ne | lt | le | gt | ge => cases hop

/-- A built-in function flows from arguments that it accepts to its result, if it has one. -/
theorem Builtin.straight_action {b : Builtin} {ts : List Ty} (ps : List Pending)
    (hlen : ts.length = b.arity) (hok : ∀ k t, ts[k]? = some t → b.rejects? k t = none) :
    Straight p ⟨s, ts.map .val ++ ps⟩ b.action (b.actionSpots s (ts.map .val) ps)
      ⟨s, (if b.hasResult then [.val (b.resultType ts)] else []) ++ ps⟩ := by
  cases b with
  | readln =>
    obtain rfl := List.length_eq_zero_iff.mp hlen
    exact .single .read
  | get =>
    obtain ⟨i, c, rfl⟩ := List.length_eq_two.mp hlen
    have hi : i = .int := by simpa [rejects?] using hok 0 i rfl
    have hc : c.isArray = false → c = .string := by simpa [rejects?] using hok 1 c rfl
    subst hi
    cases c with
    | array elem => exact .single .elementOfArray
    | null => cases hc rfl
    | one type =>
      obtain rfl : type = .string := Ty.one.inj (hc rfl)
      exact .single .elementOfString
  | print =>
    obtain ⟨t, rfl⟩ := List.length_eq_one_iff.mp hlen
    have ht : t.isObject = false := by simpa [rejects?] using hok 0 t rfl
    exact .single (.write ht)
  | println =>
    obtain ⟨t, rfl⟩ := List.length_eq_one_iff.mp hlen
    have ht : t.isObject = false := by simpa [rejects?] using hok 0 t rfl
    exact .cons (.write ht) (.cons (.push (.str "\n")) (.single (.write rfl)))
  | size =>
    obtain ⟨t, rfl⟩ := List.length_eq_one_iff.mp hlen
    have ht : t.isArray = false → t = .string := by simpa [rejects?] using hok 0 t rfl
    refine .single (.size ?_)
    cases harr : t.isArray with
    | true => exact .inl rfl
    | false => exact .inr (ht harr)
  | intVal | dblVal | strVal =>
    obtain ⟨t, rfl⟩ := List.length_eq_one_iff.mp hlen
    have ht := hok 0 t rfl
    simp only [rejects?] at ht
    refine .single (.convert ?_)
    cases hobj : t.isObject with
    | false => rfl
    | true => simp [hobj] at ht

theorem Builtin.straight {b : Builtin} {ts : List Ty} (ps : List Pending)
    (hlen : ts.length = b.arity) (hok : ∀ k t, ts[k]? = some t → b.rejects? k t = none) :
    Straight p ⟨s, ts.map .val ++ ps⟩ b.code (b.spots s (ts.map .val) ps)
      ⟨s, .val (b.resultType ts) :: ps⟩ := by
  have h := straight_action (p := p) (s := s) ps hlen hok
  rw [code, spots]
  cases hres : b.hasResult with
  | true =>
    rw [hres, if_pos rfl] at h
    simpa using h
  | false =>
    rw [hres, if_neg (by simp)] at h
    have hnull : b.resultType ts = .null := by
      cases b with
      | print | println => rfl
      | readln | size | get | intVal | dblVal | strVal => cases hres
    rw [hnull]
    exact h.append (.single (.push .null))

/-- Arguments that a function or a constructor accepts fit the declarations. -/
theorem fits_of_judgeAgainst {wanted : List VarDef} {fault : Nat → VarDef → Ty → StaticFault}
    {k : Nat} {pos : Pos} {t : Ty} {v : VarDef} (hv : wanted[k]? = some v)
    (h : judgeAgainst wanted fault k pos t = .ok ()) : t.fits (.ofRef v.type) = true := by
  simp only [judgeAgainst, hv, require_eq_ok] at h
  exact h

theorem forall₂_fits {params : List VarDef} {fault : Nat → VarDef → Ty → StaticFault}
    {args : List Expr} (hlen : args.length = params.length)
    (h : ∀ k a, args[k]? = some a →
      judgeAgainst params fault (0 + k) a.pos (a.ty p s) = .ok ()) :
    List.Forall₂ (fun t (v : VarDef) ↦ Ty.fits t (.ofRef v.type) = true)
      (args.map (·.ty p s)) params := by
  rw [List.forall₂_iff_get]
  refine ⟨by rw [List.length_map, hlen], fun k hk hk' ↦ ?_⟩
  rw [List.length_map] at hk
  have hget := h k args[k] (List.getElem?_eq_getElem hk)
  rw [Nat.zero_add] at hget
  simpa using fits_of_judgeAgainst (List.getElem?_eq_getElem hk') hget

/-! ## Expressions -/

mutual

/-- The code of an expression leaves a value of its type. -/
theorem Expr.straight (hp : p.Checked) (s : Scopes) : (e : Expr) → ∀ {t : Ty} {c : List Instr}
    (ps : List Pending), e.typeIn p s = .ok t → e.code p (.ofStack s.stack) = .ok c →
    Straight p ⟨s, ps⟩ c (e.spots p s ps) ⟨s, .val t :: ps⟩
  | .lit value pos, t, c, ps, ht, hc => by
    cases ht
    cases hc
    exact .single (.push value)
  | .path path, t, c, ps, ht, hc => by
    rw [Expr.typeIn] at ht
    rw [Expr.code] at hc
    exact path.straight hp s ps ht hc
  | .call callee args, t, c, ps, ht, hc => by
    rw [Expr.typeIn] at ht
    rw [Expr.code] at hc
    rw [Expr.spots]
    cases hb : Builtin.ofName? callee.text with
    | some b =>
      simp only [hb, bind_eq_ok, pure_eq_ok, require_eq_ok] at ht hc ⊢
      obtain ⟨-, hlen, ts, hts, rfl⟩ := ht
      obtain ⟨-, -, ca, hca, rfl⟩ := hc
      obtain ⟨rfl, hok⟩ := Builtin.args_ok hts
      have harity : (args.map (·.ty p s)).length = b.arity := by simpa using hlen
      have hb := Builtin.straight (p := p) (s := s) ps harity hok
      rw [List.map_map] at hb
      exact (argsStraight hp s args ps hts hca).append hb
    | none =>
      simp only [hb, bind_eq_ok, pure_eq_ok] at ht hc ⊢
      cases hf : p.function? callee.text with
      | none => simp only [hf] at ht; cases ht
      | some f =>
        simp only [hf, bind_eq_ok, pure_eq_ok, require_eq_ok] at ht
        obtain ⟨-, hlen, ts, hts, rfl⟩ := ht
        obtain ⟨ca, hca, rfl⟩ := hc
        obtain ⟨rfl, hj⟩ := argTypes_eq_ok hts
        refine (argsStraight hp s args ps hts hca).append (.single ?_)
        have hflow : (Op.call callee.text).Flows p ⟨s, (args.map (·.ty p s)).map .val ++ ps⟩
            ⟨s, .val f.resultType :: ps⟩ := .call hf (forall₂_fits (by simpa using hlen) hj)
        rw [List.map_map] at hflow
        exact hflow
  | .newStruct name args, t, c, ps, ht, hc => by
    rw [Expr.typeIn] at ht
    rw [Expr.code] at hc
    rw [Expr.spots]
    cases hd : p.struct? name.text with
    | none => simp only [hd] at ht; cases ht
    | some d =>
      simp only [hd, bind_eq_ok, pure_eq_ok, require_eq_ok, hp.fieldsOf_eq hd] at ht hc ⊢
      obtain ⟨-, hlen, ts, hts, rfl⟩ := ht
      obtain ⟨fields, hfields, hc⟩ := hc
      have hsize : d.fields.length = args.length := (of_decide_eq_true hlen).symm
      cases hfields
      rw [if_neg (by simp [hsize])] at hc
      simp only [bind_eq_ok, pure_eq_ok] at hc
      obtain ⟨cf, hcf, rfl⟩ := hc
      obtain ⟨hmem, hname⟩ := Program.struct?_some hd
      rw [← hname] at hd ⊢
      exact .cons (.newRecord hd) (fieldsStraight hp s hmem args ps (by omega) hts hcf)
  | .newArray elem size, t, c, ps, ht, hc => by
    simp only [Expr.typeIn, Expr.code, bind_eq_ok, pure_eq_ok, require_eq_ok] at ht hc
    obtain ⟨-, -, ts, hts, -, hint, rfl⟩ := ht
    obtain ⟨cs, hcs, rfl⟩ := hc
    obtain rfl : ts = .int := by simpa using hint
    rw [Expr.spots, Expr.ty_eq hts]
    exact (size.straight hp s ps hts hcs).append (.single .newArray)
  | .not pos operand, t, c, ps, ht, hc => by
    simp only [Expr.typeIn, Expr.code, bind_eq_ok, pure_eq_ok, require_eq_ok] at ht hc
    obtain ⟨t', ht', -, hbool, rfl⟩ := ht
    obtain ⟨co, hco, rfl⟩ := hc
    obtain rfl : t' = .bool := by simpa using hbool
    rw [Expr.spots, Expr.ty_eq ht']
    exact (operand.straight hp s ps ht' hco).append (.single .not)
  | .binary op pos lhs rhs, t, c, ps, ht, hc => by
    simp only [Expr.typeIn, bind_eq_ok] at ht
    obtain ⟨l, hl, r, hr, hop⟩ := ht
    have hflow := BinOp.flows (p := p) (s := s) ps hop
    rw [Expr.code] at hc
    rw [Expr.spots, Expr.ty_eq hl, Expr.ty_eq hr]
    -- The operands are pending in the order in which the code computes them.
    rw [BinOp.pendingOperands] at hflow
    cases hsw : op.isSwapped with
    | true =>
      simp only [hsw, if_true, bind_eq_ok, pure_eq_ok] at hc hflow ⊢
      obtain ⟨cr, hcr, cl, hcl, rfl⟩ := hc
      exact ((rhs.straight hp s ps hr hcr).append (lhs.straight hp s _ hl hcl)).append
        (.single hflow)
    | false =>
      simp only [hsw, Bool.false_eq_true, if_false, bind_eq_ok, pure_eq_ok] at hc hflow ⊢
      obtain ⟨cl, hcl, cr, hcr, rfl⟩ := hc
      exact ((lhs.straight hp s ps hl hcl).append (rhs.straight hp s _ hr hcr)).append
        (.single hflow)

/-- The code of a path leaves a value of the type of what it names. -/
theorem Path.straight (hp : p.Checked) (s : Scopes) : (path : Path) → ∀ {t : Ty} {c : List Instr}
    (ps : List Pending), path.typeIn p s = .ok t → path.code p (.ofStack s.stack) = .ok c →
    Straight p ⟨s, ps⟩ c (path.spots p s ps) ⟨s, .val t :: ps⟩
  | .root name index, t, c, ps, ht, hc => by
    rw [Path.typeIn] at ht
    simp only [Path.code, bind_eq_ok, pure_eq_ok] at hc
    obtain ⟨k, hk, ci, hci, rfl⟩ := hc
    obtain ⟨t₀, hlook, hget⟩ := slotOf_eq_ok hk
    simp only [hlook] at ht
    rw [Path.spots, Scopes.ty_eq hlook]
    exact .cons (.load hget) (indexStraight hp s name t₀ index ps ht hci)
  | .field base name index, t, c, ps, ht, hc => by
    simp only [Path.typeIn, Path.code, bind_eq_ok, pure_eq_ok] at ht hc
    obtain ⟨tb, htb, tf, htf, hti⟩ := ht
    obtain ⟨cb, hcb, ci, hci, rfl⟩ := hc
    rw [Path.spots, Path.ty_eq htb, Program.fieldTy_eq htf]
    obtain ⟨d, decl, rfl, hd, hx, rfl⟩ := Program.fieldType_eq_ok htf
    exact (base.straight hp s ps htb hcb).append
      (.cons (.getField hd hx) (indexStraight hp s name _ index ps hti hci))

/-- The code of an index replaces an array by one of its items. -/
theorem indexStraight (hp : p.Checked) (s : Scopes) (name : Name) (t₀ : Ty) :
    (index : Option Expr) → ∀ {t : Ty} {c : List Instr} (ps : List Pending),
    indexedType p s name t₀ index = .ok t → indexCode p (.ofStack s.stack) index = .ok c →
    Straight p ⟨s, .val t₀ :: ps⟩ c (indexSpots p s (.val t₀ :: ps) index) ⟨s, .val t :: ps⟩
  | none, t, c, ps, ht, hc => by
    cases ht
    cases hc
    exact .nil _
  | some index, t, c, ps, ht, hc => by
    cases t₀ with
    | null => cases ht
    | one type => cases ht
    | array elem =>
      simp only [indexedType, indexCode, bind_eq_ok, pure_eq_ok, require_eq_ok] at ht hc
      obtain ⟨ti, hti, -, hint, rfl⟩ := ht
      obtain ⟨ci, hci, rfl⟩ := hc
      obtain rfl : ti = .int := by simpa using hint
      rw [indexSpots, Expr.ty_eq hti]
      exact (index.straight hp s _ hti hci).append (.single .getItem)

/-- The code of arguments leaves them on the stack, the first on top. -/
theorem argsStraight (hp : p.Checked) (s : Scopes) : (args : List Expr) →
    ∀ {judge : Judge} {i : Nat} {ts : List Ty} {c : List Instr} (ps : List Pending),
    argTypes p s judge i args = .ok ts → argsCode p (.ofStack s.stack) args = .ok c →
    Straight p ⟨s, ps⟩ c (argsSpots p s ps args) ⟨s, pendingArgs p s args ++ ps⟩
  | [], judge, i, ts, c, ps, ht, hc => by
    cases hc
    exact .nil _
  | arg :: args, judge, i, ts, c, ps, ht, hc => by
    simp only [argTypes, argsCode, bind_eq_ok, pure_eq_ok] at ht hc
    obtain ⟨t, ht, -, -, ts', hts, rfl⟩ := ht
    obtain ⟨later, hlater, ca, hca, rfl⟩ := hc
    have harg := arg.straight hp s (pendingArgs p s args ++ ps) ht hca
    rw [← Expr.ty_eq ht] at harg
    exact (argsStraight hp s args ps hts hlater).append harg

/-- The code of constructor arguments completes the record on the stack. -/
theorem fieldsStraight (hp : p.Checked) (s : Scopes) {d : StructDef} (hd : d ∈ p.structs) :
    (args : List Expr) → ∀ {n : Nat} {ts : List Ty} {c : List Instr} (ps : List Pending),
    n + args.length = d.fields.length → argTypes p s d.judge n args = .ok ts →
    fieldsCode p (.ofStack s.stack) ((d.fields.drop n).map (·.name.text)) args = .ok c →
    Straight p ⟨s, .built d n :: ps⟩ c (fieldsSpots p s ps d n args)
      ⟨s, .val (.one (.struct d.name.text)) :: ps⟩
  | [], n, ts, c, ps, hlen, ht, hc => by
    obtain rfl : c = [] := by
      cases hdrop : (d.fields.drop n).map (·.name.text) <;> rw [hdrop] at hc <;> cases hc <;> rfl
    rw [Pending.built, if_pos (by simpa using hlen)]
    exact .nil _
  | arg :: args, n, ts, c, ps, hlen, ht, hc => by
    rw [List.length_cons] at hlen
    have hn : n < d.fields.length := by omega
    rw [List.drop_eq_getElem_cons hn, List.map_cons] at hc
    simp only [argTypes, fieldsCode, bind_eq_ok, pure_eq_ok] at ht hc
    obtain ⟨t, ht, _, hj, ts', hts, rfl⟩ := ht
    obtain ⟨ca, hca, rest, hrest, rfl⟩ := hc
    have hget : d.fields[n]? = some d.fields[n] := List.getElem?_eq_getElem hn
    rw [fieldsSpots, Expr.ty_eq ht, Pending.built, if_neg (by omega)]
    rw [List.append_assoc]
    exact .cons .dup ((arg.straight hp s _ ht hca).append
      (.cons (.setNext hget hd (fits_of_judgeAgainst hget hj))
        (fieldsStraight hp s hd args ps (by omega) hts hrest)))

end

end

end Pebble
