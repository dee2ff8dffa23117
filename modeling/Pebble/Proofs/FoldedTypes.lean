import Pebble.Proofs.CheckedPrograms
import Pebble.Syntax.Folding

/-!
# Folding keeps types

Checking a folded program comes to the same as checking the program: both are accepted, or both are
rejected for the same reason. Positions may change, but they only show where an error is reported.

A fold only fires on operands that the operator accepts, and its result has the type of the
operation (`foldBinary?_typeOf`). So an expression and the folded one have the same type, or the
same thing is wrong with them, and everything else follows the order in which a program is checked.
-/

namespace Pebble

/-! ## Checks that come to the same -/

/-- Two checks with the same answer, or with the same fault at positions that may differ. -/
inductive SameVerdict {α : Type} : Checked α → Checked α → Prop where
  | ok (a : α) : SameVerdict (.ok a) (.ok a)
  | error (pos pos' : Option Pos) (f : StaticFault) :
      SameVerdict (.error ⟨pos, f⟩) (.error ⟨pos', f⟩)

namespace SameVerdict

variable {α β : Type} {x y : Checked α}

theorem refl (x : Checked α) : SameVerdict x x := by
  cases x with
  | ok a => exact .ok a
  | error e => exact .error e.pos e.pos e.fault

/-- One check after the other. -/
theorem bind {f g : α → Checked β} (h : SameVerdict x y) (hf : ∀ a, SameVerdict (f a) (g a)) :
    SameVerdict (x >>= f) (y >>= g) := by
  cases h with
  | ok a => exact hf a
  | error pos pos' f => exact .error pos pos' f

theorem require (cond : Bool) (pos pos' : Pos) (f : StaticFault) :
    SameVerdict (require cond pos f) (Pebble.require cond pos' f) := by
  cases cond with
  | true => exact .ok ()
  | false => exact .error (some pos) (some pos') f

theorem eq_ok_iff (h : SameVerdict x y) (a : α) : x = .ok a ↔ y = .ok a := by
  cases h with
  | ok b => exact Iff.rfl
  | error pos pos' f =>
    constructor
    · rintro ⟨⟩
    · rintro ⟨⟩

theorem fault_eq (h : SameVerdict x y) {e e' : StaticError} (hx : x = .error e)
    (hy : y = .error e') : e.fault = e'.fault := by
  cases h with
  | ok b => cases hx
  | error pos pos' f =>
    cases hx
    cases hy
    rfl

theorem forM {γ : Type} {f : α → Checked Unit} {g : γ → Checked Unit} (h : γ → α) {xs : List γ}
    (hfg : ∀ c ∈ xs, SameVerdict (f (h c)) (g c)) :
    SameVerdict ((xs.map h).forM f) (xs.forM g) := by
  induction xs with
  | nil => exact .ok ()
  | cons c cs ih =>
    obtain ⟨hc, hcs⟩ := List.forall_mem_cons.mp hfg
    exact hc.bind fun _ ↦ ih hcs

end SameVerdict

/-! ## Operators -/

section
variable {op : BinOp} {v : Literal} (pos : Pos)

theorem foldInt?_typeOf {a b : Int32} (h : foldInt? op a b = some v) :
    op.typeOf pos .int .int = .ok v.type := by
  cases op with
  | add | sub | mul | eq | ne | lt | le | gt | ge => cases h; rfl
  | and | or => cases h
  | div =>
    rw [foldInt?] at h
    split at h
    · cases h
    · cases h
      rfl

theorem foldShift?_typeOf {a b : Int32} (h : foldShift? op a b = some v) :
    op.typeOf pos .int .int = .ok v.type := by
  unfold foldShift? at h
  split at h
  · cases h
    rfl
  · split at h
    · cases h
      rfl
    · cases h
  · cases h

theorem foldDouble?_typeOf {a b : Float} (h : foldDouble? op a b = some v) :
    op.typeOf pos .double .double = .ok v.type := by
  cases op with
  | add | sub | mul | eq | ne | lt | le | gt | ge => cases h; rfl
  | and | or => cases h
  | div =>
    rw [foldDouble?] at h
    split at h
    · cases h
    · cases h
      rfl

theorem foldBool?_typeOf {a b : Bool} (h : foldBool? op a b = some v) :
    op.typeOf pos .bool .bool = .ok v.type := by
  cases op with
  | and | or | eq | ne => cases h; rfl
  | add | sub | mul | div | lt | le | gt | ge => cases h

theorem foldStr?_typeOf {a b : String} (h : foldStr? op a b = some v) :
    op.typeOf pos .string .string = .ok v.type := by
  cases op with
  | add | eq | ne | lt | le | gt | ge => cases h; rfl
  | sub | mul | div | and | or => cases h

/-- Only comparisons with null fold, and they accept anything else. -/
theorem foldNull_typeOf {same : Bool} {l r : Ty} (hnull : l = .null ∨ r = .null)
    (h : foldBinary?.foldNull op same = some v) : op.typeOf pos l r = .ok v.type := by
  have hcond : (decide (l = r) || decide (l = .null) || decide (r = .null)) = true := by
    rcases hnull with rfl | rfl
    · simp
    · simp
  cases op with
  | eq | ne =>
    cases h
    simp only [BinOp.typeOf, BinOp.isLogical, BinOp.isEquality, hcond]
    rfl
  | add | sub | mul | div | and | or | lt | le | gt | ge => cases h

/-- An operation that folds is one on accepted operands, and the result has its type. -/
theorem foldBinary?_typeOf {l r : Literal} (h : foldBinary? op l r = some v) :
    op.typeOf pos l.type r.type = .ok v.type := by
  unfold foldBinary? at h
  split at h
  · rw [Option.or_eq_some_iff] at h
    rcases h with h | ⟨-, h⟩
    · exact foldShift?_typeOf pos h
    · exact foldInt?_typeOf pos h
  · exact foldDouble?_typeOf pos h
  · exact foldBool?_typeOf pos h
  · exact foldStr?_typeOf pos h
  · exact foldNull_typeOf pos (.inl rfl) h
  · exact foldNull_typeOf pos (.inr rfl) h
  · cases h

end

/-! ## Programs that declare the same -/

/-- A function without its body. -/
def FunDef.signature (f : FunDef) : FunDef := { f with body := [] }

theorem FunDef.of_signature_eq {f g : FunDef} (h : g.signature = f.signature) :
    g.params = f.params ∧ g.judge = f.judge ∧ g.resultType = f.resultType := by
  obtain ⟨name, returnType, params, body⟩ := f
  obtain ⟨name', returnType', params', body'⟩ := g
  cases h
  exact ⟨rfl, rfl, rfl⟩

/-- The same struct is found under every name, and functions that differ in their bodies only. -/
structure Program.SameDeclarations (p q : Program) : Prop where
  struct? : ∀ x, q.struct? x = p.struct? x
  functions : ∀ x, (q.function? x).map FunDef.signature = (p.function? x).map FunDef.signature

theorem Program.SameDeclarations.refl (p : Program) : p.SameDeclarations p :=
  ⟨fun _ ↦ rfl, fun _ ↦ rfl⟩

theorem Program.function?_folded (p : Program) (x : String) :
    p.folded.function? x = (p.function? x).map FunDef.folded := by
  rw [function?, function?, folded, List.find?_map]
  rfl

theorem Program.sameDeclarations_folded (p : Program) : p.SameDeclarations p.folded where
  struct? _ := rfl
  functions x := by
    rw [Program.function?_folded, Option.map_map]
    rfl

section
variable {p q : Program} (hq : p.SameDeclarations q)
include hq

theorem Program.SameDeclarations.checkType (use : TypeUse) (t : TypeRef) :
    q.checkType use t = p.checkType use t := by
  have htype : q.hasType t.name = p.hasType t.name := by
    cases t.name with
    | struct x => rw [Program.hasType, Program.hasType, hq.struct?]
    | int | double | bool | string | void => rfl
  rw [Program.checkType, Program.checkType, htype]

theorem Program.SameDeclarations.fieldType (t : Ty) (field : Name) :
    q.fieldType t field = p.fieldType t field := by
  match t with
  | .one (.struct s) => rw [Program.fieldType, Program.fieldType, hq.struct?]
  | .null | .array _ | .one .int | .one .double | .one .bool | .one .string | .one .void => rfl

end

/-! ## Expressions -/

section
variable {p q : Program}

theorem Expr.literal?_eq_some {e : Expr} {l : Literal} (h : e.literal? = some l) :
    ∃ pos, e = .lit l pos := by
  cases e with
  | lit value pos =>
    cases h
    exact ⟨pos, rfl⟩
  | path | call | newStruct | newArray | not | binary => cases h

theorem Expr.sameVerdict_foldedNot {s : Scopes} (pos : Pos) {operand folded : Expr}
    (h : SameVerdict (folded.typeIn q s) (operand.typeIn p s)) :
    SameVerdict ((Expr.foldedNot pos folded).typeIn q s) ((Expr.not pos operand).typeIn p s) := by
  unfold Expr.foldedNot
  split
  · have hbool : operand.typeIn p s = .ok .bool := (h.eq_ok_iff _).mp rfl
    rw [Expr.typeIn, Expr.typeIn, hbool]
    exact .ok _
  · exact h.bind fun _ ↦ .refl _

theorem Expr.sameVerdict_foldedBinary {s : Scopes} (op : BinOp) (pos : Pos)
    {lhs rhs lhs' rhs' : Expr} (hl : SameVerdict (lhs'.typeIn q s) (lhs.typeIn p s))
    (hr : SameVerdict (rhs'.typeIn q s) (rhs.typeIn p s)) :
    SameVerdict ((Expr.foldedBinary op pos lhs' rhs').typeIn q s)
      ((Expr.binary op pos lhs rhs).typeIn p s) := by
  have hkeep : SameVerdict ((Expr.binary op pos lhs' rhs').typeIn q s)
      ((Expr.binary op pos lhs rhs).typeIn p s) := hl.bind fun l ↦ hr.bind fun r ↦ .refl _
  unfold Expr.foldedBinary
  split
  · next l r hlit hlit' =>
    split
    · next v hv =>
      obtain ⟨pos₁, rfl⟩ := Expr.literal?_eq_some hlit
      obtain ⟨pos₂, rfl⟩ := Expr.literal?_eq_some hlit'
      have hl' : lhs.typeIn p s = .ok l.type := (hl.eq_ok_iff _).mp rfl
      have hr' : rhs.typeIn p s = .ok r.type := (hr.eq_ok_iff _).mp rfl
      have htype : (Expr.binary op pos lhs rhs).typeIn p s = op.typeOf pos l.type r.type := by
        rw [Expr.typeIn, hl', hr']
        rfl
      rw [htype, foldBinary?_typeOf pos hv]
      exact .ok v.type
    · exact hkeep
  · exact hkeep

theorem foldedArgs_length (args : List Expr) : (foldedArgs args).length = args.length := by
  induction args with
  | nil => rfl
  | cons arg args ih => rw [foldedArgs, List.length_cons, List.length_cons, ih]

/-- A judgement that depends on where an argument stands only in where it reports a fault. -/
def Judge.IgnoresPlace (judge : Judge) : Prop :=
  ∀ i pos pos' t, SameVerdict (judge i pos t) (judge i pos' t)

theorem Builtin.judge_ignoresPlace (b : Builtin) (callee : Name) :
    Judge.IgnoresPlace (b.judge callee) := fun _ _ _ _ ↦ .refl _

theorem judgeAgainst_ignoresPlace (wanted : List VarDef)
    (fault : Nat → VarDef → Ty → StaticFault) :
    Judge.IgnoresPlace (judgeAgainst wanted fault) := by
  intro i pos pos' t
  rw [judgeAgainst, judgeAgainst]
  cases wanted[i]? with
  | none => exact .ok ()
  | some v => exact .require ..

theorem FunDef.judge_ignoresPlace (f : FunDef) : f.judge.IgnoresPlace :=
  judgeAgainst_ignoresPlace _ _

theorem StructDef.judge_ignoresPlace (d : StructDef) : d.judge.IgnoresPlace :=
  judgeAgainst_ignoresPlace _ _

mutual

theorem Expr.sameVerdict_folded (hq : p.SameDeclarations q) (s : Scopes) : (e : Expr) →
    SameVerdict (e.folded.typeIn q s) (e.typeIn p s)
  | .lit value _ => .ok value.type
  | .path path => path.sameVerdict_folded hq s
  | .call callee args => by
    rw [Expr.folded, Expr.typeIn, Expr.typeIn, foldedArgs_length]
    cases Builtin.ofName? callee.text with
    | some b =>
      refine .bind (.refl _) fun _ ↦ ?_
      exact (sameVerdict_foldedArgs hq s (b.judge_ignoresPlace callee) 0 args).bind fun _ ↦ .refl _
    | none =>
      have hf := hq.functions callee.text
      -- Both programs declare the function, with the same signature, or neither does.
      generalize q.function? callee.text = g, p.function? callee.text = f at hf
      match f, g, hf with
      | none, none, _ => exact .refl _
      | some f, some g, hf =>
        obtain ⟨hparams, hjudge, hresult⟩ := FunDef.of_signature_eq (Option.some.inj hf)
        simp only [hparams, hjudge, hresult]
        refine .bind (.refl _) fun _ ↦ ?_
        exact (sameVerdict_foldedArgs hq s f.judge_ignoresPlace 0 args).bind fun _ ↦ .refl _
  | .newStruct name args => by
    rw [Expr.folded, Expr.typeIn, Expr.typeIn, foldedArgs_length, hq.struct?]
    cases p.struct? name.text with
    | none => exact .refl _
    | some d =>
      refine .bind (.refl _) fun _ ↦ ?_
      exact (sameVerdict_foldedArgs hq s d.judge_ignoresPlace 0 args).bind fun _ ↦ .refl _
  | .newArray elem size => by
    rw [Expr.folded, Expr.typeIn, Expr.typeIn, hq.checkType]
    refine .bind (.refl _) fun _ ↦ (size.sameVerdict_folded hq s).bind fun _ ↦ ?_
    exact (SameVerdict.require ..).bind fun _ ↦ .refl _
  | .not pos operand => Expr.sameVerdict_foldedNot pos (operand.sameVerdict_folded hq s)
  | .binary op pos lhs rhs =>
    Expr.sameVerdict_foldedBinary op pos (lhs.sameVerdict_folded hq s)
      (rhs.sameVerdict_folded hq s)

theorem Path.sameVerdict_folded (hq : p.SameDeclarations q) (s : Scopes) : (path : Path) →
    SameVerdict (path.folded.typeIn q s) (path.typeIn p s)
  | .root name index => by
    rw [Path.folded, Path.typeIn, Path.typeIn]
    cases s.lookup name.text with
    | none => exact .refl _
    | some t => exact sameVerdict_foldedIndex hq s name t index
  | .field base name index => by
    rw [Path.folded, Path.typeIn, Path.typeIn]
    refine (base.sameVerdict_folded hq s).bind fun t ↦ ?_
    rw [hq.fieldType]
    exact .bind (.refl _) fun t' ↦ sameVerdict_foldedIndex hq s name t' index

theorem sameVerdict_foldedIndex (hq : p.SameDeclarations q) (s : Scopes) (name : Name) (t : Ty) :
    (index : Option Expr) →
    SameVerdict (indexedType q s name t (foldedIndex index)) (indexedType p s name t index)
  | none => .ok t
  | some index => by
    match t with
    | .null | .one _ => exact .refl _
    | .array elem =>
      refine (index.sameVerdict_folded hq s).bind fun _ ↦ ?_
      exact (SameVerdict.require ..).bind fun _ ↦ .refl _

theorem sameVerdict_foldedArgs (hq : p.SameDeclarations q) (s : Scopes) {judge : Judge}
    (hjudge : judge.IgnoresPlace) (i : Nat) : (args : List Expr) →
    SameVerdict (argTypes q s judge i (foldedArgs args)) (argTypes p s judge i args)
  | [] => .ok []
  | arg :: args => by
    rw [foldedArgs, argTypes, argTypes]
    refine (arg.sameVerdict_folded hq s).bind fun t ↦ (hjudge i _ _ t).bind fun _ ↦ ?_
    exact (sameVerdict_foldedArgs hq s hjudge (i + 1) args).bind fun _ ↦ .refl _

end

end

/-! ## Statements and definitions -/

section
variable {p q : Program} (hq : p.SameDeclarations q)
include hq

theorem sameVerdict_foldedCondition (s : Scopes) (cond : Expr) :
    SameVerdict (checkCondition q s cond.folded) (checkCondition p s cond) :=
  (cond.sameVerdict_folded hq s).bind fun _ ↦ .require ..

theorem sameVerdict_foldedBound (s : Scopes) (bound : LoopBound) (e : Expr) :
    SameVerdict (checkBound q s bound e.folded) (checkBound p s bound e) :=
  (e.sameVerdict_folded hq s).bind fun _ ↦ .require ..

theorem sameVerdict_foldedInit (s : Scopes) (name : Name) (type : Option TypeRef)
    (init : Option Expr) :
    SameVerdict (varType q s name type (init.map Expr.folded)) (varType p s name type init) := by
  match type, init with
  | none, none => exact .refl _
  | some type, none =>
    rw [Option.map_none, varType, varType, hq.checkType]
    exact .refl _
  | none, some init => exact (init.sameVerdict_folded hq s).bind fun _ ↦ .refl _
  | some type, some init =>
    rw [Option.map_some, varType, varType, hq.checkType]
    refine .bind (.refl _) fun _ ↦ (init.sameVerdict_folded hq s).bind fun _ ↦ ?_
    exact (SameVerdict.require ..).bind fun _ ↦ .refl _

end

section
variable {p q : Program}

mutual

theorem Stmt.sameVerdict_folded (hq : p.SameDeclarations q) (result : TypeRef) (s : Scopes) :
    (stmt : Stmt) → SameVerdict (stmt.folded.check q result s) (stmt.check p result s)
  | .var name type init =>
    .bind (.refl _) fun _ ↦ (sameVerdict_foldedInit hq s name type init).bind fun _ ↦ .refl _
  | .assign target value =>
    (target.sameVerdict_folded hq s).bind fun _ ↦ (value.sameVerdict_folded hq s).bind fun _ ↦
      (SameVerdict.require ..).bind fun _ ↦ .refl _
  | .ret _ value => (value.sameVerdict_folded hq s).bind fun _ ↦ .refl _
  | .whileLoop cond body =>
    (sameVerdict_foldedCondition hq s cond).bind fun _ ↦
      (sameVerdict_foldedBlock hq result s.push body).bind fun _ ↦ .refl _
  | .forLoop var first last body =>
    (sameVerdict_foldedBound hq s.push .first first).bind fun _ ↦
      (sameVerdict_foldedBound hq (s.push.declare var.text .int) .last last).bind fun _ ↦
        (sameVerdict_foldedBlock hq result _ body).bind fun _ ↦ .refl _
  | .ifElse cond body other =>
    (sameVerdict_foldedCondition hq s cond).bind fun _ ↦
      (sameVerdict_foldedBlock hq result s.push body).bind fun s' ↦
        other.sameVerdict_folded hq result s'.pop
  | .call callee args => ((Expr.call callee args).sameVerdict_folded hq s).bind fun _ ↦ .refl _

theorem Else.sameVerdict_folded (hq : p.SameDeclarations q) (result : TypeRef) (s : Scopes) :
    (other : Else) → SameVerdict (other.folded.check q result s) (other.check p result s)
  | .none => .ok s
  | .block body => (sameVerdict_foldedBlock hq result s.push body).bind fun _ ↦ .refl _
  | .elseIf cond body other =>
    (sameVerdict_foldedCondition hq s cond).bind fun _ ↦
      (sameVerdict_foldedBlock hq result s.push body).bind fun s' ↦
        other.sameVerdict_folded hq result s'.pop

theorem sameVerdict_foldedBlock (hq : p.SameDeclarations q) (result : TypeRef) (s : Scopes) :
    (stmts : List Stmt) →
    SameVerdict (checkBlock q result s (foldedBlock stmts)) (checkBlock p result s stmts)
  | [] => .ok s
  | stmt :: stmts =>
    (stmt.sameVerdict_folded hq result s).bind fun s' ↦ sameVerdict_foldedBlock hq result s' stmts

end

end

section
variable {p q : Program} (hq : p.SameDeclarations q)
include hq

theorem Program.SameDeclarations.checkFields_eq (seen : List String) (vs : List VarDef) :
    checkFields q seen vs = checkFields p seen vs := by
  induction vs generalizing seen with
  | nil => rfl
  | cons v vs ih => simp only [checkFields, hq.checkType, ih]

theorem Program.SameDeclarations.checkParams_eq (s : Scopes) (vs : List VarDef) :
    checkParams q s vs = checkParams p s vs := by
  induction vs generalizing s with
  | nil => rfl
  | cons v vs ih => simp only [checkParams, hq.checkType, ih]

theorem FunDef.sameVerdict_folded (f : FunDef) :
    SameVerdict (f.folded.check q) (f.check p) := by
  have hbody : SameVerdict
      (do
        f.checkMain
        let s ← checkParams q Scopes.empty.push f.params
        let _ ← checkBlock q f.returnType s (foldedBlock f.body))
      (do
        f.checkMain
        let s ← checkParams p Scopes.empty.push f.params
        let _ ← checkBlock p f.returnType s f.body) := by
    rw [hq.checkParams_eq]
    exact .bind (.refl _) fun _ ↦ .bind (.refl _) fun s ↦
      (sameVerdict_foldedBlock hq f.returnType s f.body).bind fun _ ↦ .refl _
  rw [FunDef.check, FunDef.check]
  by_cases hvoid : f.returnType.name ≠ .void
  · rw [if_pos hvoid, if_pos (show f.folded.returnType.name ≠ .void from hvoid), hq.checkType]
    exact .bind (.refl _) fun _ ↦ hbody
  · rw [if_neg hvoid, if_neg (show ¬ f.folded.returnType.name ≠ .void from hvoid)]
    exact hbody

end

/-! ## Programs -/

theorem checkFunctionNames_folded (seen : List String) (fs : List FunDef) :
    checkFunctionNames seen (fs.map FunDef.folded) = checkFunctionNames seen fs := by
  induction fs generalizing seen with
  | nil => rfl
  | cons f fs ih =>
    rw [List.map_cons, checkFunctionNames, checkFunctionNames, ← ih]
    rfl

theorem Program.sameVerdict_folded (p : Program) : SameVerdict p.folded.check p.check := by
  have hq := p.sameDeclarations_folded
  have hfields : (fun d : StructDef ↦ checkFields p.folded [] d.fields) =
      fun d ↦ checkFields p [] d.fields := by
    funext d
    exact hq.checkFields_eq [] d.fields
  have hmain : (p.folded.function? "main").isNone = (p.function? "main").isNone := by
    rw [Program.function?_folded, Option.isNone_map]
  rw [Program.check, Program.check, hfields, hmain]
  refine .bind (.refl _) fun _ ↦ .bind ?_ fun _ ↦ ?_
  · rw [← checkFunctionNames_folded [] p.functions]
    exact .refl _
  · have hbodies : SameVerdict (p.folded.functions.forM fun f ↦ f.check p.folded)
        (p.functions.forM fun f ↦ f.check p) :=
      .forM FunDef.folded fun f _ ↦ f.sameVerdict_folded hq
    by_cases hnone : (p.function? "main").isNone
    · rw [if_pos hnone, if_pos hnone]
      exact .error none none .noMain
    · rw [if_neg hnone, if_neg hnone]
      exact .bind (.refl _) fun _ ↦ hbodies

/-- A folded program passes the check. -/
theorem Program.Checked.folded {p : Program} (hp : p.Checked) : p.folded.Checked where
  structNames := hp.structNames
  fieldNames := hp.fieldNames
  functionNames := by
    rw [Program.folded, List.map_map]
    exact hp.functionNames
  notBuiltin f hf := by
    obtain ⟨g, hg, rfl⟩ := List.mem_map.mp hf
    exact hp.notBuiltin g hg
  main := by
    obtain ⟨f, hf⟩ := hp.main
    exact ⟨f.folded, by rw [Program.function?_folded, hf]; rfl⟩
  functions f hf := by
    obtain ⟨g, hg, rfl⟩ := List.mem_map.mp hf
    exact ((g.sameVerdict_folded p.sameDeclarations_folded).eq_ok_iff ()).mpr (hp.functions g hg)

/-- **Folding and checking agree.** A folded program is accepted if and only if the program is, and
if both are rejected, then for the same reason. In any program and any scopes, a folded expression
has a type if and only if the expression has it, and otherwise the same is wrong with both. -/
theorem Program.check_folded_iff (p : Program) :
    (p.folded.check = .ok () ↔ p.check = .ok ()) ∧
    (∀ e e', p.folded.check = .error e' → p.check = .error e → e'.fault = e.fault) ∧
    ∀ (s : Scopes) (expr : Expr),
      (∀ t, expr.folded.typeIn p s = .ok t ↔ expr.typeIn p s = .ok t) ∧
      ∀ e e', expr.folded.typeIn p s = .error e' → expr.typeIn p s = .error e →
        e'.fault = e.fault := by
  have hprogram := p.sameVerdict_folded
  refine ⟨hprogram.eq_ok_iff (), fun e e' h' h ↦ hprogram.fault_eq h' h, fun s expr ↦ ?_⟩
  have hexpr := expr.sameVerdict_folded (.refl p) s
  exact ⟨hexpr.eq_ok_iff, fun e e' h' h ↦ hexpr.fault_eq h' h⟩

end Pebble
