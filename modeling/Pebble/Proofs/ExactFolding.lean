import Pebble.Proofs.ExprRuns
import Pebble.Proofs.FoldedCode

/-!
# Folding is running

An operation on two literals folds exactly when the code for it runs without a fault, with one
exception: comparing literals of two types for equality is left to the machine. Where it folds, the
folded literal is what the code leaves on the stack.

An operator answers or faults without looking at the world, so folding is compared with
`BinOp.apply` first (`foldBinary?_eq_none_iff`). The machine may be traced, and then a step has
written something before it executes its instruction; nothing else differs.
-/

namespace Pebble

/-! ## Operators that fault -/

section
variable {l r : Value}

theorem ArithOp.apply_of_kind_ne (o : ArithOp) (h : l.kind ≠ r.kind) :
    ∃ e, o.apply l r = .error e := by
  unfold ArithOp.apply
  split
  · exact ⟨_, rfl⟩
  · split
    iterate 3 exact absurd rfl h
    exact ⟨_, rfl⟩

theorem OrderOp.apply_of_kind_ne (o : OrderOp) (h : l.kind ≠ r.kind) :
    ∃ e, o.apply l r = .error e := by
  unfold OrderOp.apply
  split
  · exact ⟨_, rfl⟩
  · split
    iterate 6 exact absurd rfl h
    exact ⟨_, rfl⟩

theorem Act.logic_of_kind_ne (o : LogicOp) (h : l.kind ≠ r.kind) :
    ∃ e, Act.logic o l r = throw e := by
  cases r with
  | bool b =>
    cases l with
    | bool a => exact absurd rfl h
    | null | int | double | str | ref => exact ⟨_, rfl⟩
  | null | int | double | str | ref => exact ⟨_, rfl⟩

/-- Operands of two kinds can only be compared for equality. -/
theorem BinOp.apply_of_kind_ne {op : BinOp} (hop : op.isEquality = false) (h : l.kind ≠ r.kind) :
    ∃ e, op.apply l r = throw e := by
  have harith : ∀ o, ∃ e, Act.arith o l r = throw e := by
    intro o
    obtain ⟨e, he⟩ := o.apply_of_kind_ne h
    exact ⟨e, by rw [Act.arith, he]; rfl⟩
  have horder : ∀ (o : OrderOp) {l r : Value}, l.kind ≠ r.kind →
      ∃ e, (do return Value.bool (← Act.order o l r) : Act Value) = throw e := by
    intro o l r h
    obtain ⟨e, he⟩ := o.apply_of_kind_ne h
    exact ⟨e, by rw [Act.order, he]; rfl⟩
  cases op with
  | add => exact harith .add
  | sub => exact harith .sub
  | mul => exact harith .mul
  | div => exact harith .div
  | and => exact Act.logic_of_kind_ne .and h
  | or => exact Act.logic_of_kind_ne .or h
  | eq | ne => cases hop
  | lt => exact horder .lt h
  | le => exact horder .le h
  | gt => exact horder .lt (Ne.symm h)
  | ge => exact horder .le (Ne.symm h)

end

theorem Act.pure_ne_throw {α : Type} {a : α} {e : Fault} : (pure a : Act α) ≠ throw e := by
  intro h
  exact nomatch congrFun h ⟨.empty, [], ""⟩

/-! ## Operations that do not fold -/

section
variable {op : BinOp}

theorem foldInt?_eq_none {a b : Int32} (h : foldInt? op a b = none) :
    ∃ e, op.apply (.int a) (.int b) = throw e := by
  cases op with
  | add | sub | mul | eq | ne | lt | le | gt | ge => cases h
  | and | or => exact ⟨_, rfl⟩
  | div =>
    rw [foldInt?] at h
    split at h
    · next hb =>
      refine ⟨.divisionByZero, ?_⟩
      show Act.lift (if b = 0 then _ else _) = _
      rw [if_pos hb]
      rfl
    · cases h

theorem foldDouble?_eq_none {a b : Float} (h : foldDouble? op a b = none) :
    ∃ e, op.apply (.double a) (.double b) = throw e := by
  cases op with
  | add | sub | mul | eq | ne | lt | le | gt | ge => cases h
  | and | or => exact ⟨_, rfl⟩
  | div =>
    rw [foldDouble?] at h
    split at h
    · next hb =>
      refine ⟨.divisionByZero, ?_⟩
      show Act.lift (if b == 0 then _ else _) = _
      rw [if_pos hb]
      rfl
    · cases h

theorem foldBool?_eq_none {a b : Bool} (h : foldBool? op a b = none) :
    ∃ e, op.apply (.bool a) (.bool b) = throw e := by
  cases op with
  | and | or | eq | ne => cases h
  | add | sub | mul | div | lt | le | gt | ge => exact ⟨_, rfl⟩

theorem foldStr?_eq_none {a b : String} (h : foldStr? op a b = none) :
    ∃ e, op.apply (.str a) (.str b) = throw e := by
  cases op with
  | add | eq | ne | lt | le | gt | ge => cases h
  | sub | mul | div | and | or => exact ⟨_, rfl⟩

theorem foldBinary?_null_eq_none {l r : Literal} (hnull : l = .null ∨ r = .null)
    (h : foldBinary? op l r = none) : op.isEquality = false := by
  have hfold : ∃ same, foldBinary? op l r = foldBinary?.foldNull op same := by
    rcases hnull with rfl | rfl
    · exact ⟨_, rfl⟩
    · cases l <;> exact ⟨_, rfl⟩
  obtain ⟨same, hsame⟩ := hfold
  rw [hsame] at h
  cases op with
  | eq | ne => cases h
  | add | sub | mul | div | and | or | lt | le | gt | ge => rfl

theorem BinOp.apply_null_null (hop : op.isEquality = false) :
    ∃ e, op.apply .null .null = throw e := by
  cases op with
  | eq | ne => cases hop
  | add | sub | mul | div | and | or | lt | le | gt | ge => exact ⟨_, rfl⟩

theorem type_eq_of_kind_eq {l r : Literal}
    (h : (Value.ofLiteral l).kind = (Value.ofLiteral r).kind) : l.type = r.type := by
  cases l <;> cases r <;> first | rfl | cases h

theorem foldBinary?_of_type_ne {l r : Literal} (hl : l ≠ .null) (hr : r ≠ .null)
    (h : l.type ≠ r.type) : foldBinary? op l r = none := by
  cases l <;> cases r <;> first | rfl | exact absurd rfl h | exact absurd rfl hl | exact absurd rfl hr

/-- An operation does not fold exactly if it faults, or if it compares literals of two types. -/
theorem foldBinary?_eq_none_iff (op : BinOp) (l r : Literal) :
    foldBinary? op l r = none ↔
      (∃ e, op.apply (.ofLiteral l) (.ofLiteral r) = throw e) ∨
        op.isEquality = true ∧ l ≠ .null ∧ r ≠ .null ∧ l.type ≠ r.type := by
  constructor
  · intro h
    -- Literals of one type are left alone only to avoid a fault. With two types it depends on the
    -- operator, and a `null` on either side makes an equality fold.
    by_cases htype : l.type = r.type
    · refine .inl ?_
      cases l with
      | int a =>
        cases r <;> cases htype
        exact foldInt?_eq_none (Option.or_eq_none_iff.mp h).2
      | double a =>
        cases r <;> cases htype
        exact foldDouble?_eq_none h
      | bool a =>
        cases r <;> cases htype
        exact foldBool?_eq_none h
      | str a =>
        cases r <;> cases htype
        exact foldStr?_eq_none h
      | null =>
        cases r <;> cases htype
        exact BinOp.apply_null_null (foldBinary?_null_eq_none (.inl rfl) h)
    · cases hop : op.isEquality with
      | false => exact .inl (BinOp.apply_of_kind_ne hop fun hkind ↦ htype (type_eq_of_kind_eq hkind))
      | true =>
        have hnull : ¬ (l = .null ∨ r = .null) := fun hnull ↦
          Bool.noConfusion (hop.symm.trans (foldBinary?_null_eq_none hnull h))
        exact .inr ⟨rfl, fun hl ↦ hnull (.inl hl), fun hr ↦ hnull (.inr hr), htype⟩
  · rintro (⟨e, he⟩ | ⟨-, hl, hr, htype⟩)
    · cases hfold : foldBinary? op l r with
      | none => rfl
      | some v => exact absurd ((foldBinary?_apply hfold).symm.trans he) Act.pure_ne_throw
    · exact foldBinary?_of_type_ne hl hr htype

end

/-! ## Shifts -/

section
variable {a b : Int32} {k : Nat}

theorem powerOfTwo?_ofNat : ∀ k < 31, powerOfTwo? (Int32.ofNat (2 ^ k)) = some k := by
  decide

/-- Every positive power of two is found to be one. -/
theorem powerOfTwo?_of_toInt (h : b.toInt = 2 ^ k) : powerOfTwo? b = some k := by
  have hlt : (2 ^ k : Nat) < 2 ^ 31 := by
    have hlt := b.toInt_lt
    rw [h] at hlt
    exact_mod_cast hlt
  obtain rfl : b = Int32.ofNat (2 ^ k) := by
    rw [← Int32.toInt_inj, Int32.toInt_ofNat_of_lt hlt, h]
    push_cast
    rfl
  exact powerOfTwo?_ofNat k ((Nat.pow_lt_pow_iff_right (by decide)).mp hlt)

theorem mul_eq_ofInt (a b : Int32) : a * b = Int32.ofInt (a.toInt * b.toInt) := by
  rw [Int32.ofInt_mul, Int32.ofInt_toInt, Int32.ofInt_toInt]

theorem div_eq_ofInt (a b : Int32) : a / b = Int32.ofInt (a.toInt.tdiv b.toInt) := by
  rw [Int32.ofInt_tdiv a.minValue_le_toInt a.toInt_le b.minValue_le_toInt b.toInt_le,
    Int32.ofInt_toInt, Int32.ofInt_toInt]

theorem foldShift?_mul (h : b.toInt = 2 ^ k) :
    foldShift? .mul a b = some (.int (Int32.ofInt (a.toInt * 2 ^ k))) := by
  have hb := powerOfTwo?_of_toInt h
  unfold foldShift?
  rw [hb, ← h, ← mul_eq_ofInt]
  simp only
  rw [shiftLeft_eq_mul hb]

theorem foldShift?_div (h : b.toInt = 2 ^ k) (ha : 0 ≤ a) :
    foldShift? .div a b = some (.int (Int32.ofInt (a.toInt.tdiv (2 ^ k)))) := by
  have hb := powerOfTwo?_of_toInt h
  unfold foldShift?
  rw [hb, ← h, ← div_eq_ofInt]
  simp only
  rw [if_pos ha, shiftRight_eq_div hb ha]

/-- A negative dividend is not shifted, since shifting would round down. -/
theorem foldShift?_div_of_neg (ha : ¬ 0 ≤ a) : foldShift? .div a b = none := by
  unfold foldShift?
  cases powerOfTwo? b with
  | none => rfl
  | some k => exact if_neg ha

theorem foldBinary?_mul_of_powerOfTwo (h : b.toInt = 2 ^ k) :
    foldBinary? .mul (.int a) (.int b) = some (.int (Int32.ofInt (a.toInt * 2 ^ k))) := by
  rw [foldBinary?, foldShift?_mul h]
  rfl

theorem foldBinary?_div_of_powerOfTwo (h : b.toInt = 2 ^ k) :
    foldBinary? .div (.int a) (.int b) = some (.int (Int32.ofInt (a.toInt.tdiv (2 ^ k)))) := by
  rw [foldBinary?]
  by_cases ha : 0 ≤ a
  · rw [foldShift?_div h ha]
    rfl
  · have hb : b ≠ 0 := ne_zero_of_powerOfTwo? (powerOfTwo?_of_toInt h)
    rw [foldShift?_div_of_neg ha, ← h, ← div_eq_ofInt]
    exact if_neg hb

end

/-! ## Running an operation -/

theorem Machine.exhausted?_eq_none {m : Machine} {n : Nat}
    (h : ∀ limit ∈ m.limits.steps, m.steps + n ≤ limit) (hn : 0 < n) : m.exhausted? = none := by
  rw [Machine.exhausted?, Option.filter_eq_none_iff]
  intro limit hlimit
  have hle := h limit hlimit
  simp only [decide_eq_true_eq]
  omega

section
variable {m : Machine} {fr : Frame} {frs : List Frame} {i : Instr} {args us : List Value}
  (hm : m.frames = fr :: frs) (hi : fr.template.instrs[fr.pc]? = some i)
  (hargs : m.operands = args ++ us) (hex : m.exhausted? = none)
include hm hi hex

/-- A step on a machine that has steps left. -/
theorem Machine.step_eq_of_left :
    ∃ out, (m.tracing = false → out = m.output) ∧ m.step =
      match i.op.exec (m.put (past fr :: frs) m.operands { m.world with output := out }
        (m.steps + 1)) with
      | .error e m' => (.failed ⟨e, some (siteOf fr i)⟩, m')
      | .ok _ m' =>
        if m'.limits.operands < m'.operands.length then
          (.failed ⟨.stackOverflow m'.limits.operands, some (siteOf fr i)⟩, m')
        else (.running, m') := by
  obtain ⟨out, hout, hbegun⟩ := begun_eq hm (siteOf fr i)
  have hsite : m.site? = some (siteOf fr i) := by
    rw [← m.put_self_of_frames hm]
    exact site?_put hi
  refine ⟨out, hout, ?_⟩
  rw [step_of_site hsite, hex, hbegun]
  rfl

include hargs

/-- A step that executes an operation which does not fault. -/
theorem Op.Does.step_pure {left : List Value} (hop : i.op.Does m.limits args (pure left))
    (hcount : (left ++ us).length ≤ m.limits.operands) :
    ∃ out, (m.tracing = false → out = m.output) ∧
      m.step = (.running, m.put (Machine.past fr :: frs) (left ++ us)
        { m.world with output := out } (m.steps + 1)) := by
  obtain ⟨out, hout, hstep⟩ := Machine.step_eq_of_left hm hi hex
  have hexec := hop.exec (Machine.past fr :: frs) us { m.world with output := out } (m.steps + 1)
  rw [hargs, show i.op.exec _ = _ from hexec] at hstep
  exact ⟨out, hout, hstep.trans (if_neg (Nat.not_lt.mpr hcount))⟩

/-- A step that executes an operation which faults. -/
theorem Op.Does.step_throw {e : Fault} (hop : i.op.Does m.limits args (throw e)) :
    ∃ m', m.step = (.failed ⟨e, some (Machine.siteOf fr i)⟩, m') := by
  obtain ⟨out, -, hstep⟩ := Machine.step_eq_of_left hm hi hex
  obtain ⟨left, -, hexec⟩ :=
    hop.exec (Machine.past fr :: frs) us { m.world with output := out } (m.steps + 1)
  rw [hargs, hexec] at hstep
  exact ⟨_, hstep⟩

end

/-- Code that does nothing but push the values given. -/
def pushCode (vs : List Value) : List Instr := vs.map fun v ↦ .plain (.push v)

theorem length_pushCode (vs : List Value) : (pushCode vs).length = vs.length := List.length_map _

/-- The code for an operation on two values, which are pushed in the order of evaluation. -/
def operationCode (op : BinOp) (l r : Value) : List Instr :=
  pushCode (if op.isSwapped then [r, l] else [l, r]) ++ [.plain op.code]

theorem length_operationCode (op : BinOp) (l r : Value) : (operationCode op l r).length = 3 := by
  rw [operationCode, List.length_append, length_pushCode]
  split <;> rfl

theorem Expr.code_literals {op : BinOp} {l r : Literal} {pos posₗ posᵣ : Pos} {p : Program}
    {t : SlotTable} : (Expr.binary op pos (.lit l posₗ) (.lit r posᵣ)).code p t =
      .ok (operationCode op (.ofLiteral l) (.ofLiteral r)) := by
  refine Expr.code_binary.mpr ⟨_, _, rfl, rfl, ?_⟩
  rw [operationCode]
  split <;> rfl

section
variable {m : Machine} {fr : Frame} {frs : List Frame}

/-- Running code that pushes values leaves them on the stack, the last one on top. -/
theorem Machine.runFor_pushCode {vs : List Value} (hm : m.frames = fr :: frs)
    (hcode : fr.Faces (pushCode vs)) (hsteps : ∀ limit ∈ m.limits.steps, m.steps + vs.length ≤ limit)
    (hcount : m.operands.length + vs.length ≤ m.limits.operands) :
    ∃ out, (m.tracing = false → out = m.output) ∧
      m.runFor vs.length = (.running, m.put (fr.skip vs.length :: frs) (vs.reverse ++ m.operands)
        { m.world with output := out } (m.steps + vs.length)) := by
  -- Each push uses up one of the steps and one of the operands that the rest may still take.
  induction vs generalizing m fr with
  | nil => exact ⟨m.output, fun _ ↦ rfl, congrArg _ (m.put_self_of_frames hm).symm⟩
  | cons v vs ih =>
    rw [List.length_cons] at hsteps hcount ⊢
    have hroom : ([v] ++ m.operands).length ≤ m.limits.operands := by
      rw [List.length_append, List.length_singleton]
      omega
    have hargs : m.operands = [] ++ m.operands := rfl
    obtain ⟨out, hout, hstep⟩ := Op.Does.step_pure hm hcode.head hargs
      (m.exhausted?_eq_none hsteps (Nat.succ_pos _)) (.push v) hroom
    have hsteps' : ∀ limit ∈ m.limits.steps, m.steps + 1 + vs.length ≤ limit := by
      intro limit hlimit
      have hle := hsteps limit hlimit
      omega
    have hcount' : (v :: m.operands).length + vs.length ≤ m.limits.operands := by
      rw [List.length_cons]
      omega
    obtain ⟨out', hout', hrun⟩ := ih (m := m.put (fr.skip 1 :: frs) (v :: m.operands)
      { m.world with output := out } (m.steps + 1)) rfl hcode.tail hsteps' hcount'
    refine ⟨out', fun htr ↦ (hout' htr).trans (hout htr), ?_⟩
    rw [Machine.runFor_succ_of_running hstep, List.reverse_cons, List.append_assoc,
      Nat.add_comm vs.length, ← Nat.add_assoc, ← Frame.skip_skip]
    exact hrun

/-- The code of an operation pushes its operands and then does what the operator says. -/
theorem Machine.runFor_operation {op : BinOp} {l r : Value} (hm : m.frames = fr :: frs)
    (hcode : fr.Faces (operationCode op l r))
    (hsteps : ∀ limit ∈ m.limits.steps, m.steps + 3 ≤ limit)
    (hcount : m.operands.length + 2 ≤ m.limits.operands) :
    (∀ v, op.apply l r = pure v → ∃ out, (m.tracing = false → out = m.output) ∧
      m.runFor 3 = (.running, m.put (fr.skip 3 :: frs) (v :: m.operands)
        { m.world with output := out } (m.steps + 3))) ∧
    (∀ e, op.apply l r = throw e → ∃ report, (m.runFor 3).1 = .failed report) := by
  obtain ⟨hpush, hop⟩ := Frame.faces_append.mp hcode
  have hlen : (if op.isSwapped then [r, l] else [l, r]).length = 2 := by split <;> rfl
  rw [length_pushCode, hlen] at hop
  obtain ⟨out, hout, hrun⟩ := m.runFor_pushCode hm hpush (fun limit hlimit ↦ by
    have hle := hsteps limit hlimit
    omega) (by rwa [hlen])
  have hargs : (if op.isSwapped then [r, l] else [l, r]).reverse =
      if op.isSwapped then [l, r] else [r, l] := by split <;> rfl
  rw [hlen, hargs] at hrun
  -- The operands now lie as the operation wants them, whichever was pushed first.
  have hdoes := op.does m.limits l r
  generalize (if op.isSwapped then [l, r] else [r, l]) = args at hrun hdoes
  rw [Machine.runFor_add_of_running hrun 1, Machine.runFor_one]
  have hex : (m.put (fr.skip 2 :: frs) (args ++ m.operands) { m.world with output := out }
      (m.steps + 2)).exhausted? = none := Machine.exhausted?_eq_none (n := 1) hsteps Nat.one_pos
  constructor
  · intro v hv
    rw [hv, pure_bind] at hdoes
    have hroom : m.operands.length + 1 ≤ m.limits.operands := by omega
    obtain ⟨out', hout', hstep⟩ := Op.Does.step_pure rfl hop.head rfl hex hdoes hroom
    exact ⟨out', fun htr ↦ (hout' htr).trans (hout htr), hstep⟩
  · intro e he
    rw [he] at hdoes
    obtain ⟨m', hstep⟩ := Op.Does.step_throw rfl hop.head rfl hex hdoes
    exact ⟨_, congrArg Prod.fst hstep⟩

end

/-- Folding is running: an operation on two literals folds to a literal whose value its code pushes,
and it does not fold exactly if its code fails or compares literals of two types for equality. Where
it shifts, it multiplies and divides as words do. -/
theorem foldBinary?_exactly_runs :
    (∀ (op : BinOp) (l r : Literal) (pos posₗ posᵣ : Pos) (p : Program) (t : SlotTable),
      ∃ code, (Expr.binary op pos (.lit l posₗ) (.lit r posᵣ)).code p t = .ok code ∧
        ∀ (m : Machine) (fr : Frame) (frs : List Frame), m.frames = fr :: frs → fr.Faces code →
          (∀ limit ∈ m.limits.steps, m.steps + code.length ≤ limit) →
          m.operands.length + 2 ≤ m.limits.operands →
            (∀ v, foldBinary? op l r = some v → ∃ out, (m.tracing = false → out = m.output) ∧
              m.runFor code.length =
                (.running, m.put (fr.skip code.length :: frs) (.ofLiteral v :: m.operands)
                  { m.world with output := out } (m.steps + code.length))) ∧
            (foldBinary? op l r = none ↔
              (∃ report, (m.runFor code.length).1 = .failed report) ∨
                op.isEquality = true ∧ l ≠ .null ∧ r ≠ .null ∧ l.type ≠ r.type)) ∧
    ∀ (a b : Int32) (k : Nat), b.toInt = 2 ^ k →
      foldShift? .mul a b = some (.int (Int32.ofInt (a.toInt * 2 ^ k))) ∧
      (0 ≤ a → foldShift? .div a b = some (.int (Int32.ofInt (a.toInt.tdiv (2 ^ k))))) ∧
      foldBinary? .mul (.int a) (.int b) = some (.int (Int32.ofInt (a.toInt * 2 ^ k))) ∧
      foldBinary? .div (.int a) (.int b) = some (.int (Int32.ofInt (a.toInt.tdiv (2 ^ k)))) := by
  constructor
  · intro op l r pos posₗ posᵣ p t
    refine ⟨operationCode op (.ofLiteral l) (.ofLiteral r), Expr.code_literals, ?_⟩
    intro m fr frs hm hcode hsteps hcount
    rw [length_operationCode] at hsteps ⊢
    obtain ⟨hpure, hthrow⟩ := m.runFor_operation hm hcode hsteps hcount
    constructor
    · intro v hv
      exact hpure _ (foldBinary?_apply hv)
    · have hnone := foldBinary?_eq_none_iff op l r
      rw [hnone]
      -- A run that fails has no literal to answer to, so the operation does not fold.
      refine or_congr_left' fun hne ↦ ⟨fun ⟨e, he⟩ ↦ hthrow e he, fun ⟨report, hfails⟩ ↦ ?_⟩
      cases hfold : foldBinary? op l r with
      | none => exact (hnone.mp hfold).resolve_right hne
      | some v =>
        obtain ⟨out, -, hrun⟩ := hpure _ (foldBinary?_apply hfold)
        rw [hrun] at hfails
        cases hfails
  · intro a b k h
    exact ⟨foldShift?_mul h, fun ha ↦ foldShift?_div h ha, foldBinary?_mul_of_powerOfTwo h,
      foldBinary?_div_of_powerOfTwo h⟩

/-- The least word divided by minus one is itself again, on a traced machine too; by zero it is not
divided. Halving minus seven rounds towards zero. -/
theorem foldBinary?_exactly_runs_least_word :
    (∃ (m m' : Machine) (code : List Instr), m.tracing = true ∧
      (Expr.binary .div ⟨1, 3⟩ (.lit (.int Int32.minValue) ⟨1, 1⟩) (.lit (.int (-1)) ⟨1, 5⟩)).code
        ⟨[], []⟩ .empty = .ok code ∧
      m.runFor code.length = (.running, m') ∧ m'.operands = [.int Int32.minValue]) ∧
    (∃ (m : Machine) (code : List Instr) (report : FaultReport),
      (Expr.binary .div ⟨1, 3⟩ (.lit (.int Int32.minValue) ⟨1, 1⟩) (.lit (.int 0) ⟨1, 5⟩)).code
        ⟨[], []⟩ .empty = .ok code ∧
      (m.runFor code.length).1 = .failed report) ∧
    foldBinary? .div (.int (-7)) (.int 2) = some (.int (-3)) := by
  refine ⟨?_, ?_, (foldBinary?_exactly_runs.2 (-7) 2 1 (by decide)).2.2.2⟩
  · obtain ⟨code, hcode, hrun⟩ := foldBinary?_exactly_runs.1 .div (.int Int32.minValue) (.int (-1))
      ⟨1, 3⟩ ⟨1, 1⟩ ⟨1, 5⟩ ⟨[], []⟩ .empty
    let m : Machine := { Machine.fresh .standard [] with
      frames := [.enter ⟨"main", code.toArray⟩], tracing := true }
    have hlen : 2 ≤ Limits.standard.operands := by decide
    obtain ⟨out, -, hrun⟩ := (hrun m _ [] rfl (standsAt_self code) (by rintro _ ⟨⟩) hlen).1
      (.int Int32.minValue) (by decide)
    exact ⟨m, _, code, rfl, hcode, hrun, rfl⟩
  · obtain ⟨code, hcode, hrun⟩ := foldBinary?_exactly_runs.1 .div (.int Int32.minValue) (.int 0)
      ⟨1, 3⟩ ⟨1, 1⟩ ⟨1, 5⟩ ⟨[], []⟩ .empty
    let m : Machine := { Machine.fresh .standard [] with
      frames := [.enter ⟨"main", code.toArray⟩] }
    have hlen : 2 ≤ Limits.standard.operands := by decide
    obtain ⟨report, hfails⟩ | ⟨hop, -⟩ :=
      (hrun m _ [] rfl (standsAt_self code) (by rintro _ ⟨⟩) hlen).2.mp (by decide)
    · exact ⟨m, code, report, hcode, hfails⟩
    · cases hop

end Pebble
