import Pebble.Proofs.ParsedDerivations

/-!
# Precedence climbing

An expression is read as one chain per precedence, each of whose operands is a chain of the next
higher one. It can also be read by a single loop that takes every operator of a least precedence.
Behind an operator the loop is entered again for those that bind tighter (`Parser.climb`), and when
it ends there, the outer loop goes on.

Both read the same (`Parser.climb_zero`), if the primary expressions do not give tokens back.

## The argument

Behind its first operand, the loop for a least precedence reads what the loop for the next higher
one reads, and then a chain of operators of just that precedence (`Parser.operations_from`). The
chain can go on behind a right operand, because the loop that has read the operand has left no
tighter operator there.
-/

namespace Pebble.Parser

/-- The next token as an operator of precedence `least` or a higher one. -/
def opFrom? (least : Nat) (t : Option Token) : Option BinOp :=
  (t.bind binOp?).filter (least ≤ ·.precedence)

theorem opFrom?_eq_some {least : Nat} {t : Option Token} {op : BinOp} :
    opFrom? least t = some op ↔ t = some op.token ∧ least ≤ op.precedence := by
  rw [opFrom?, Option.filter_eq_some_iff, Option.bind_eq_some_iff, decide_eq_true_iff]
  simp [binOp?_eq_some]

/-- An operator of a least precedence has a higher one, or just that. -/
theorem opFrom?_eq_or (least : Nat) (t : Option Token) :
    opFrom? least t = (opFrom? (least + 1) t).or (opAt? least t) := by
  rw [opFrom?, opFrom?, opAt?]
  cases t.bind binOp? with
  | none => rfl
  | some op =>
    simp only [Option.filter_some, decide_eq_true_eq, beq_iff_eq]
    rcases Nat.lt_trichotomy op.precedence least with hlt | heq | hgt
    · rw [if_neg (by omega), if_neg (by omega), if_neg (by omega)]
      rfl
    · rw [if_pos (by omega), if_neg (by omega), if_pos heq]
      rfl
    · rw [if_pos (by omega), if_pos (by omega)]
      rfl

/-- Operands joined by operators of precedence `least` or higher ones, from the left. The right
operand of an operator is read by the same loop, for operators that bind tighter. -/
def climb (primary : Parser Expr) (least : Nat) : Parser Expr := do
  let first ← primary
  loop (fun _ t ↦ (opFrom? least t).isSome)
    (fun lhs ↦ do
      let t ← peek
      match hop : opFrom? least t with
      | none => return lhs
      | some op =>
        let pos ← here
        advance
        return .binary op pos lhs (← climb primary (op.precedence + 1)))
    first
termination_by BinOp.maxPrecedence + 1 - least
decreasing_by
  have hleast := (opFrom?_eq_some.mp hop).2
  have hmax := op.precedence_le
  omega

/-! ## Loops -/

section
variable {σ : Type} {more : σ → Option Token → Bool} {step : σ → Parser σ}
  (hstep : ∀ s c, more s c.token? = true → Consumes c (step s) fun _ ls ↦ ls ≠ [])
include hstep

/-- More rounds than there are tokens make no difference. -/
theorem run_loopFor_eq {rounds rounds' : Nat} {s : σ} {c : Cursor} (h : c.rest.length < rounds)
    (h' : c.rest.length < rounds') :
    (loopFor more step rounds s).run c = (loopFor more step rounds' s).run c := by
  induction rounds generalizing rounds' s c with
  | zero => exact absurd h (Nat.not_lt_zero _)
  | succ rounds ih =>
    obtain ⟨rounds', rfl⟩ : ∃ k, rounds' = k + 1 := ⟨rounds' - 1, by omega⟩
    show (if more s c.token? then step s >>= loopFor more step rounds else pure s).run c =
      (if more s c.token? then step s >>= loopFor more step rounds' else pure s).run c
    split
    · next hmore =>
      rw [StateT.run_bind, StateT.run_bind]
      refine bind_congr_of_ok fun r hrun ↦ ?_
      have hlt := (hstep s c hmore).length_lt hrun
      exact ih (by omega) (by omega)
    · rfl

/-- A loop is its first round and the loop. -/
theorem run_loop (s : σ) (c : Cursor) :
    (loop more step s).run c =
      (if more s c.token? then step s >>= loop more step else pure s).run c := by
  show (if more s c.token? then step s >>= loopFor more step c.rest.length else pure s).run c = _
  split
  · next hmore =>
    rw [StateT.run_bind, StateT.run_bind]
    refine bind_congr_of_ok fun r hrun ↦ ?_
    have hlt := (hstep s c hmore).length_lt hrun
    exact run_loopFor_eq hstep hlt (Nat.lt_succ_self _)
  · rfl

end

/-! ## Operators behind an operand -/

/-- One operator and its right operand. -/
def operation (op? : Option Token → Option BinOp) (operand : BinOp → Parser Expr) (lhs : Expr) :
    Parser Expr := do
  match op? (← peek) with
  | none => return lhs
  | some op =>
    let pos ← here
    advance
    return .binary op pos lhs (← operand op)

/-- Operators and their right operands, for as long as there are any. -/
def operations (op? : Option Token → Option BinOp) (operand : BinOp → Parser Expr) :
    Expr → Parser Expr :=
  loop (fun _ t ↦ (op? t).isSome) (operation op? operand)

theorem chain_eq (p : Nat) (operand : Parser Expr) :
    chain p operand = operand >>= operations (opAt? p) fun _ ↦ operand :=
  rfl

theorem climb_eq (primary : Parser Expr) (least : Nat) :
    climb primary least =
      primary >>= operations (opFrom? least) fun op ↦ climb primary (op.precedence + 1) := by
  rw [climb]
  refine bind_congr fun first ↦ congrArg (loop _ · first) (funext fun lhs ↦ bind_congr fun t ↦ ?_)
  split
  · next hop => rw [hop]
  · next op hop => rw [hop]

section
variable {op? : Option Token → Option BinOp} {operand : BinOp → Parser Expr}

/-- What is found is the operator that comes next, and its right operand gives no tokens back. -/
def Joins (op? : Option Token → Option BinOp) (operand : BinOp → Parser Expr) : Prop :=
  ∀ t op, op? t = some op → t = some op.token ∧ ∀ c, Consumes c (operand op) fun _ _ ↦ True

variable (hjoins : Joins op? operand)
include hjoins

theorem consumes_operation {lhs : Expr} {c : Cursor} (h : (op? c.token?).isSome = true) :
    Consumes c (operation op? operand lhs) fun _ ls ↦ ls ≠ [] := by
  obtain ⟨op, hop⟩ := Option.isSome_iff_exists.mp h
  obtain ⟨ht, hoperand⟩ := hjoins _ op hop
  have hne : op.token ≠ .eof := by cases op <;> exact Token.noConfusion
  refine .peek ?_
  rw [hop]
  refine .here (.advance ht hne fun c' ↦ (hoperand c').bind fun _ _ _ _ ↦ ?_)
  exact .pure (List.cons_ne_nil _ _)

/-- An operator is read before its right operand. -/
theorem Joins.length_lt {op : BinOp} {rhs : Expr} {c c' : Cursor} (h : op? c.token? = some op)
    (hrun : (operand op).run c.next = .ok (rhs, c')) : c'.rest.length < c.rest.length := by
  obtain ⟨ht, hoperand⟩ := hjoins _ op h
  obtain ⟨rest, hrest⟩ := Cursor.exists_rest_eq ht
  have hnext : c.next.rest = rest := by rw [Cursor.next, hrest]
  obtain ⟨ls, hls, -⟩ := hoperand c.next rhs c' hrun
  rw [hrest, ← hnext, hls, List.length_cons, List.length_append]
  omega

theorem consumes_operations (lhs : Expr) (c : Cursor) :
    Consumes c (operations op? operand lhs) fun _ _ ↦ True :=
  .loop (fun _ _ ↦ True) []
    (fun _ _ _ _ hmore ↦ (consumes_operation hjoins hmore).mono fun _ _ _ ↦ trivial) trivial

theorem run_operations_of_none {lhs : Expr} {c : Cursor} (h : op? c.token? = none) :
    (operations op? operand lhs).run c = .ok (lhs, c) := by
  rw [operations, run_loop fun _ _ ↦ consumes_operation hjoins, h]
  rfl

theorem run_operations_of_some {lhs : Expr} {c : Cursor} {op : BinOp} (h : op? c.token? = some op) :
    (operations op? operand lhs).run c =
      (operand op).run c.next >>= fun (rhs, c') ↦
        (operations op? operand (.binary op c.pos lhs rhs)).run c' := by
  have hstep : (operation op? operand lhs).run c =
      (operand op).run c.next >>= fun (rhs, c') ↦ .ok (.binary op c.pos lhs rhs, c') := by
    show (match op? c.token? with
      | none => pure lhs
      | some op => _ : Parser Expr).run c = _
    rw [h]
    rfl
  rw [operations, run_loop fun _ _ ↦ consumes_operation hjoins, h, Option.isSome_some, if_pos rfl,
    StateT.run_bind, hstep]
  cases (operand op).run c.next <;> rfl

end

theorem joins_opAt? {p : Nat} {operand : Parser Expr}
    (h : ∀ c, Consumes c operand fun _ _ ↦ True) : Joins (opAt? p) fun _ ↦ operand :=
  fun _ _ hop ↦ ⟨(opAt?_eq_some.mp hop).1, h⟩

/-! ## The loop and the chains -/

section
variable {primary : Parser Expr} (hprimary : ∀ c, Consumes c primary fun _ _ ↦ True)
include hprimary

theorem consumes_climb (least : Nat) (c : Cursor) :
    Consumes c (climb primary least) fun _ _ ↦ True := by
  induction least using climb.induct generalizing c with
  | case1 least ih =>
    rw [climb_eq]
    refine (hprimary c).bind fun first _ c' _ ↦ consumes_operations ?_ first c'
    exact fun t op hop ↦ ⟨(opFrom?_eq_some.mp hop).1, ih t op hop⟩

theorem joins_opFrom? (least : Nat) :
    Joins (opFrom? least) fun op ↦ climb primary (op.precedence + 1) :=
  fun _ _ hop ↦ ⟨(opFrom?_eq_some.mp hop).1, consumes_climb hprimary _⟩

/-- Where the loop has stopped, no operator follows that it would have taken. -/
theorem climb_stops {least : Nat} {e : Expr} {c c' : Cursor}
    (h : (climb primary least).run c = .ok (e, c')) : opFrom? least c'.token? = none := by
  rw [climb_eq, StateT.run_bind] at h
  obtain ⟨⟨first, c₁⟩, -, h⟩ := bind_eq_ok.mp h
  have hstops := loop_stops (fun _ _ ↦ consumes_operation (joins_opFrom? hprimary least)) h
  exact Option.not_isSome_iff_eq_none.mp (Bool.not_eq_true _ ▸ hstops)

/-- Operators of a least precedence are tighter ones, and then a chain of just that precedence whose
operands hold the tighter ones. -/
theorem operations_from (least : Nat) (lhs : Expr) (c : Cursor) :
    (operations (opFrom? least) (fun op ↦ climb primary (op.precedence + 1)) lhs).run c =
      (operations (opFrom? (least + 1)) (fun op ↦ climb primary (op.precedence + 1)) lhs >>=
        operations (opAt? least) fun _ ↦ climb primary (least + 1)).run c := by
  have hfrom := joins_opFrom? hprimary least
  have htighter := joins_opFrom? hprimary (least + 1)
  have hat : Joins (opAt? least) _ := joins_opAt? (consumes_climb hprimary (least + 1))
  -- By induction on the tokens that are left, as each operator takes one.
  induction hlength : c.rest.length using Nat.strongRecOn generalizing lhs c with
  | ind n ih =>
    subst hlength
    have hor := opFrom?_eq_or least c.token?
    rw [StateT.run_bind]
    cases htight : opFrom? (least + 1) c.token? with
    | some op =>
      rw [htight, Option.some_or] at hor
      rw [run_operations_of_some hfrom hor, run_operations_of_some htighter htight, bind_assoc]
      refine bind_congr_of_ok fun r hrhs ↦ ?_
      exact (ih _ (hfrom.length_lt hor hrhs) _ r.2 rfl).trans (StateT.run_bind ..)
    | none =>
      rw [htight, Option.none_or] at hor
      rw [run_operations_of_none htighter htight]
      show _ = (operations (opAt? least) (fun _ ↦ climb primary (least + 1)) lhs).run c
      cases hop : opAt? least c.token? with
      | none => rw [run_operations_of_none hfrom (hor.trans hop), run_operations_of_none hat hop]
      | some op =>
        obtain ⟨-, rfl⟩ := opAt?_eq_some.mp hop
        rw [run_operations_of_some hfrom (hor.trans hop), run_operations_of_some hat hop]
        refine bind_congr_of_ok fun r hrhs ↦ ?_
        -- The right operand has been read by a loop that takes every tighter operator.
        have hstops := climb_stops hprimary hrhs
        have hrest := ih _ (hat.length_lt hop hrhs) (.binary op c.pos lhs r.1) r.2 rfl
        rw [StateT.run_bind, run_operations_of_none htighter hstops] at hrest
        exact hrest

theorem climb_eq_chain (least : Nat) :
    climb primary least = chain least (climb primary (least + 1)) := by
  calc climb primary least
      = primary >>= operations (opFrom? least) fun op ↦ climb primary (op.precedence + 1) :=
        climb_eq primary least
    _ = primary >>= fun first ↦
          operations (opFrom? (least + 1)) (fun op ↦ climb primary (op.precedence + 1)) first >>=
            operations (opAt? least) fun _ ↦ climb primary (least + 1) :=
        bind_congr fun first ↦ funext fun c ↦ operations_from hprimary least first c
    _ = climb primary (least + 1) >>=
          operations (opAt? least) fun _ ↦ climb primary (least + 1) := by
        rw [← bind_assoc, ← climb_eq]
    _ = chain least (climb primary (least + 1)) := (chain_eq ..).symm

/-- As many chains as there are precedences in between. -/
theorem climb_eq_foldr (least n : Nat) :
    climb primary least = (List.range' least n).foldr chain (climb primary (least + n)) := by
  induction n generalizing least with
  | zero => rfl
  | succ n ih =>
    rw [List.range'_succ, List.foldr_cons, climb_eq_chain hprimary, ih (least + 1),
      Nat.add_right_comm, Nat.add_assoc]

/-- No operator binds tighter than the tightest. -/
theorem climb_of_lt {least : Nat} (h : BinOp.maxPrecedence < least) :
    climb primary least = primary := by
  have hnone : ∀ t, opFrom? least t = none := by
    intro t
    rw [Option.eq_none_iff_forall_ne_some]
    intro op hop
    have hle := (opFrom?_eq_some.mp hop).2
    have hmax := op.precedence_le
    omega
  rw [climb_eq]
  refine (bind_congr fun first ↦ funext fun c ↦ ?_).trans (bind_pure primary)
  exact run_operations_of_none (joins_opFrom? hprimary least) (hnone _)

/-- **Precedence climbing.** A single loop over the operators, which is entered again behind each of
them for those that bind tighter, reads what one chain per precedence reads. -/
theorem climb_zero : climb primary 0 = expression primary := by
  rw [expression, List.range_eq_range', climb_eq_foldr hprimary 0 (BinOp.maxPrecedence + 1),
    climb_of_lt hprimary (by omega)]

end

/-- Primary expressions do not give tokens back. -/
theorem primaryWithin_consumes (levels : Nat) (c : Cursor) :
    Consumes c (primaryWithin levels) fun _ _ ↦ True :=
  (consumes_primaryWithin levels c).mono fun _ _ _ ↦ trivial

/-- The expressions of a program are read by climbing. -/
theorem exprWithin_eq_climb (levels : Nat) :
    exprWithin levels = climb (primaryWithin levels) 0 :=
  (climb_zero (primaryWithin_consumes levels)).symm

end Pebble.Parser
