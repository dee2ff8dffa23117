import Pebble.Proofs.StmtRuns

/-!
# Variables that statements leave alone

Statements change the variables that they assign, and no others: `Stmt.assigns` says which names a
statement assigns, and a variable of another name has the same value afterwards.

Names alone do not tell variables apart, though. A statement may declare a variable of its own with
the name of one outside, and what it then assigns is its own. So a variable is told by its slot, and
`Env.Hidden` says that another one of its name has been declared after it. The two cases are carried
through statements side by side (`Env.Spares`).
-/

namespace Pebble

/-! ## The names that are assigned -/

/-- A statement that declares a variable of this name in the scope it stands in. -/
def Stmt.declares (x : String) : Stmt → Bool
  | .var name _ _ => name.text == x
  | _ => false

mutual

/-- Whether a statement assigns a variable of this name that it has not declared itself. -/
def Stmt.assigns (x : String) : Stmt → Bool
  | .var _ _ _ | .ret _ _ | .call _ _ => false
  | .assign (.root name none) _ => name.text == x
  | .assign _ _ => false
  | .whileLoop _ body => blockAssigns x body
  | .forLoop var _ _ body => var.text != x && blockAssigns x body
  | .ifElse _ body other => blockAssigns x body || other.assigns x

def Else.assigns (x : String) : Else → Bool
  | .none => false
  | .block body => blockAssigns x body
  | .elseIf _ body other => blockAssigns x body || other.assigns x

/-- Behind a declaration of the name, the statements of a block assign the new variable. -/
def blockAssigns (x : String) : List Stmt → Bool
  | [] => false
  | stmt :: stmts => stmt.assigns x || (!stmt.declares x && blockAssigns x stmts)

end

/-! ## Slots -/

/-- Names in front of others have later slots. -/
theorem SlotTable.slotIn?_of_append {x : String} {k : Nat} {new names : List String}
    (h : slotIn? x (new ++ names) = some k) (hk : k < names.length) :
    slotIn? x names = some k := by
  induction new with
  | nil => exact h
  | cons y new ih =>
    rw [List.cons_append, slotIn?] at h
    by_cases hy : y = x
    · rw [if_pos hy, Option.some.injEq, List.length_append] at h
      omega
    · rw [if_neg hy] at h
      exact ih h

namespace Env

section
variable {env env' env'' : Env} {x y : String} {v : Value} {k : Nat} {b b' : Bool}

/-- The variable in slot `k` is not the innermost one of the name `x`. -/
def Hidden (x : String) (k : Nat) (env : Env) : Prop :=
  SlotTable.slotIn? x (env.flatten.map Prod.fst) ≠ some k

/-- From `env` to `env'` variables may have been declared in the innermost scope, and the one in
slot `k` has kept its name and its value. -/
structure Keeps (k : Nat) (env env' : Env) : Prop where
  outer : env'.names.tail = env.names.tail
  grows : ∃ new, env'.flatten.map Prod.fst = new ++ env.flatten.map Prod.fst
  slot : env'.flatten.reverse[k]? = env.flatten.reverse[k]?

theorem Keeps.refl (k : Nat) (env : Env) : Keeps k env env := ⟨rfl, ⟨[], rfl⟩, rfl⟩

theorem Keeps.trans (h : Keeps k env env') (h' : Keeps k env' env'') : Keeps k env env'' := by
  obtain ⟨new, hnew⟩ := h.grows
  obtain ⟨new', hnew'⟩ := h'.grows
  refine ⟨h'.outer.trans h.outer, ⟨new' ++ new, ?_⟩, h'.slot.trans h.slot⟩
  rw [hnew', hnew, List.append_assoc]

/-- Slot `k` is that of a variable `x`, and assignments to this name, if there are any, do not
reach it. -/
structure Spares (x : String) (k : Nat) (b : Bool) (env : Env) : Prop where
  named : ∃ v, env.flatten.reverse[k]? = some (x, v)
  hidden : b = true → env.Hidden x k

theorem Spares.lt_length (h : env.Spares x k b) : k < env.flatten.length := by
  obtain ⟨v, hv⟩ := h.named
  obtain ⟨hlt, -⟩ := List.getElem?_eq_some_iff.mp hv
  rwa [List.length_reverse] at hlt

theorem Spares.mono (h : env.Spares x k b) (hb : b' = true → b = true) : env.Spares x k b' :=
  ⟨h.named, fun hb' ↦ h.hidden (hb hb')⟩

theorem Spares.enter (h : env.Spares x k b) : env.enter.Spares x k b := ⟨h.named, h.hidden⟩

/-- A hidden variable stays hidden. -/
theorem Hidden.of_keeps (h : env.Hidden y k) (hk : k < env.flatten.length)
    (hkeeps : Keeps k env env') : env'.Hidden y k := by
  obtain ⟨new, hnew⟩ := hkeeps.grows
  intro hslot
  rw [hnew] at hslot
  exact h (SlotTable.slotIn?_of_append hslot (by rwa [List.length_map]))

theorem Spares.of_keeps (h : env.Spares x k b) (hkeeps : Keeps k env env') :
    env'.Spares x k b := by
  obtain ⟨v, hv⟩ := h.named
  exact ⟨⟨v, hkeeps.slot.trans hv⟩, fun hb ↦ (h.hidden hb).of_keeps h.lt_length hkeeps⟩

/-- A variable of another name is not the one in slot `k`. -/
theorem Spares.hidden_of_ne (h : env.Spares x k b) (hy : y ≠ x) : env.Hidden y k := by
  obtain ⟨v, hv⟩ := h.named
  intro hslot
  obtain ⟨u, -, hu⟩ := SlotTable.slotIn?_eq_some hslot
  rw [hv, Option.some.injEq, Prod.mk.injEq] at hu
  exact hy hu.1.symm

/-! ### Changing variables -/

theorem keeps_declare (x : String) (v : Value) (hk : k < env.flatten.length) :
    Keeps k env (env.declare x v) := by
  refine ⟨names_tail_declare x v env, ⟨[x], by rw [flatten_declare]; rfl⟩, ?_⟩
  rw [flatten_declare, List.reverse_cons, List.getElem?_append_left (by rwa [List.length_reverse])]

/-- A new variable hides those of its name. -/
theorem hidden_declare (x : String) (v : Value) (hk : k < env.flatten.length) :
    (env.declare x v).Hidden x k := by
  rw [Hidden, flatten_declare, List.map_cons, SlotTable.slotIn?, if_pos rfl, List.length_map,
    ne_eq, Option.some.injEq]
  omega

/-- Setting a variable changes its slot only. -/
theorem setIn?_reverse {bs bs' : List (String × Value)} (hset : setIn? x v bs = some bs')
    (h : SlotTable.slotIn? x (bs.map Prod.fst) ≠ some k) : bs'.reverse[k]? = bs.reverse[k]? := by
  induction bs generalizing bs' with
  | nil => cases hset
  | cons b bs ih =>
    obtain ⟨y, u⟩ := b
    rw [List.map_cons, SlotTable.slotIn?] at h
    rw [setIn?] at hset
    by_cases hy : y = x
    · rw [if_pos hy, List.length_map, ne_eq, Option.some.injEq] at h
      rw [if_pos hy, Option.some.injEq] at hset
      rw [← hset, List.reverse_cons, List.reverse_cons, List.getElem?_append, List.getElem?_append,
        List.length_reverse]
      split
      · rfl
      · rw [List.getElem?_eq_none, List.getElem?_eq_none] <;> rw [List.length_singleton] <;> omega
    · rw [if_neg hy] at h
      rw [if_neg hy, Option.map_eq_some_iff] at hset
      obtain ⟨bs₁, hset, rfl⟩ := hset
      have hlen : bs₁.length = bs.length := by
        rw [← List.length_map Prod.fst, setIn?_names hset, List.length_map]
      rw [List.reverse_cons, List.reverse_cons, List.getElem?_append, List.getElem?_append,
        List.length_reverse, List.length_reverse, hlen, ih hset h]

/-- Setting a variable leaves those alone that it hides. -/
theorem keeps_set (v : Value) (h : env.Hidden x k) : Keeps k env (env.set x v) := by
  have hnames : (env.set x v).flatten.map Prod.fst = env.flatten.map Prod.fst := by
    rw [← flatten_names, names_set, flatten_names]
  refine ⟨by rw [names_set], ⟨[], hnames⟩, ?_⟩
  rw [flatten_set]
  cases hset : setIn? x v env.flatten with
  | none => rfl
  | some bs => exact setIn?_reverse hset h

theorem Keeps.names_leave (h : Keeps k env.enter env') : env'.leave.names = env.names := by
  rw [Env.names_leave, h.outer]
  rfl

/-- A scope of its own gives back the variables around it. -/
theorem Keeps.leave (h : Keeps k env.enter env') (hk : k < env.flatten.length) :
    Keeps k env env'.leave := by
  have hnames := h.names_leave
  have hflat : env'.leave.flatten.map Prod.fst = env.flatten.map Prod.fst := by
    rw [← flatten_names, hnames, flatten_names]
  refine ⟨by rw [hnames], ⟨[], hflat⟩, ?_⟩
  -- The variables that are left come first in order of declaration.
  have hslot : env'.flatten.reverse[k]? = env.flatten.reverse[k]? := h.slot
  rw [← hslot]
  cases env' with
  | nil => rfl
  | cons scope outer =>
    have hlen : env.flatten.length = outer.flatten.length := by
      rw [← List.length_map Prod.fst, ← hflat, List.length_map]
      rfl
    rw [List.flatten_cons, List.reverse_append, List.getElem?_append_left]
    · rfl
    · rw [List.length_reverse, ← hlen]
      exact hk

end

end Env

/-! ## Statements -/

section
variable {p : Program} {call : String → List Value → Eval Value} {fuel k : Nat} {x : String}
  {b : Bool} {env env' : Env} {w w' : World}

open Env

/-- What goes on after statements has been led to by them. -/
theorem andThen_eq_next {e : Eval Flow} {f : Env → Eval Flow}
    (h : (e >>= fun flow ↦ flow.andThen f).run w = some (.ok (.next env') w')) :
    ∃ env₁ w₁, e.run w = some (.ok (.next env₁) w₁) ∧
      (f env₁).run w₁ = some (.ok (.next env') w') := by
  obtain ⟨flow, w₁, hflow, h⟩ := Eval.bind_eq_ok h
  cases flow with
  | next env₁ => exact ⟨env₁, w₁, hflow, h⟩
  | returned v => cases h

theorem keeps_of_inScope {f : Env → Eval Flow} (henv : env.Spares x k b)
    (hf : ∀ {env env' : Env} {w w' : World}, env.Spares x k b →
      (f env).run w = some (.ok (.next env') w') → Keeps k env env')
    (h : (inScope f env).run w = some (.ok (.next env') w')) : Keeps k env env' := by
  obtain ⟨env₁, w₁, hrun, h⟩ := andThen_eq_next h
  cases h
  exact (hf henv.enter hrun).leave henv.lt_length

/-- A loop keeps what its rounds keep. The induction is on the bound on its rounds. -/
theorem keeps_of_repeatWhile {P : Env → Prop} {test : Env → Eval Bool} {body : Env → Eval Flow}
    (hstable : ∀ env env', P env → Keeps k env env' → P env')
    (hbody : ∀ env env' w w', P env → (body env).run w = some (.ok (.next env') w') →
      Keeps k env env')
    (henv : P env) (h : (repeatWhile test body fuel env).run w = some (.ok (.next env') w')) :
    Keeps k env env' := by
  induction fuel generalizing env w with
  | zero => cases h
  | succ fuel ih =>
    rw [repeatWhile] at h
    obtain ⟨holds, w₁, -, h⟩ := Eval.bind_eq_ok h
    cases holds with
    | false =>
      cases h
      exact .refl k _
    | true =>
      obtain ⟨env₁, w₂, hround, h⟩ := andThen_eq_next h
      have hkeeps := hbody env env₁ w₁ w₂ henv hround
      exact hkeeps.trans (ih (hstable env env₁ henv hkeeps) h)

theorem keeps_of_countUp {y : String} (hy : env.Hidden y k)
    (h : (countUp y env).run w = some (.ok (.next env') w')) : Keeps k env env' := by
  rw [countUp] at h
  obtain ⟨v, w₁, -, h⟩ := Eval.bind_eq_ok h
  cases h
  exact keeps_set v hy

theorem keeps_of_assign {target : Path} {value : Expr}
    (henv : env.Spares x k ((Stmt.assign target value).assigns x))
    (h : (evalAssign p call env value target).run w = some (.ok env' w')) : Keeps k env env' := by
  match target with
  | .root name none =>
    rw [evalAssign] at h
    obtain ⟨v, w₁, -, h⟩ := Eval.bind_eq_ok h
    cases h
    refine keeps_set v ?_
    by_cases hname : name.text = x
    · rw [hname]
      exact henv.hidden (by rw [Stmt.assigns, hname, beq_self_eq_true])
    · exact henv.hidden_of_ne hname
  -- An assignment to an item or a field changes an object and no variable.
  | .root name (some index) =>
    rw [evalAssign] at h
    obtain ⟨_, _, -, h⟩ := Eval.bind_eq_ok h
    obtain ⟨_, _, -, h⟩ := Eval.bind_eq_ok h
    obtain ⟨_, _, -, h⟩ := Eval.bind_eq_ok h
    cases h
    exact .refl k env
  | .field base name none =>
    rw [evalAssign] at h
    obtain ⟨_, _, -, h⟩ := Eval.bind_eq_ok h
    obtain ⟨_, _, -, h⟩ := Eval.bind_eq_ok h
    obtain ⟨_, _, -, h⟩ := Eval.bind_eq_ok h
    cases h
    exact .refl k env
  | .field base name (some index) =>
    rw [evalAssign] at h
    obtain ⟨_, _, -, h⟩ := Eval.bind_eq_ok h
    obtain ⟨_, _, -, h⟩ := Eval.bind_eq_ok h
    obtain ⟨_, _, -, h⟩ := Eval.bind_eq_ok h
    obtain ⟨_, _, -, h⟩ := Eval.bind_eq_ok h
    obtain ⟨_, _, -, h⟩ := Eval.bind_eq_ok h
    cases h
    exact .refl k env

theorem Stmt.hidden_of_declares (stmt : Stmt) (hdeclares : stmt.declares x = true)
    (hk : k < env.flatten.length)
    (h : (stmt.exec p call fuel env).run w = some (.ok (.next env') w')) : env'.Hidden x k := by
  cases stmt with
  | var name type init =>
    rw [Stmt.exec] at h
    obtain ⟨v, w₁, -, h⟩ := Eval.bind_eq_ok h
    cases h
    rw [← eq_of_beq hdeclares]
    exact hidden_declare name.text v hk
  | assign | ret | whileLoop | forLoop | ifElse | call => cases hdeclares

mutual

/-- A statement leaves the variables alone that it does not assign. -/
theorem Stmt.keeps {env env' : Env} {w w' : World} : (stmt : Stmt) →
    env.Spares x k (stmt.assigns x) →
    (stmt.exec p call fuel env).run w = some (.ok (.next env') w') → Keeps k env env'
  | .var name type init, henv, h => by
    rw [Stmt.exec] at h
    obtain ⟨v, w₁, -, h⟩ := Eval.bind_eq_ok h
    cases h
    exact keeps_declare name.text v henv.lt_length
  | .assign target value, henv, h => by
    rw [Stmt.exec] at h
    obtain ⟨env₁, w₁, hassign, h⟩ := Eval.bind_eq_ok h
    cases h
    exact keeps_of_assign henv hassign
  | .ret pos value, henv, h => by
    rw [Stmt.exec] at h
    obtain ⟨v, w₁, -, h⟩ := Eval.bind_eq_ok h
    cases h
  | .whileLoop cond body, henv, h => by
    rw [Stmt.exec] at h
    rw [Stmt.assigns] at henv
    refine keeps_of_repeatWhile (fun _ _ ↦ Spares.of_keeps) ?_ henv h
    intro env env' w w' henv hrun
    exact keeps_of_inScope henv (blockKeeps body) hrun
  | .forLoop var first last body, henv, h => by
    rw [Stmt.exec] at h
    obtain ⟨v, w₁, -, h⟩ := Eval.bind_eq_ok h
    obtain ⟨env₁, w₂, hloop, h⟩ := andThen_eq_next h
    cases h
    -- The loop has a variable of its own, which is the innermost one of its name in every round.
    have hlt := henv.enter.lt_length
    have hdeclare := keeps_declare var.text v hlt
    have hvar : (env.enter.declare var.text v).Hidden var.text k := hidden_declare var.text v hlt
    have hspares : (env.enter.declare var.text v).Spares x k (blockAssigns x body) := by
      refine ⟨(henv.enter.of_keeps hdeclare).named, fun hbody ↦ ?_⟩
      by_cases hname : var.text = x
      · exact hname ▸ hvar
      · refine (henv.enter.hidden ?_).of_keeps hlt hdeclare
        rw [Stmt.assigns, hbody, Bool.and_true, bne_iff_ne]
        exact hname
    refine (hdeclare.trans ?_).leave henv.lt_length
    refine keeps_of_repeatWhile
      (P := fun env ↦ env.Spares x k (blockAssigns x body) ∧ env.Hidden var.text k) ?_ ?_
      ⟨hspares, hvar⟩ hloop
    · rintro env env' ⟨henv, hvar⟩ hkeeps
      exact ⟨henv.of_keeps hkeeps, hvar.of_keeps henv.lt_length hkeeps⟩
    · rintro env env' w w' ⟨henv, hvar⟩ hround
      obtain ⟨env₂, w₃, hbody, hcount⟩ := andThen_eq_next hround
      have hkeeps := keeps_of_inScope henv (blockKeeps body) hbody
      exact hkeeps.trans (keeps_of_countUp (hvar.of_keeps henv.lt_length hkeeps) hcount)
  | .ifElse cond body other, henv, h => by
    rw [Stmt.exec] at h
    obtain ⟨holds, w₁, -, h⟩ := Eval.bind_eq_ok h
    rw [Stmt.assigns] at henv
    cases holds with
    | true =>
      rw [if_pos rfl] at h
      exact keeps_of_inScope (henv.mono Bool.or_inl) (blockKeeps body) h
    | false => exact other.keeps (henv.mono Bool.or_inr) h
  | .call callee args, henv, h => by
    rw [Stmt.exec] at h
    obtain ⟨v, w₁, -, h⟩ := Eval.bind_eq_ok h
    cases h
    exact .refl k env

theorem Else.keeps {env env' : Env} {w w' : World} : (other : Else) →
    env.Spares x k (other.assigns x) →
    (other.exec p call fuel env).run w = some (.ok (.next env') w') → Keeps k env env'
  | .none, henv, h => by
    cases h
    exact .refl k env
  | .block body, henv, h => by
    rw [Else.exec] at h
    rw [Else.assigns] at henv
    exact keeps_of_inScope henv (blockKeeps body) h
  | .elseIf cond body other, henv, h => by
    rw [Else.exec] at h
    obtain ⟨holds, w₁, -, h⟩ := Eval.bind_eq_ok h
    rw [Else.assigns] at henv
    cases holds with
    | true =>
      rw [if_pos rfl] at h
      exact keeps_of_inScope (henv.mono Bool.or_inl) (blockKeeps body) h
    | false => exact other.keeps (henv.mono Bool.or_inr) h

theorem blockKeeps {env env' : Env} {w w' : World} : (stmts : List Stmt) →
    env.Spares x k (blockAssigns x stmts) →
    (execBlock p call fuel env stmts).run w = some (.ok (.next env') w') → Keeps k env env'
  | [], henv, h => by
    cases h
    exact .refl k env
  | stmt :: stmts, henv, h => by
    rw [execBlock] at h
    obtain ⟨env₁, w₁, hfirst, hrest⟩ := andThen_eq_next h
    rw [blockAssigns] at henv
    have hkeeps := stmt.keeps (henv.mono Bool.or_inl) hfirst
    refine hkeeps.trans (blockKeeps stmts ⟨(henv.of_keeps hkeeps).named, fun hstmts ↦ ?_⟩ hrest)
    cases hdeclares : stmt.declares x with
    | true => exact stmt.hidden_of_declares hdeclares henv.lt_length hfirst
    | false =>
      refine (henv.hidden ?_).of_keeps henv.lt_length hkeeps
      rw [hdeclares, hstmts, Bool.not_false, Bool.and_true, Bool.or_true]

end

/-- The only variable of a scope has the slot behind those of the outer scopes. -/
theorem getElem?_only (x : String) (v : Value) (outer : Env) :
    (List.flatten ([(x, v)] :: outer)).reverse[outer.flatten.length]? = some (x, v) := by
  rw [List.flatten_cons, List.singleton_append, List.reverse_cons, ← List.length_reverse,
    List.getElem?_concat_length]

/-- **Loop variables.** A body that does not assign the variable of the loop around it leaves it as
it was, and declares nothing in the scope of the loop. -/
theorem loopVariable_keeps {body : List Stmt} {v : Value} {outer : Env}
    (hassigns : blockAssigns x body = false)
    (h : (inScope (execBlock p call fuel · body) ([(x, v)] :: outer)).run w =
      some (.ok (.next env') w')) :
    ∃ outer' : Env, env' = [(x, v)] :: outer' ∧ outer'.names = outer.names := by
  obtain ⟨env₁, w₁, hrun, h⟩ := andThen_eq_next h
  cases h
  have henv : Env.Spares x outer.flatten.length (blockAssigns x body) ([(x, v)] :: outer) :=
    ⟨⟨v, getElem?_only x v outer⟩, fun hbody ↦ by rw [hassigns] at hbody; cases hbody⟩
  have hkeeps := blockKeeps body henv.enter hrun
  have hslot := (hkeeps.leave henv.lt_length).slot.trans (getElem?_only x v outer)
  obtain ⟨scope, outer', hleave, hscope, houter⟩ := List.map_eq_cons_iff.mp hkeeps.names_leave
  obtain ⟨⟨y, u⟩, rest, rfl, hy, hrest⟩ := List.map_eq_cons_iff.mp hscope
  obtain rfl := List.map_eq_nil_iff.mp hrest
  have hlen : outer.flatten.length = outer'.flatten.length := by
    rw [← List.length_map Prod.fst, ← Env.flatten_names, ← List.length_map Prod.fst,
      ← Env.flatten_names]
    exact congrArg (fun names ↦ names.flatten.length) houter.symm
  rw [hleave, hlen, getElem?_only, Option.some.injEq, Prod.mk.injEq] at hslot
  obtain ⟨rfl, rfl⟩ := hslot
  exact ⟨outer', hleave, houter⟩

end

end Pebble
