import Pebble.Proofs.ExprTypes
import Pebble.Proofs.Layout

/-!
# The code of statements and functions is typed

The code of a function contains jumps, so it has to be seen as a whole: `Op.Leads` says that
wherever an instruction can go on, the spot there asks for no more than what is known. For the
code of a function that has been checked this holds at every instruction (`FunDef.leads`).

Leaving a scope forgets variables and nothing else. It needs no instruction, so it is part of the
comparison of spots, `Spot.Covers`.

## Fragments

The code of a statement is a fragment of the code of its function. What is needed to see that it
is typed is the spots of the fragment itself, in their place among the spots of the function, and
that the spot behind the fragment can be entered.
-/

namespace Pebble

/-! ## The scopes after a statement -/

/-- `s'` is `s` with one more scope open, in which variables may have been declared. -/
def Scopes.Inside (s s' : Scopes) : Prop := ∃ scope, s'.stack = scope :: s.stack

namespace Scopes

variable {s s' : Scopes}

theorem inside_push (s : Scopes) : Inside s s.push := ⟨[], rfl⟩

theorem Inside.declare (h : Inside s s') (x : String) (t : Ty) : Inside s (s'.declare x t) := by
  obtain ⟨scope, hs⟩ := h
  exact ⟨(x, t) :: scope, by rw [Scopes.declare, hs]⟩

theorem Inside.pop_eq (h : Inside s s') : s'.pop = s := by
  obtain ⟨scope, hs⟩ := h
  rw [pop, hs]
  rfl

theorem push_ne_nil (s : Scopes) : s.push.stack ≠ [] := List.cons_ne_nil _ _

theorem ofStack_push (s : Scopes) : (SlotTable.ofStack s.stack).push = .ofStack s.push.stack :=
  SlotTable.push_ofStack s.stack

theorem declare_eq {x : String} {t : Ty} (h : s.stack ≠ []) :
    ∃ scope outer, s.stack = scope :: outer ∧ s.declare x t = ⟨((x, t) :: scope) :: outer⟩ := by
  obtain ⟨_ | ⟨scope, outer⟩⟩ := s
  · exact absurd rfl h
  · exact ⟨scope, outer, rfl, rfl⟩

theorem bindings_declare {x : String} {t : Ty} (h : s.stack ≠ []) :
    (s.declare x t).bindings = (x, t) :: s.bindings := by
  obtain ⟨scope, outer, hs, hd⟩ := declare_eq (x := x) (t := t) h
  rw [hd, bindings, bindings, hs]
  rfl

theorem suffix_declare (s : Scopes) (x : String) (t : Ty) :
    s.bindings <:+ (s.declare x t).bindings := by
  obtain ⟨stack⟩ := s
  cases stack with
  | nil => exact List.suffix_refl _
  | cons scope outer => exact List.suffix_cons _ _

theorem declare_ne_nil {x : String} {t : Ty} (h : s.stack ≠ []) :
    (s.declare x t).stack ≠ [] := by
  obtain ⟨scope, outer, -, hd⟩ := declare_eq (x := x) (t := t) h
  rw [hd]
  exact List.cons_ne_nil _ _

theorem ofStack_declare {x : String} {t : Ty} (h : s.stack ≠ []) :
    (SlotTable.ofStack s.stack).declare x = .ofStack (s.declare x t).stack := by
  obtain ⟨scope, outer, hs, hd⟩ := declare_eq (x := x) (t := t) h
  rw [hd, hs]
  exact SlotTable.declare_ofStack scope outer x t

end Scopes

section
variable {p : Program} {result : TypeRef}

theorem Scopes.Inside.scopesAfterAll {s s' : Scopes} (h : Inside s s') (stmts : List Stmt) :
    Inside s (scopesAfterAll p s' stmts) := by
  induction stmts generalizing s' with
  | nil => exact h
  | cons stmt stmts ih =>
    refine ih ?_
    cases stmt with
    | var name type init => exact h.declare name.text _
    | assign | ret | whileLoop | forLoop | ifElse | call => exact h

theorem suffix_scopesAfterAll (s : Scopes) (stmts : List Stmt) :
    s.bindings <:+ (scopesAfterAll p s stmts).bindings := by
  induction stmts generalizing s with
  | nil => exact List.suffix_refl _
  | cons stmt stmts ih =>
    refine List.IsSuffix.trans ?_ (ih _)
    cases stmt with
    | var name type init => exact s.suffix_declare name.text _
    | assign | ret | whileLoop | forLoop | ifElse | call => exact List.suffix_refl _

theorem Stmt.scopesAfter_ne_nil {s : Scopes} (h : s.stack ≠ []) (stmt : Stmt) :
    (stmt.scopesAfter p s).stack ≠ [] := by
  cases stmt with
  | var name type init => exact Scopes.declare_ne_nil h
  | assign | ret | whileLoop | forLoop | ifElse | call => exact h

theorem Stmt.ofStack_scopesAfter {s : Scopes} (h : s.stack ≠ []) (stmt : Stmt) :
    stmt.slotsAfter (.ofStack s.stack) = .ofStack (stmt.scopesAfter p s).stack := by
  cases stmt with
  | var name type init => exact Scopes.ofStack_declare h
  | assign | ret | whileLoop | forLoop | ifElse | call => rfl

mutual

/-- The scopes that the check of a statement answers. -/
theorem Stmt.check_scopes {s s' : Scopes} :
    (stmt : Stmt) → stmt.check p result s = .ok s' → s' = stmt.scopesAfter p s
  | .var name type init, h => by
    simp only [Stmt.check, bind_eq_ok, pure_eq_ok, require_eq_ok] at h
    obtain ⟨-, -, t, ht, rfl⟩ := h
    rw [Stmt.scopesAfter, ht, okOr_ok]
  | .assign target value, h => by
    simp only [Stmt.check, bind_eq_ok, pure_eq_ok] at h
    obtain ⟨_, -, _, -, _, -, rfl⟩ := h
    rfl
  | .ret pos value, h => by
    simp only [Stmt.check, bind_eq_ok, pure_eq_ok] at h
    obtain ⟨_, -, _, -, rfl⟩ := h
    rfl
  | .whileLoop cond body, h => by
    simp only [Stmt.check, bind_eq_ok, pure_eq_ok] at h
    obtain ⟨_, -, s₁, hs₁, rfl⟩ := h
    rw [checkBlock_scopes body hs₁]
    exact ((Scopes.inside_push s).scopesAfterAll body).pop_eq
  | .forLoop var first last body, h => by
    simp only [Stmt.check, bind_eq_ok, pure_eq_ok] at h
    obtain ⟨_, -, _, -, s₁, hs₁, rfl⟩ := h
    rw [checkBlock_scopes body hs₁]
    exact (((Scopes.inside_push s).declare var.text .int).scopesAfterAll body).pop_eq
  | .ifElse cond body other, h => by
    simp only [Stmt.check, bind_eq_ok] at h
    obtain ⟨_, -, s₁, hs₁, hother⟩ := h
    rw [other.check_scopes hother, checkBlock_scopes body hs₁]
    exact ((Scopes.inside_push s).scopesAfterAll body).pop_eq
  | .call callee args, h => by
    simp only [Stmt.check, bind_eq_ok, pure_eq_ok] at h
    obtain ⟨_, -, rfl⟩ := h
    rfl

theorem Else.check_scopes {s s' : Scopes} :
    (other : Else) → other.check p result s = .ok s' → s' = s
  | .none, h => by
    cases h
    rfl
  | .block body, h => by
    simp only [Else.check, bind_eq_ok, pure_eq_ok] at h
    obtain ⟨s₁, hs₁, rfl⟩ := h
    rw [checkBlock_scopes body hs₁]
    exact ((Scopes.inside_push s).scopesAfterAll body).pop_eq
  | .elseIf cond body other, h => by
    simp only [Else.check, bind_eq_ok] at h
    obtain ⟨_, -, s₁, hs₁, hother⟩ := h
    rw [other.check_scopes hother, checkBlock_scopes body hs₁]
    exact ((Scopes.inside_push s).scopesAfterAll body).pop_eq

theorem checkBlock_scopes {s s' : Scopes} :
    (stmts : List Stmt) → checkBlock p result s stmts = .ok s' → s' = scopesAfterAll p s stmts
  | [], h => by
    cases h
    rfl
  | stmt :: stmts, h => by
    simp only [checkBlock, bind_eq_ok] at h
    obtain ⟨s₁, hs₁, hrest⟩ := h
    rw [checkBlock_scopes stmts hrest, stmt.check_scopes hs₁]
    rfl

end

end

/-! ## Where instructions lead -/

/-- What is known at the first spot is enough for the second: the same operands are pending, and
the variables of the second are the first ones declared of those of the first. -/
def Spot.Covers (a b : Spot) : Prop :=
  a.pending = b.pending ∧ b.scopes.bindings <:+ a.scopes.bindings

theorem Spot.Covers.refl (a : Spot) : a.Covers a := ⟨rfl, List.suffix_refl _⟩

theorem Spot.Covers.trans {a b c : Spot} (h : a.Covers b) (h' : b.Covers c) : a.Covers c :=
  ⟨h.1.trans h'.1, h'.2.trans h.2⟩

/-- Code can go on at index `n` when `a` is known. -/
def Enters (spots : List Spot) (n : Nat) (a : Spot) : Prop :=
  ∃ b, spots[n]? = some b ∧ a.Covers b

theorem Enters.of_covers {spots : List Spot} {n : Nat} {a b : Spot} (h : Enters spots n b)
    (hab : a.Covers b) : Enters spots n a := by
  obtain ⟨c, hc, hbc⟩ := h
  exact ⟨c, hc, hab.trans hbc⟩

/-- `op.Leads p f spots n a`: executed at index `n` of the code of `f`, where `a` is known, `op`
goes on at spots that can be entered, or it returns a value that `f` may return. -/
inductive Op.Leads (p : Program) (f : FunDef) (spots : List Spot) (n : Nat) : Op → Spot → Prop where
  | next {op a b} (h : op.Flows p a b) (hnext : Enters spots (n + 1) b) : Leads p f spots n op a
  | jump {a k} (h : Enters spots k a) : Leads p f spots n (.jump (k : Nat)) a
  | jumpUnless {s ps k} (hnext : Enters spots (n + 1) ⟨s, ps⟩) (h : Enters spots k ⟨s, ps⟩) :
      Leads p f spots n (.jumpUnless (k : Nat)) ⟨s, .val .bool :: ps⟩
  | ret {s t} (h : t.fits f.resultType = true) : Leads p f spots n .ret ⟨s, [.val t]⟩

/-- The instructions of `code`, which stands at index `n`, lead on. -/
def CodeLeads (p : Program) (f : FunDef) (spots : List Spot) (n : Nat) (code : List Instr) :
    Prop :=
  ∀ k i, code[k]? = some i → ∃ a, spots[n + k]? = some a ∧ i.op.Leads p f spots (n + k) a

section
variable {p : Program} {f : FunDef} {spots : List Spot} {n : Nat} {c c' : List Instr}

theorem codeLeads_nil : CodeLeads p f spots n [] := by
  intro k i hk
  cases hk

theorem CodeLeads.cons {i : Instr} {a : Spot} (ha : spots[n]? = some a)
    (hi : i.op.Leads p f spots n a) (h : CodeLeads p f spots (n + 1) c) :
    CodeLeads p f spots n (i :: c) := by
  intro k j hk
  cases k with
  | zero =>
    obtain rfl : i = j := by simpa using hk
    exact ⟨a, ha, hi⟩
  | succ k =>
    rw [List.getElem?_cons_succ] at hk
    rw [show n + (k + 1) = n + 1 + k by omega]
    exact h k j hk

theorem CodeLeads.append (h : CodeLeads p f spots n c)
    (h' : CodeLeads p f spots (n + c.length) c') : CodeLeads p f spots n (c ++ c') := by
  intro k i hk
  by_cases hlt : k < c.length
  · rw [List.getElem?_append_left hlt] at hk
    exact h k i hk
  · rw [List.getElem?_append_right (by omega)] at hk
    have hn : n + k = n + c.length + (k - c.length) := by omega
    rw [hn]
    exact h' (k - c.length) i hk

/-- Straight code leads from its first spot to its last. -/
theorem Straight.leads {a b : Spot} {own : List Spot} (h : Straight p a c own b)
    (hown : StandsAt spots n own) (hexit : Enters spots (n + c.length) b) :
    Enters spots n a ∧ CodeLeads p f spots n c := by
  induction h generalizing n with
  | nil a => exact ⟨hexit, codeLeads_nil⟩
  | @cons a b e i code own hflow _ ih =>
    rw [standsAt_cons] at hown
    rw [List.length_cons, Nat.add_comm code.length, ← Nat.add_assoc] at hexit
    obtain ⟨henter, hleads⟩ := ih hown.2 hexit
    exact ⟨⟨a, hown.1, .refl a⟩, hleads.cons hown.1 (.next hflow henter)⟩

end

/-- Code with its own spots that leads from `a` to `b`, wherever the spots of the function have
those spots in their place. -/
structure Fragment (p : Program) (f : FunDef) (a : Spot) (n : Nat) (c : List Instr)
    (own : List Spot) (b : Spot) : Prop where
  length_eq : own.length = c.length
  leads : ∀ spots, StandsAt spots n own → Enters spots (n + c.length) b →
    Enters spots n a ∧ CodeLeads p f spots n c

namespace Fragment

variable {p : Program} {f : FunDef} {a b e : Spot} {n : Nat} {c c' : List Instr}
  {own own' : List Spot}

theorem nil (a : Spot) : Fragment p f a n [] [] a :=
  ⟨rfl, fun _ _ h ↦ ⟨h, codeLeads_nil⟩⟩

theorem of_straight (h : Straight p a c own b) : Fragment p f a n c own b :=
  ⟨h.length_eq, fun _ hown hexit ↦ h.leads hown hexit⟩

theorem append (h : Fragment p f a n c own b) (h' : Fragment p f b (n + c.length) c' own' e) :
    Fragment p f a n (c ++ c') (own ++ own') e where
  length_eq := by rw [List.length_append, List.length_append, h.length_eq, h'.length_eq]
  leads spots hown hexit := by
    rw [standsAt_append, h.length_eq] at hown
    rw [List.length_append, ← Nat.add_assoc] at hexit
    obtain ⟨henter', hleads'⟩ := h'.leads spots hown.2 hexit
    obtain ⟨henter, hleads⟩ := h.leads spots hown.1 henter'
    exact ⟨henter, hleads.append hleads'⟩

/-- The code of a block, seen from outside: what was declared in it is forgotten. -/
theorem forget {s s₁ s₂ : Scopes} (h : Fragment p f ⟨s₁, []⟩ n c own ⟨s₂, []⟩)
    (h₁ : s₁.bindings <:+ s.bindings) (h₂ : s.bindings <:+ s₂.bindings) :
    Fragment p f ⟨s, []⟩ n c own ⟨s, []⟩ where
  length_eq := h.length_eq
  leads spots hown hexit := by
    obtain ⟨henter, hleads⟩ := h.leads spots hown (hexit.of_covers ⟨rfl, h₂⟩)
    exact ⟨henter.of_covers ⟨rfl, h₁⟩, hleads⟩

/-! ### Branches and loops -/

/-- A condition, a body, and the rest of the branches. -/
theorem branch {s : Scopes} {note : String} {cond body rest : List Instr}
    {condOwn bodyOwn restOwn : List Spot}
    (hcond : Straight p ⟨s, []⟩ cond condOwn ⟨s, [.val .bool]⟩)
    (hbody : Fragment p f ⟨s, []⟩ (bodyAt n cond) body bodyOwn ⟨s, []⟩)
    (hrest : Fragment p f ⟨s, []⟩ (bodyAt n cond + body.length + 1) rest restOwn ⟨s, []⟩) :
    Fragment p f ⟨s, []⟩ n (branchCode n note cond body rest)
      (condOwn ++ ⟨s, [.val .bool]⟩ :: bodyOwn ++ ⟨s, []⟩ :: restOwn) ⟨s, []⟩ where
  length_eq := by
    simp [branchCode, hcond.length_eq, hbody.length_eq, hrest.length_eq]
  leads spots hown hexit := by
    rw [standsAt_append, standsAt_append, standsAt_cons, standsAt_cons, List.length_append,
      List.length_cons, hcond.length_eq, hbody.length_eq] at hown
    obtain ⟨⟨hcondOwn, htest, hbodyOwn⟩, hjump, hrestOwn⟩ := hown
    have hnext : n + (cond.length + (body.length + 1)) = bodyAt n cond + body.length := by
      simp only [bodyAt]
      omega
    rw [hnext] at hjump hrestOwn
    have hend : n + (branchCode n note cond body rest).length =
        bodyAt n cond + body.length + 1 + rest.length := by
      simp [branchCode, bodyAt]
      omega
    rw [hend] at hexit
    obtain ⟨henterRest, hleadsRest⟩ := hrest.leads spots hrestOwn hexit
    obtain ⟨henterBody, hleadsBody⟩ := hbody.leads spots hbodyOwn ⟨_, hjump, .refl _⟩
    have henterTest : Enters spots (n + cond.length) ⟨s, [.val .bool]⟩ := ⟨_, htest, .refl _⟩
    obtain ⟨henter, hleads⟩ := hcond.leads hcondOwn henterTest
    refine ⟨henter, (hleads.append (.cons htest (.jumpUnless ?_ ?_) hleadsBody)).append ?_⟩
    · exact henterBody
    · exact henterRest
    · rw [List.length_append, List.length_cons, hnext]
      exact .cons hjump (.jump hexit) hleadsRest

/-- A condition, a body, and a jump back. -/
theorem loop {s : Scopes} (exitNote loopNote : String) {cond body : List Instr}
    {condOwn bodyOwn : List Spot}
    (hcond : Straight p ⟨s, []⟩ cond condOwn ⟨s, [.val .bool]⟩)
    (hbody : Fragment p f ⟨s, []⟩ (bodyAt n cond) body bodyOwn ⟨s, []⟩) :
    Fragment p f ⟨s, []⟩ n
      (cond ++ .noted (.jumpUnless ((bodyAt n cond + body.length + 1 : Nat))) exitNote :: body ++
        [.noted (.jump n) loopNote])
      (condOwn ++ ⟨s, [.val .bool]⟩ :: bodyOwn ++ [⟨s, []⟩]) ⟨s, []⟩ where
  length_eq := by
    simp [hcond.length_eq, hbody.length_eq]
  leads spots hown hexit := by
    rw [standsAt_append, standsAt_append, standsAt_cons, standsAt_cons, List.length_append,
      List.length_cons, hcond.length_eq, hbody.length_eq] at hown
    obtain ⟨⟨hcondOwn, htest, hbodyOwn⟩, hjump, -⟩ := hown
    have hlast : n + (cond.length + (body.length + 1)) = bodyAt n cond + body.length := by
      simp only [bodyAt]
      omega
    rw [hlast] at hjump
    rw [List.length_append, List.length_append, List.length_cons, List.length_singleton,
      ← Nat.add_assoc, hlast] at hexit
    obtain ⟨henterBody, hleadsBody⟩ := hbody.leads spots hbodyOwn ⟨_, hjump, .refl _⟩
    have henterTest : Enters spots (n + cond.length) ⟨s, [.val .bool]⟩ := ⟨_, htest, .refl _⟩
    obtain ⟨henter, hleads⟩ := hcond.leads hcondOwn henterTest
    refine ⟨henter, (hleads.append (.cons htest (.jumpUnless ?_ ?_) hleadsBody)).append ?_⟩
    · exact henterBody
    · exact hexit
    · rw [List.length_append, List.length_cons, hlast]
      exact .cons hjump (.jump henter) codeLeads_nil

end Fragment

/-! ## Statements -/

section
variable {p : Program} {s : Scopes}

theorem Scopes.slot_declare {x : String} {t : Ty} (h : s.stack ≠ []) :
    (s.declare x t).bindings.reverse[s.bindings.length]? = some (x, t) := by
  rw [bindings_declare h, List.reverse_cons, List.getElem?_append_right (by simp)]
  simp

theorem straight_of_condition (hp : p.Checked) {cond : Expr} {c : List Instr} {u : Unit}
    (h : checkCondition p s cond = .ok u) (hc : cond.code p (.ofStack s.stack) = .ok c) :
    Straight p ⟨s, []⟩ c (cond.spots p s []) ⟨s, [.val .bool]⟩ := by
  simp only [checkCondition, bind_eq_ok, require_eq_ok] at h
  obtain ⟨t, ht, hbool⟩ := h
  obtain rfl := of_decide_eq_true hbool
  exact cond.straight hp s [] ht hc

theorem straight_of_bound (hp : p.Checked) {bound : LoopBound} {e : Expr} {c : List Instr}
    {u : Unit} (ps : List Pending) (h : checkBound p s bound e = .ok u)
    (hc : e.code p (.ofStack s.stack) = .ok c) :
    Straight p ⟨s, ps⟩ c (e.spots p s ps) ⟨s, .val .int :: ps⟩ := by
  simp only [checkBound, bind_eq_ok, require_eq_ok] at h
  obtain ⟨t, ht, hint⟩ := h
  obtain rfl := of_decide_eq_true hint
  exact e.straight hp s ps ht hc

/-- The index of an assignment to an item of an array. -/
theorem indexedType_some {name : Name} {t₀ t : Ty} {index : Expr}
    (h : indexedType p s name t₀ (some index) = .ok t) :
    ∃ elem, t₀ = .array elem ∧ index.typeIn p s = .ok .int ∧ t = .one elem := by
  cases t₀ with
  | null => cases h
  | one type => cases h
  | array elem =>
    simp only [indexedType, bind_eq_ok, pure_eq_ok, require_eq_ok] at h
    obtain ⟨ti, hti, -, hint, rfl⟩ := h
    obtain rfl := of_decide_eq_true hint
    exact ⟨elem, rfl, hti, rfl⟩

/-- The code of an assignment leaves nothing on the stack. -/
theorem assignStraight (hp : p.Checked) {target : Path} {value : Expr} {wanted t : Ty}
    {c : List Instr} (hw : target.typeIn p s = .ok wanted) (ht : value.typeIn p s = .ok t)
    (hfit : t.fits wanted = true) (hc : assignCode p (.ofStack s.stack) value target = .ok c) :
    Straight p ⟨s, []⟩ c (assignSpots p s value target) ⟨s, []⟩ := by
  match target with
  | .root name none =>
    simp only [assignCode, bind_eq_ok, pure_eq_ok] at hc
    obtain ⟨k, hk, cv, hcv, rfl⟩ := hc
    obtain ⟨t₀, hlook, hget⟩ := slotOf_eq_ok hk
    rw [Path.typeIn, hlook] at hw
    cases hw
    rw [assignSpots, Expr.ty_eq ht]
    exact (value.straight hp s [] ht hcv).append (.single (.store hget hfit))
  | .root name (some index) =>
    simp only [assignCode, bind_eq_ok, pure_eq_ok] at hc
    obtain ⟨k, hk, ci, hci, cv, hcv, rfl⟩ := hc
    obtain ⟨t₀, hlook, hget⟩ := slotOf_eq_ok hk
    rw [Path.typeIn, hlook] at hw
    obtain ⟨elem, rfl, hti, rfl⟩ := indexedType_some hw
    rw [assignSpots, Expr.ty_eq ht, Expr.ty_eq hti, Scopes.ty_eq hlook]
    exact ((Straight.cons (.load hget) (index.straight hp s _ hti hci)).append
      (value.straight hp s _ ht hcv)).append (.single (.setItem hfit))
  | .field base name none =>
    simp only [assignCode, bind_eq_ok, pure_eq_ok] at hc
    obtain ⟨cb, hcb, cv, hcv, rfl⟩ := hc
    simp only [Path.typeIn, bind_eq_ok] at hw
    obtain ⟨tb, htb, tf, htf, hti⟩ := hw
    cases hti
    rw [assignSpots, Expr.ty_eq ht, Path.ty_eq htb]
    obtain ⟨d, decl, rfl, hd, hx, rfl⟩ := Program.fieldType_eq_ok htf
    exact ((base.straight hp s _ htb hcb).append (value.straight hp s _ ht hcv)).append
      (.single (.setField hd hx hfit))
  | .field base name (some index) =>
    simp only [assignCode, bind_eq_ok, pure_eq_ok] at hc
    obtain ⟨cb, hcb, ci, hci, cv, hcv, rfl⟩ := hc
    simp only [Path.typeIn, bind_eq_ok] at hw
    obtain ⟨tb, htb, tf, htf, hindex⟩ := hw
    obtain ⟨elem, rfl, hti, rfl⟩ := indexedType_some hindex
    rw [assignSpots, Expr.ty_eq ht, Expr.ty_eq hti, Path.ty_eq htb, Program.fieldTy_eq htf]
    obtain ⟨d, decl, rfl, hd, hx, harray⟩ := Program.fieldType_eq_ok htf
    -- The field is known by its declaration; that it is an array is what its type says.
    have hget : (Op.getField name.text).Flows p ⟨s, [.val (.one (.struct d.name.text))]⟩
        ⟨s, [.val (.ofRef decl.type)]⟩ := .getField hd hx
    rw [← harray] at hget
    exact (((base.straight hp s _ htb hcb).append
      (.cons hget (index.straight hp s _ hti hci))).append
      (value.straight hp s _ ht hcv)).append (.single (.setItem hfit))

/-- The code of a call for its effect leaves nothing on the stack. -/
theorem callStraight (hp : p.Checked) {callee : Name} {args : List Expr} {t : Ty}
    {c : List Instr} (ht : (Expr.call callee args).typeIn p s = .ok t)
    (hc : callCode p (.ofStack s.stack) callee args = .ok c) :
    Straight p ⟨s, []⟩ c (callSpots p s callee args) ⟨s, []⟩ := by
  rw [callCode] at hc
  rw [callSpots]
  by_cases hprint : Builtin.ofName? callee.text = some .print
  · rw [if_pos hprint] at hc ⊢
    simp only [bind_eq_ok, pure_eq_ok] at hc
    obtain ⟨-, -, ca, hca, rfl⟩ := hc
    simp only [Expr.typeIn, hprint, bind_eq_ok, pure_eq_ok, require_eq_ok] at ht
    obtain ⟨-, hlen, ts, hts, -⟩ := ht
    obtain ⟨-, hok⟩ := Builtin.args_ok hts
    have harity : (args.map (·.ty p s)).length = Builtin.print.arity := by simpa using hlen
    have hact := Builtin.straight_action (p := p) (s := s) [] harity hok
    rw [List.map_map] at hact
    exact (argsStraight hp s args [] hts hca).append hact
  · rw [if_neg hprint] at hc ⊢
    simp only [bind_eq_ok, pure_eq_ok] at hc
    obtain ⟨ce, hce, rfl⟩ := hc
    rw [Expr.ty_eq ht]
    exact (Expr.straight hp s _ [] ht hce).append (.single .pop)

/-- Leaving a block restores the scopes. -/
theorem checkBlock_pop {result : TypeRef} {s' : Scopes} {body : List Stmt}
    (h : checkBlock p result s.push body = .ok s') : s'.pop = s := by
  rw [checkBlock_scopes body h]
  exact ((Scopes.inside_push s).scopesAfterAll body).pop_eq

theorem fits_of_checkReturn {f : FunDef} {pos : Pos} {t : Ty} {u : Unit}
    (h : checkReturn f.returnType pos t = .ok u) : t.fits f.resultType = true := by
  rw [checkReturn] at h
  by_cases hnull : t = .null
  · rw [hnull]
    rfl
  · rw [if_neg hnull] at h
    simp only [bind_eq_ok, require_eq_ok] at h
    obtain ⟨-, hvoid, ht⟩ := h
    rw [FunDef.resultType, if_neg (by simpa using hvoid), of_decide_eq_true ht]
    simp [Ty.fits]

/-- The value of a `var` statement fits the type that it gives its name. -/
theorem fits_of_varType {name : Name} {type : Option TypeRef} {init : Expr} {wanted : Ty}
    (h : varType p s name type (some init) = .ok wanted) :
    ∃ t, init.typeIn p s = .ok t ∧ t.fits wanted = true := by
  cases type with
  | none =>
    simp only [varType, bind_eq_ok, pure_eq_ok, require_eq_ok] at h
    obtain ⟨t, ht, -, -, rfl⟩ := h
    exact ⟨t, ht, by simp [Ty.fits]⟩
  | some type =>
    simp only [varType, bind_eq_ok, pure_eq_ok, require_eq_ok] at h
    obtain ⟨-, -, t, ht, -, hfit, rfl⟩ := h
    exact ⟨t, ht, hfit⟩

/-- The code of a `var` statement. -/
theorem varFragment (hp : p.Checked) {f : FunDef} {n : Nat} {name : Name} {type : Option TypeRef}
    {init : Option Expr} {wanted : Ty} {c : List Instr} {t' : SlotTable} (hs : s.stack ≠ [])
    (hw : varType p s name type init = .ok wanted)
    (hc : (Stmt.var name type init).code p (.ofStack s.stack) n = .ok (c, t')) :
    Fragment p f ⟨s, []⟩ n c ((Stmt.var name type init).spots p s)
      ⟨s.declare name.text wanted, []⟩ := by
  have hnext : (SlotTable.ofStack s.stack).next = s.bindings.length :=
    SlotTable.next_ofStack s.stack
  cases init with
  | none =>
    cases hc
    rw [Stmt.spots, hnext]
    exact .of_straight (.cons (.push .null) (.single (.declare hs rfl)))
  | some init =>
    simp only [Stmt.code, bind_eq_ok, pure_eq_ok, Prod.mk.injEq] at hc
    obtain ⟨cv, hcv, rfl, -⟩ := hc
    obtain ⟨t, ht, hfit⟩ := fits_of_varType hw
    rw [Stmt.spots, Expr.ty_eq ht, hnext]
    exact .of_straight ((init.straight hp s [] ht hcv).append (.single (.declare hs hfit)))

/-- The code of a return, which goes on nowhere. -/
theorem retFragment {f : FunDef} {n : Nat} {t : Ty} {b : Spot} {c : List Instr} {own : List Spot}
    {note : String} (h : Straight p ⟨s, []⟩ c own ⟨s, [.val t]⟩)
    (hfit : t.fits f.resultType = true) :
    Fragment p f ⟨s, []⟩ n (c ++ [.noted .ret note]) (own ++ [⟨s, [.val t]⟩]) b where
  length_eq := by rw [List.length_append, List.length_append, h.length_eq]; rfl
  leads spots hown _ := by
    rw [standsAt_append, standsAt_cons, h.length_eq] at hown
    obtain ⟨hown, hret, -⟩ := hown
    obtain ⟨henter, hleads⟩ := h.leads hown ⟨_, hret, .refl _⟩
    exact ⟨henter, hleads.append (.cons hret (.ret hfit) codeLeads_nil)⟩

/-- The code of a counting loop, whose variable is declared in the scopes `s`. -/
theorem forFragment {f : FunDef} {n : Nat} {x : String} {first last body : List Instr}
    {firstOwn lastOwn bodyOwn : List Spot} {initNote exitNote nextNote loopNote : String}
    (hs : s.stack ≠ [])
    (hfirst : Straight p ⟨s, []⟩ first firstOwn ⟨s, [.val .int]⟩)
    (hlast : Straight p ⟨s.declare x .int, [.val .int]⟩ last lastOwn
      ⟨s.declare x .int, [.val .int, .val .int]⟩)
    (hbody : Fragment p f ⟨s.declare x .int, []⟩ (bodyAt (n + first.length + 1)
      (.plain (.load s.bindings.length) :: last ++ [.plain (.order .le)])) body bodyOwn
      ⟨s.declare x .int, []⟩) :
    Fragment p f ⟨s, []⟩ n
      (first ++ .noted (.store s.bindings.length) initNote ::
        (.plain (.load s.bindings.length) :: last ++ [.plain (.order .le)]) ++
        .noted (.jumpUnless (bodyAt (n + first.length + 1)
          (.plain (.load s.bindings.length) :: last ++ [.plain (.order .le)]) + body.length + 5 :
          Nat)) exitNote :: body ++
        [.plain (.load s.bindings.length), .plain (.push (.int 1)), .plain (.arith .add),
          .noted (.store s.bindings.length) nextNote,
          .noted (.jump (n + first.length + 1 : Nat)) loopNote])
      (firstOwn ++ ⟨s, [.val .int]⟩ :: ⟨s.declare x .int, []⟩ :: lastOwn ++
        ⟨s.declare x .int, [.val .int, .val .int]⟩ :: ⟨s.declare x .int, [.val .bool]⟩ ::
        bodyOwn ++ [⟨s.declare x .int, []⟩, ⟨s.declare x .int, [.val .int]⟩,
          ⟨s.declare x .int, [.val .int, .val .int]⟩, ⟨s.declare x .int, [.val .int]⟩,
          ⟨s.declare x .int, []⟩])
      ⟨s.declare x .int, []⟩ := by
  -- The pieces in the order in which they stand: initialization, test, body and counting.
  have hslot := Scopes.slot_declare (x := x) (t := .int) hs
  have hdeclare : (Op.store s.bindings.length).Flows p ⟨s, [.val .int]⟩ ⟨s.declare x .int, []⟩ :=
    .declare hs rfl
  have hinit := hfirst.append (.single (i := .noted (.store s.bindings.length) initNote) hdeclare)
  have htest := (Straight.cons (i := .plain (.load s.bindings.length)) (.load hslot) hlast).append
    (.single (i := .plain (.order .le)) (.order (.inl rfl)))
  have hincr : Straight p ⟨s.declare x .int, []⟩
      [.plain (.load s.bindings.length), .plain (.push (.int 1)), .plain (.arith .add),
        .noted (.store s.bindings.length) nextNote]
      [⟨s.declare x .int, []⟩, ⟨s.declare x .int, [.val .int]⟩,
        ⟨s.declare x .int, [.val .int, .val .int]⟩, ⟨s.declare x .int, [.val .int]⟩]
      ⟨s.declare x .int, []⟩ :=
    .cons (.load hslot) (.cons (.push (.int 1)) (.cons (.arith (.inl rfl))
      (.single (.store hslot rfl))))
  have hstart : n + (first ++ [Instr.noted (.store s.bindings.length) initNote]).length =
      n + first.length + 1 := by simp [Nat.add_assoc]
  have hloop := Fragment.loop (f := f) exitNote loopNote htest
    (hbody.append (.of_straight hincr))
  have hwhole := (Fragment.of_straight (f := f) (n := n) hinit).append (hstart ▸ hloop)
  simpa [bodyAt, Nat.add_assoc] using hwhole

/-- The code of a block in a scope of its own. -/
theorem Fragment.of_block {f : FunDef} {n : Nat} {c : List Instr} {own : List Spot}
    {stmts : List Stmt}
    (h : Fragment p f ⟨s.push, []⟩ n c own ⟨scopesAfterAll p s.push stmts, []⟩) :
    Fragment p f ⟨s, []⟩ n c own ⟨s, []⟩ :=
  h.forget (List.suffix_refl _) (suffix_scopesAfterAll s.push stmts)

mutual

/-- The code of a checked statement leads from the scopes before it to those after it. -/
theorem Stmt.fragment (hp : p.Checked) {f : FunDef} {s s' : Scopes} {n : Nat} {c : List Instr}
    {t' : SlotTable} (hs : s.stack ≠ []) : (stmt : Stmt) →
    stmt.check p f.returnType s = .ok s' → stmt.code p (.ofStack s.stack) n = .ok (c, t') →
    Fragment p f ⟨s, []⟩ n c (stmt.spots p s) ⟨stmt.scopesAfter p s, []⟩
  | .var name type init, hk, hc => by
    simp only [Stmt.check, bind_eq_ok, pure_eq_ok, require_eq_ok] at hk
    obtain ⟨-, -, wanted, hw, -⟩ := hk
    rw [Stmt.scopesAfter, hw, okOr_ok]
    exact varFragment hp hs hw hc
  | .assign target value, hk, hc => by
    simp only [Stmt.check, bind_eq_ok, pure_eq_ok, require_eq_ok] at hk
    obtain ⟨wanted, hw, t, ht, -, hfit, -⟩ := hk
    simp only [Stmt.code, bind_eq_ok, pure_eq_ok, Prod.mk.injEq] at hc
    obtain ⟨ca, hca, rfl, -⟩ := hc
    exact .of_straight (assignStraight hp hw ht hfit hca)
  | .ret pos value, hk, hc => by
    simp only [Stmt.check, bind_eq_ok, pure_eq_ok] at hk
    obtain ⟨t, ht, _, hret, -⟩ := hk
    simp only [Stmt.code, bind_eq_ok, pure_eq_ok, Prod.mk.injEq] at hc
    obtain ⟨cv, hcv, rfl, -⟩ := hc
    rw [Stmt.spots, Expr.ty_eq ht]
    exact retFragment (value.straight hp s [] ht hcv) (fits_of_checkReturn hret)
  | .whileLoop cond body, hk, hc => by
    simp only [Stmt.check, bind_eq_ok] at hk
    obtain ⟨_, hcond, s₁, hbody, -⟩ := hk
    simp only [Stmt.code, bind_eq_ok, pure_eq_ok, Prod.mk.injEq] at hc
    obtain ⟨cc, hcc, ⟨cb, t₁⟩, hcb, rfl, -⟩ := hc
    have hblock := blockFragment hp s.push_ne_nil body hbody (s.ofStack_push ▸ hcb)
    exact .loop _ _ (straight_of_condition hp hcond hcc) hblock.of_block
  | .forLoop var first last body, hk, hc => by
    simp only [Stmt.check, bind_eq_ok] at hk
    obtain ⟨_, hfirst, _, hlast, s₁, hbody, -⟩ := hk
    simp only [Stmt.code, bind_eq_ok, pure_eq_ok, Prod.mk.injEq] at hc
    obtain ⟨ca, hca, cl, hcl, ⟨cb, t₁⟩, hcb, rfl, -⟩ := hc
    have hpush := s.push_ne_nil
    have hnext : (SlotTable.ofStack s.push.stack).next = s.push.bindings.length :=
      SlotTable.next_ofStack s.push.stack
    -- Code is generated from a slot table, and types are those of scopes: the table is the one that
    -- belongs to the scopes.
    rw [s.ofStack_push] at hca hcl hcb ⊢
    rw [Scopes.ofStack_declare (t := .int) hpush] at hcl hcb
    rw [hnext] at hcb ⊢
    have hbody' := blockFragment hp (Scopes.declare_ne_nil hpush) body hbody hcb
    exact (forFragment hpush (straight_of_bound hp [] hfirst hca)
      (straight_of_bound hp [.val .int] hlast hcl)
      (hbody'.forget (List.suffix_refl _) (suffix_scopesAfterAll _ body))).forget
      (List.suffix_refl _) (s.push.suffix_declare var.text .int)
  | .ifElse cond body other, hk, hc => by
    simp only [Stmt.check, bind_eq_ok] at hk
    obtain ⟨_, hcond, s₁, hbody, hother⟩ := hk
    simp only [Stmt.code, bind_eq_ok, pure_eq_ok, Prod.mk.injEq] at hc
    obtain ⟨cc, hcc, ⟨cb, t₁⟩, hcb, ⟨rest, t₂⟩, hrest, rfl, -⟩ := hc
    have hblock := blockFragment hp s.push_ne_nil body hbody (s.ofStack_push ▸ hcb)
    exact .branch (straight_of_condition hp hcond hcc) hblock.of_block
      (other.fragment hp (checkBlock_pop hbody ▸ hother) (blockCode_pop hcb ▸ hrest))
  | .call callee args, hk, hc => by
    simp only [Stmt.check, bind_eq_ok] at hk
    obtain ⟨t, ht, -⟩ := hk
    simp only [Stmt.code, bind_eq_ok, pure_eq_ok, Prod.mk.injEq] at hc
    obtain ⟨ca, hca, rfl, -⟩ := hc
    exact .of_straight (callStraight hp ht hca)

theorem Else.fragment (hp : p.Checked) {f : FunDef} {s s' : Scopes} {n : Nat} {c : List Instr}
    {t' : SlotTable} : (other : Else) →
    other.check p f.returnType s = .ok s' → other.code p (.ofStack s.stack) n = .ok (c, t') →
    Fragment p f ⟨s, []⟩ n c (other.spots p s) ⟨s, []⟩
  | .none, hk, hc => by
    cases hc
    exact .nil _
  | .block body, hk, hc => by
    simp only [Else.check, bind_eq_ok] at hk
    obtain ⟨s₁, hbody, -⟩ := hk
    simp only [Else.code, bind_eq_ok, pure_eq_ok, Prod.mk.injEq] at hc
    obtain ⟨⟨cb, t₁⟩, hcb, rfl, -⟩ := hc
    exact (blockFragment hp s.push_ne_nil body hbody (s.ofStack_push ▸ hcb)).of_block
  | .elseIf cond body other, hk, hc => by
    simp only [Else.check, bind_eq_ok] at hk
    obtain ⟨_, hcond, s₁, hbody, hother⟩ := hk
    simp only [Else.code, bind_eq_ok, pure_eq_ok, Prod.mk.injEq] at hc
    obtain ⟨cc, hcc, ⟨cb, t₁⟩, hcb, ⟨rest, t₂⟩, hrest, rfl, -⟩ := hc
    have hblock := blockFragment hp s.push_ne_nil body hbody (s.ofStack_push ▸ hcb)
    exact .branch (straight_of_condition hp hcond hcc) hblock.of_block
      (other.fragment hp (checkBlock_pop hbody ▸ hother) (blockCode_pop hcb ▸ hrest))

theorem blockFragment (hp : p.Checked) {f : FunDef} {s s' : Scopes} {n : Nat} {c : List Instr}
    {t' : SlotTable} (hs : s.stack ≠ []) : (stmts : List Stmt) →
    checkBlock p f.returnType s stmts = .ok s' →
    blockCode p (.ofStack s.stack) n stmts = .ok (c, t') →
    Fragment p f ⟨s, []⟩ n c (blockSpots p s stmts) ⟨scopesAfterAll p s stmts, []⟩
  | [], hk, hc => by
    cases hc
    exact .nil _
  | stmt :: stmts, hk, hc => by
    simp only [checkBlock, bind_eq_ok] at hk
    obtain ⟨s₁, hs₁, hrest⟩ := hk
    simp only [blockCode, bind_eq_ok, pure_eq_ok, Prod.mk.injEq] at hc
    obtain ⟨⟨cb, t₁⟩, hcb, ⟨crest, t₂⟩, hcrest, rfl, -⟩ := hc
    obtain rfl := stmt.check_scopes hs₁
    obtain rfl := stmt.code_slots hcb
    rw [stmt.ofStack_scopesAfter (p := p) hs] at hcrest
    exact (stmt.fragment hp hs hs₁ hcb).append
      (blockFragment hp (stmt.scopesAfter_ne_nil hs) stmts hrest hcrest)

end

/-! ## Functions -/

theorem checkParams_scopes {s s' : Scopes} {params : List VarDef}
    (h : checkParams p s params = .ok s') : s' = paramScopes s params := by
  induction params generalizing s with
  | nil =>
    cases h
    rfl
  | cons v vs ih =>
    simp only [checkParams, bind_eq_ok] at h
    obtain ⟨_, -, _, -, hrest⟩ := h
    exact ih hrest

theorem paramScopes_ne_nil {s : Scopes} (hs : s.stack ≠ []) (params : List VarDef) :
    (paramScopes s params).stack ≠ [] := by
  induction params generalizing s with
  | nil => exact hs
  | cons v vs ih => exact ih (Scopes.declare_ne_nil hs)

/-- The code that stores the parameters, and the variables after it. -/
theorem paramsStraight {s : Scopes} (hs : s.stack ≠ []) (params : List VarDef) :
    Straight p ⟨s, pendingParams params⟩ (paramsCode (.ofStack s.stack) params).1
        (paramSpots s params) ⟨paramScopes s params, []⟩ ∧
      (paramsCode (.ofStack s.stack) params).2 = .ofStack (paramScopes s params).stack := by
  induction params generalizing s with
  | nil => exact ⟨.nil _, rfl⟩
  | cons v vs ih =>
    have hnext : (SlotTable.ofStack s.stack).next = s.bindings.length :=
      SlotTable.next_ofStack s.stack
    obtain ⟨hcode, htable⟩ := ih (Scopes.declare_ne_nil (x := v.name.text) (t := .ofRef v.type) hs)
    rw [paramsCode, Scopes.ofStack_declare (t := .ofRef v.type) hs, hnext]
    exact ⟨.cons (.declare hs (by simp [Ty.fits])) hcode, htable⟩

theorem FunDef.check_eq_ok {f : FunDef} (h : f.check p = .ok ()) :
    f.checkMain = .ok () ∧ ∃ s', checkBlock p f.returnType
      (paramScopes Scopes.empty.push f.params) f.body = .ok s' := by
  have hrest : (do
      f.checkMain
      let s ← checkParams p Scopes.empty.push f.params
      let _ ← checkBlock p f.returnType s f.body : Checked Unit) = .ok () := by
    rw [FunDef.check] at h
    split at h
    · obtain ⟨_, -, h⟩ := bind_eq_ok.mp h
      exact h
    · exact h
  simp only [bind_eq_ok] at hrest
  obtain ⟨_, hmain, s, hparams, s', hbody, -⟩ := hrest
  rw [checkParams_scopes hparams] at hbody
  exact ⟨hmain, s', hbody⟩

/-- The code of a checked function leads on at every instruction, and its first spot can be
entered with the arguments on the stack. -/
theorem FunDef.leads (hp : p.Checked) {f : FunDef} {template : Template}
    (hcheck : f.check p = .ok ()) (hcode : f.code p = .ok template) :
    Enters (f.spots p) 0 ⟨Scopes.empty.push, pendingParams f.params⟩ ∧
      CodeLeads p f (f.spots p) 0 template.instrs.toList := by
  obtain ⟨-, s', hbody⟩ := FunDef.check_eq_ok hcheck
  obtain ⟨body, t, hblock, rfl⟩ := FunDef.code_eq_ok hcode
  have hstart := Scopes.empty.push_ne_nil
  obtain ⟨hparams, htable⟩ := paramsStraight (p := p) hstart f.params
  rw [← Scopes.ofStack_push, show SlotTable.ofStack Scopes.empty.stack = .empty from rfl]
    at hparams htable
  rw [htable] at hblock
  have hfrag := (Fragment.of_straight (f := f) (n := 0) hparams).append
    (blockFragment hp (paramScopes_ne_nil hstart f.params) f.body hbody
      (by rw [Nat.zero_add]; exact hblock))
  -- The return that may be added has its spots in any case, so the end of the body can be entered.
  have hstands := standsAt_self (f.spots p)
  rw [FunDef.spots, standsAt_append, standsAt_cons, standsAt_cons] at hstands
  obtain ⟨hown, hpush, hret, -⟩ := hstands
  rw [hfrag.length_eq] at hpush hret
  obtain ⟨henter, hleads⟩ := hfrag.leads (f.spots p) hown ⟨_, hpush, .refl _⟩
  refine ⟨henter, ?_⟩
  rw [List.toList_toArray, withReturn]
  split
  · have hfit : Ty.null.fits f.resultType = true := rfl
    exact hleads.append (.cons hpush (.next (.push .null) ⟨_, hret, .refl _⟩)
      (.cons hret (.ret hfit) codeLeads_nil))
  · exact hleads

end

end Pebble
