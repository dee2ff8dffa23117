import Pebble.Proofs.Generating

/-!
# Jumps that are patched

Code is generated for the index it will stand at, and the targets of jumps follow from the lengths
of parts. Here the same code is written instruction by instruction into a template that grows
(`Stmt.emit`). Where a jump goes forward, its target is not known when it is written: it is put down
with a provisional target, and patched when that place has been reached. The jumps behind the
branches of an `if` are kept in a list until all of it has been written.

Both ways give the same templates (`Program.emit_eq_ok_iff`). Patching never meets anything but a
jump that waits for its target, so what can go wrong beside the generator's own errors is a target
that is too far away. In a checked program nothing else goes wrong (`Program.Checked.emit_eq`).

## The invariant

Code is written behind the code `l` that is there, among which some jumps at known indices wait for
their target. When it has been written, they all go to its end (`Emit.Writes`).
-/

namespace Pebble

/-! ## Writing code -/

/-- The target of a jump that has not been patched. -/
def Template.unpatched : Int := -1

/-- Something that is written into a template. -/
abbrev Emit (α : Type) := StateT Template (Except CodeError) α

namespace Emit

/-- Appends an instruction, and answers its index. -/
def push (i : Instr) : Emit Nat := do
  let t ← get
  set (t.push i)
  return t.instrs.size

def pushAll (c : List Instr) : Emit Unit :=
  c.forM fun i ↦ discard (push i)

/-- Lets the jump at an index go to the instruction that is written next. -/
def patchHere (index : Nat) : Emit Unit := do
  let t ← get
  set (← t.patch index t.instrs.size)

/-- A jump over a body, if a test has failed. -/
def skip (note : String) (target : Int) : Instr :=
  .noted (.jumpUnless target) note

/-- A test, a body that is left if the test fails, and a jump back behind what is done after the
body. -/
def loop {α : Type} (note : String) (test : Generated (List Instr)) (body : Emit α)
    (after : List Instr) : Emit α := do
  let start := (← get).instrs.size
  pushAll (← test)
  let exit ← push (skip note Template.unpatched)
  let a ← body
  pushAll after
  discard (push (.noted (.jump start) "loop"))
  patchHere exit
  return a

/-- A jump behind all branches of an `if`. -/
def leave (target : Int) : Instr :=
  .noted (.jump target) "end if"

/-- One branch of an `if`. The index of its last jump is answered, which goes behind all of them. -/
def branch {α : Type} (note : String) (cond : Generated (List Instr)) (body : Emit α) :
    Emit (Nat × α) := do
  pushAll (← cond)
  let next ← push (skip note Template.unpatched)
  let a ← body
  let last ← push (leave Template.unpatched)
  patchHere next
  return (last, a)

end Emit

open Emit

/-- The test of a `for` loop. -/
def forTest (p : Program) (t : SlotTable) (slot : Nat) (last : Expr) : Generated (List Instr) := do
  return .plain (.load slot) :: (← last.code p t) ++ [.plain (.order .le)]

/-- What is done after each round of a `for` loop. -/
def forAfter (slot : Nat) (x : Name) : List Instr :=
  [.plain (.load slot), .plain (.push (.int 1)), .plain (.arith .add),
    .noted (.store slot) (x.text ++ " += 1")]

mutual

/-- Writes a statement, and answers the variables after it. -/
def Stmt.emit (p : Program) (t : SlotTable) : Stmt → Emit SlotTable
  | .var name _ init => do
    let v ← match init with
      | none => pure [.plain (.push .null)]
      | some e => e.code p t
    pushAll v
    discard (push (.noted (.store t.next) ("var " ++ name.text)))
    return t.declare name.text
  | .assign target value => do
    pushAll (← assignCode p t value target)
    return t
  | .ret _ value => do
    pushAll (← value.code p t)
    discard (push (.noted .ret "return"))
    return t
  | .whileLoop cond body => do
    let t' ← loop "while" (cond.code p t) (emitBlock p t.push body) []
    return t'.pop
  | .forLoop var first last body => do
    let outer := t.push
    pushAll (← first.code p outer)
    let slot := outer.next
    let inner := outer.declare var.text
    discard (push (.noted (.store slot) ("for " ++ var.text)))
    let t' ← loop "for exit" (forTest p inner slot last) (emitBlock p inner body)
      (forAfter slot var)
    return t'.pop
  | .ifElse cond body other => do
    let (last, t') ← branch "if" (cond.code p t) (emitBlock p t.push body)
    other.emit p t'.pop [last]
  | .call callee args => do
    pushAll (← callCode p t callee args)
    return t

/-- Writes what follows a branch of an `if`. The jumps at the indices `waiting` go behind it. -/
def Else.emit (p : Program) (t : SlotTable) (waiting : List Nat) : Else → Emit SlotTable
  | .none => do
    waiting.forM patchHere
    return t
  | .block body => do
    let t' ← emitBlock p t.push body
    waiting.forM patchHere
    return t'.pop
  | .elseIf cond body other => do
    let (last, t') ← branch "else if" (cond.code p t) (emitBlock p t.push body)
    other.emit p t'.pop (waiting ++ [last])

/-- Writes statements one after the other. -/
def emitBlock (p : Program) (t : SlotTable) : List Stmt → Emit SlotTable
  | [] => return t
  | stmt :: stmts => do
    let t ← stmt.emit p t
    emitBlock p t stmts

end

/-- Adds a return of `null` where the end of the code can be reached. -/
def Emit.finish : Emit Unit := do
  let t ← get
  if t.lastOp? ≠ some .ret ∨ (t.instrs.size : Int) ∈ t.targets then
    pushAll [.noted (.push .null) "implicit return", .plain .ret]

/-- Writes the code of a function. -/
def FunDef.write (p : Program) (f : FunDef) : Emit Unit := do
  let (params, t) := paramsCode SlotTable.empty.push f.params
  pushAll params
  discard (emitBlock p t f.body)
  finish

/-- The template that has been written for a function. -/
def FunDef.emit (p : Program) (f : FunDef) : Except CodeError Template := do
  let (_, t) ← f.write p (.empty f.name.text)
  return t

def Program.emit (p : Program) : Except CodeError (List Template) :=
  p.functions.mapM (FunDef.emit p)

/-! ## One instruction after the other -/

namespace Emit

variable {α β : Type} {name : String} {l : List Instr}

theorem bind_apply (x : Emit α) (f : α → Emit β) (t : Template) :
    (x >>= f) t = match x t with
      | .ok (a, t') => f a t'
      | .error e => .error e := by
  show (x t >>= fun (a, t') ↦ f a t') = _
  cases x t <;> rfl

theorem lift_apply (x : Except CodeError α) (t : Template) :
    (liftM x : Emit α) t = match x with
      | .ok a => .ok (a, t)
      | .error e => .error e := by
  cases x <;> rfl

theorem get_apply (t : Template) : (get : Emit Template) t = .ok (t, t) :=
  rfl

theorem push_apply (i : Instr) :
    push i ⟨name, l.toArray⟩ = .ok (l.length, ⟨name, (l ++ [i]).toArray⟩) := by
  show Except.ok (_, _) = _
  simp [Template.push]

theorem discard_apply (x : Emit α) (t : Template) :
    (discard x : Emit Unit) t = match x t with
      | .ok (_, t') => .ok ((), t')
      | .error e => .error e := by
  show (x t >>= fun (_, t') ↦ pure ((), t')) = _
  cases x t <;> rfl

theorem pushAll_apply (c : List Instr) :
    pushAll c ⟨name, l.toArray⟩ = .ok ((), ⟨name, (l ++ c).toArray⟩) := by
  induction c generalizing l with
  | nil => rw [List.append_nil]; rfl
  | cons i c ih =>
    have hfirst : pushAll (i :: c) = (discard (push i) >>= fun _ ↦ pushAll c) := rfl
    rw [hfirst, bind_apply, discard_apply, push_apply]
    simp only [ih, List.append_assoc, List.cons_append, List.nil_append]

theorem patchHere_eq (k : Nat) (t : Template) :
    patchHere k t = match t.patch k t.instrs.size with
      | .ok t' => .ok ((), t')
      | .error e => .error e := by
  rw [patchHere, bind_apply]
  show ((liftM (t.patch k t.instrs.size) : Emit Template) >>= fun t' ↦ set t') t = _
  rw [bind_apply, lift_apply]
  cases t.patch k t.instrs.size <;> rfl

/-- A jump that is there gets its target, unless that is too far away. -/
theorem patchHere_apply {k : Nat} {i : Instr} {op : Op} (hget : l[k]? = some i)
    (hop : i.op.retarget? l.length = some op) :
    patchHere k ⟨name, l.toArray⟩ =
      if Template.maxTarget < l.length then .error .jumpTooFar
      else .ok ((), ⟨name, (l.set k { i with op }).toArray⟩) := by
  rw [patchHere_eq, Template.patch, List.size_toArray]
  by_cases hfar : Template.maxTarget < l.length
  · simp only [if_pos hfar]
  · simp only [if_neg hfar, List.getElem?_toArray, hget, hop, List.setIfInBounds_toArray]

/-- A jump with code on both sides. -/
theorem patchHere_between {r : List Instr} {i : Instr} {op : Op}
    (hop : i.op.retarget? ↑(l ++ i :: r).length = some op) :
    patchHere l.length ⟨name, (l ++ i :: r).toArray⟩ =
      if Template.maxTarget < (l ++ i :: r).length then .error .jumpTooFar
      else .ok ((), ⟨name, (l ++ { i with op } :: r).toArray⟩) := by
  have hget : (l ++ i :: r)[l.length]? = some i := by simp
  rw [patchHere_apply hget hop, List.set_append_right _ _ (Nat.le_refl _), Nat.sub_self]
  rfl

/-! ## Jumps that wait for their target -/

/-- All waiting jumps get their target. -/
def resolve (waiting : List Nat) (target : Int) (l : List Instr) : List Instr :=
  waiting.foldl (fun l k ↦ l.set k (leave target)) l

/-- At these indices there are jumps behind the branches of an `if`. -/
def Waits (waiting : List Nat) (l : List Instr) : Prop :=
  ∀ k ∈ waiting, ∃ target, l[k]? = some (leave target)

variable {waiting : List Nat}

theorem Waits.nil : Waits [] l :=
  fun _ hk ↦ absurd hk List.not_mem_nil

theorem Waits.lt (h : Waits waiting l) {k : Nat} (hk : k ∈ waiting) : k < l.length := by
  obtain ⟨target, hget⟩ := h k hk
  exact (List.getElem?_eq_some_iff.mp hget).1

theorem Waits.set (h : Waits waiting l) (k : Nat) (target : Int) :
    Waits waiting (l.set k (leave target)) := by
  intro k' hk'
  obtain ⟨target', hget⟩ := h k' hk'
  by_cases heq : k = k'
  · subst heq
    exact ⟨target, List.getElem?_set_self (h.lt hk')⟩
  · exact ⟨target', by rw [List.getElem?_set_ne heq, hget]⟩

theorem Waits.append (h : Waits waiting l) (c : List Instr) : Waits waiting (l ++ c) := by
  intro k hk
  rw [List.getElem?_append_left (h.lt hk)]
  exact h k hk

theorem resolve_append (h : Waits waiting l) (target : Int) (c : List Instr) :
    resolve waiting target (l ++ c) = resolve waiting target l ++ c := by
  induction waiting generalizing l with
  | nil => rfl
  | cons k waiting ih =>
    have hset : (l ++ c).set k (leave target) = l.set k (leave target) ++ c :=
      List.set_append_left k _ (h.lt (List.mem_cons_self ..))
    have hrest : Waits waiting (l.set k (leave target)) :=
      Waits.set (fun k' hk' ↦ h k' (List.mem_cons_of_mem _ hk')) k target
    rw [resolve, List.foldl_cons, hset]
    exact ih hrest

theorem length_resolve (waiting : List Nat) (target : Int) (l : List Instr) :
    (resolve waiting target l).length = l.length := by
  induction waiting generalizing l with
  | nil => rfl
  | cons k waiting ih => exact (ih _).trans (List.length_set ..)

/-- One more jump waits, at the end of what is there. -/
theorem resolve_concat (h : Waits waiting l) (target : Int) (c : List Instr) (n : Int) :
    resolve (waiting ++ [l.length + c.length]) target (l ++ c ++ [leave n]) =
      resolve waiting target l ++ c ++ [leave target] := by
  have hlast : resolve (waiting ++ [l.length + c.length]) target (l ++ c ++ [leave n]) =
      (resolve waiting target (l ++ c ++ [leave n])).set (l.length + c.length) (leave target) := by
    rw [resolve, List.foldl_append]
    rfl
  have hlength : l.length + c.length = (resolve waiting target l ++ c).length := by
    rw [List.length_append, length_resolve]
  rw [hlast, List.append_assoc, resolve_append h, ← List.append_assoc, hlength,
    List.set_append_right _ _ (Nat.le_refl _), Nat.sub_self]
  rfl

theorem forM_patchHere (h : Waits waiting l) :
    (waiting = [] ∨ l.length ≤ Template.maxTarget →
        waiting.forM patchHere ⟨name, l.toArray⟩ =
          .ok ((), ⟨name, (resolve waiting l.length l).toArray⟩)) ∧
      (¬ (waiting = [] ∨ l.length ≤ Template.maxTarget) →
        waiting.forM patchHere ⟨name, l.toArray⟩ = .error .jumpTooFar) := by
  induction waiting generalizing l with
  | nil => exact ⟨fun _ ↦ rfl, fun hfar ↦ absurd (.inl rfl) hfar⟩
  | cons k waiting ih =>
    obtain ⟨target, hget⟩ := h k (List.mem_cons_self ..)
    have hfirst : patchHere k ⟨name, l.toArray⟩ = _ := patchHere_apply hget rfl
    have hrest : Waits waiting (l.set k (leave l.length)) :=
      Waits.set (fun k' hk' ↦ h k' (List.mem_cons_of_mem _ hk')) k l.length
    have hcons : (k :: waiting).forM patchHere = (patchHere k >>= fun _ ↦ waiting.forM patchHere) :=
      rfl
    rw [hcons, bind_apply, hfirst]
    by_cases hfar : Template.maxTarget < l.length
    · rw [if_pos hfar]
      refine ⟨fun hnear ↦ ?_, fun _ ↦ rfl⟩
      rcases hnear with hnil | hle
      · cases hnil
      · omega
    · rw [if_neg hfar]
      refine ⟨fun _ ↦ ?_, fun hnear ↦ absurd (.inr (Nat.le_of_not_lt hfar)) hnear⟩
      have hnear := (ih hrest).1 (.inr (by rw [List.length_set]; omega))
      rw [List.length_set] at hnear
      exact hnear

/-! ## Loops and branches -/

/-- The code of a loop at `at_`. -/
def loopCode (at_ : Nat) (note : String) (test body after : List Instr) : List Instr :=
  test ++ skip note (bodyAt at_ test + body.length + after.length + 1 : Nat) ::
    (body ++ after ++ [.noted (.jump at_) "loop"])

/-- A branch of an `if` at `at_`, up to the jump behind all of them. -/
def branchHead (at_ : Nat) (note : String) (cond body : List Instr) : List Instr :=
  cond ++ skip note (bodyAt at_ cond + body.length + 1 : Nat) :: body

theorem branchCode_eq (at_ : Nat) (note : String) (cond body rest : List Instr) :
    branchCode at_ note cond body rest = branchHead at_ note cond body ++
      leave (bodyAt at_ cond + body.length + 1 + rest.length : Nat) :: rest :=
  rfl

theorem length_branchHead (at_ : Nat) (note : String) (cond body : List Instr) :
    at_ + (branchHead at_ note cond body).length = bodyAt at_ cond + body.length := by
  simp [branchHead, bodyAt]
  omega

/-- A loop can be left if its end is not too far away, and then it can be repeated as well. -/
theorem jumpsWithin_loopCode {at_ n : Nat} {note : String} {test body after : List Instr}
    (htest : JumpsWithin n test) (hafter : JumpsWithin n after) :
    JumpsWithin n (loopCode at_ note test body after) ↔
      JumpsWithin n body ∧ bodyAt at_ test + body.length + after.length + 1 ≤ n := by
  rw [loopCode, jumpsWithin_append, jumpsWithin_cons, jumpsWithin_append, jumpsWithin_append]
  constructor
  · rintro ⟨-, hexit, ⟨hbody, -⟩, -⟩
    have hle := (hexit _ rfl).2
    exact ⟨hbody, by omega⟩
  · rintro ⟨hbody, hle⟩
    refine ⟨htest, fun target ↦ target_le hle, ⟨hbody, hafter⟩, ?_⟩
    exact jumpsWithin_cons.mpr ⟨fun target ↦ target_le (by simp only [bodyAt] at hle; omega),
      jumpsWithin_nil⟩

/-- A branch can be skipped and left if the end of the `if` is not too far away. -/
theorem jumpsWithin_branchCode_iff {at_ n : Nat} {note : String} {cond body rest : List Instr}
    (hcond : JumpsWithin n cond) :
    JumpsWithin n (branchCode at_ note cond body rest) ↔
      JumpsWithin n body ∧ JumpsWithin n rest ∧
        bodyAt at_ cond + body.length + 1 + rest.length ≤ n := by
  rw [branchCode, jumpsWithin_append, jumpsWithin_append, jumpsWithin_cons, jumpsWithin_cons]
  simp only [bodyAt]
  constructor
  · rintro ⟨⟨-, -, hbody⟩, hend, hrest⟩
    have hle := (hend _ rfl).2
    exact ⟨hbody, hrest, by omega⟩
  · rintro ⟨hbody, hrest, hle⟩
    exact ⟨⟨hcond, fun target ↦ target_le (by omega), hbody⟩, fun target ↦ target_le hle, hrest⟩

section
variable {note : String} {body : Emit α} {c b after : List Instr} {a : α}

/-- Where a body begins that is written behind a test. -/
theorem length_concat_skip (l c : List Instr) (note : String) (target : Int) :
    (l ++ c ++ [skip note target]).length = bodyAt l.length c := by
  simp [bodyAt, Nat.add_assoc]

/-- Where the code begins that follows a branch. -/
theorem length_concat_leave (l c b : List Instr) (note : String) (target : Int) :
    (l ++ branchHead l.length note c b ++ [leave target]).length =
      bodyAt l.length c + b.length + 1 := by
  rw [List.length_append, List.length_append, length_branchHead, List.length_singleton]

theorem loop_of_error {e : CodeError}
    (h : body ⟨name, (l ++ c ++ [skip note Template.unpatched]).toArray⟩ = .error e) :
    loop note (.ok c) body after ⟨name, l.toArray⟩ = .error e := by
  simp only [loop, bind_apply, get_apply, lift_apply, pushAll_apply, push_apply, h]

/-- A loop is left by a jump that is patched where its code ends. -/
theorem loop_apply
    (h : body ⟨name, (l ++ c ++ [skip note Template.unpatched]).toArray⟩ =
      .ok (a, ⟨name, (l ++ c ++ [skip note Template.unpatched] ++ b).toArray⟩)) :
    loop note (.ok c) body after ⟨name, l.toArray⟩ =
      if Template.maxTarget < bodyAt l.length c + b.length + after.length + 1 then
        .error .jumpTooFar
      else .ok (a, ⟨name, (l ++ loopCode l.length note c b after).toArray⟩) := by
  have hwritten : l ++ c ++ [skip note Template.unpatched] ++ b ++ after ++
      [Instr.noted (.jump l.length) "loop"] =
      l ++ c ++ skip note Template.unpatched ::
        (b ++ after ++ [Instr.noted (.jump l.length) "loop"]) := by
    simp
  have hexit : (l ++ c ++ skip note Template.unpatched ::
      (b ++ after ++ [Instr.noted (.jump l.length) "loop"])).length =
      bodyAt l.length c + b.length + after.length + 1 := by
    simp [bodyAt]
    omega
  simp only [loop, bind_apply, get_apply, lift_apply, pushAll_apply, push_apply, discard_apply,
    List.size_toArray, h, hwritten]
  rw [patchHere_between rfl, hexit]
  by_cases hfar : Template.maxTarget < bodyAt l.length c + b.length + after.length + 1
  · simp only [if_pos hfar]
  · simp only [if_neg hfar, loopCode, List.append_assoc]
    rfl

theorem branch_of_error {e : CodeError}
    (h : body ⟨name, (l ++ c ++ [skip note Template.unpatched]).toArray⟩ = .error e) :
    branch note (.ok c) body ⟨name, l.toArray⟩ = .error e := by
  simp only [branch, bind_apply, lift_apply, pushAll_apply, push_apply, h]

/-- The jump over a branch is patched where the branch ends. The jump behind it is left. -/
theorem branch_apply
    (h : body ⟨name, (l ++ c ++ [skip note Template.unpatched]).toArray⟩ =
      .ok (a, ⟨name, (l ++ c ++ [skip note Template.unpatched] ++ b).toArray⟩)) :
    branch note (.ok c) body ⟨name, l.toArray⟩ =
      if Template.maxTarget < bodyAt l.length c + b.length + 1 then .error .jumpTooFar
      else .ok ((l.length + (branchHead l.length note c b).length, a),
        ⟨name, (l ++ branchHead l.length note c b ++ [leave Template.unpatched]).toArray⟩) := by
  have hwritten : l ++ c ++ [skip note Template.unpatched] ++ b ++ [leave Template.unpatched] =
      l ++ c ++ skip note Template.unpatched :: (b ++ [leave Template.unpatched]) := by
    simp
  have hnext : (l ++ c ++ skip note Template.unpatched ::
      (b ++ [leave Template.unpatched])).length = bodyAt l.length c + b.length + 1 := by
    simp [bodyAt]
    omega
  have hlast : (l ++ c ++ [skip note Template.unpatched] ++ b).length =
      l.length + (branchHead l.length note c b).length := by
    rw [length_branchHead, List.length_append, length_concat_skip]
  simp only [branch, bind_apply, lift_apply, pushAll_apply, push_apply, h, hwritten, hlast]
  rw [patchHere_between rfl, hnext]
  by_cases hfar : Template.maxTarget < bodyAt l.length c + b.length + 1
  · simp only [if_pos hfar]
  · simp only [if_neg hfar, branchHead, List.append_assoc, List.cons_append]
    rfl

end

/-! ## What is written -/

/-- All jumps of the code that is written behind `l` can be made, and those that wait can go to its
end. -/
def Near (waiting : List Nat) (l c : List Instr) : Prop :=
  JumpsWithin Template.maxTarget c ∧
    (waiting = [] ∨ l.length + c.length ≤ Template.maxTarget)

/-- What is written behind `l` is the code that is generated, and the waiting jumps go to its end.
If a target is too far away, that is the error, and it may come before an error of the generator. -/
inductive Writes (name : String) (waiting : List Nat) (l : List Instr) :
    Except CodeError (α × Template) → Generated (List Instr × α) → Prop where
  | ok {c : List Instr} {a : α} (near : Near waiting l c) :
      Writes name waiting l
        (.ok (a, ⟨name, (resolve waiting ↑(l.length + c.length) l ++ c).toArray⟩)) (.ok (c, a))
  | tooFar {c : List Instr} {a : α} (far : ¬ Near waiting l c) :
      Writes name waiting l (.error .jumpTooFar) (.ok (c, a))
  | error (e : CodeError) : Writes name waiting l (.error e) (.error e)
  | cut (e : CodeError) : Writes name waiting l (.error .jumpTooFar) (.error e)

namespace Writes

/-- Code without jumps. -/
theorem plain {c : List Instr} (h : ∀ n, JumpsWithin n c) (a : α) :
    Writes name [] l (.ok (a, ⟨name, (l ++ c).toArray⟩)) (.ok (c, a)) :=
  .ok ⟨h _, .inl rfl⟩

/-- Code without jumps that is generated first. -/
theorem straight {c : Generated (List Instr)} {a : α}
    (h : ∀ c', c = .ok c' → ∀ n, JumpsWithin n c') :
    Writes name [] l
      ((do
        pushAll (← c)
        return a : Emit α) ⟨name, l.toArray⟩) do
      return (← c, a) := by
  simp only [bind_apply, lift_apply]
  cases c with
  | error e => exact .error e
  | ok c =>
    simp only [pushAll_apply]
    exact .plain (h c rfl) a

/-- Code without jumps that is generated first, and an instruction behind it. -/
theorem straightConcat {c : Generated (List Instr)} {i : Instr} {a : α}
    (h : ∀ c', c = .ok c' → ∀ n, JumpsWithin n c') (hi : i.op.target? = none) :
    Writes name [] l
      ((do
        pushAll (← c)
        discard (push i)
        return a : Emit α) ⟨name, l.toArray⟩) do
      return ((← c) ++ [i], a) := by
  simp only [bind_apply, lift_apply]
  cases c with
  | error e => exact .error e
  | ok c =>
    simp only [discard_apply, pushAll_apply, push_apply, List.append_assoc]
    exact .plain (fun n ↦ (h c rfl n).append (.single hi)) a

/-- Where a part cannot be written, the whole cannot be written. -/
theorem of_far {x : Generated (List Instr × α)} (h : ∀ c a, x = .ok (c, a) → ¬ Near waiting l c) :
    Writes name waiting l (.error .jumpTooFar) x := by
  cases x with
  | error e => exact .cut e
  | ok ca => exact .tooFar (h ca.1 ca.2 rfl)

/-- Code behind code that has been written. -/
theorem prepend {c : List Instr} {r : Except CodeError (β × Template)}
    {g : Generated (List Instr × β)} (hwaits : Waits waiting l)
    (hc : JumpsWithin Template.maxTarget c) (h : Writes name waiting (l ++ c) r g) :
    Writes name waiting l r do
      let (c', b) ← g
      return (c ++ c', b) := by
  have hnear : ∀ c', Near waiting (l ++ c) c' ↔ Near waiting l (c ++ c') := by
    intro c'
    rw [Near, Near, jumpsWithin_append, List.length_append, List.length_append, Nat.add_assoc]
    exact and_congr_left fun _ ↦ (and_iff_right hc).symm
  cases h with
  | error e => exact .error e
  | cut e => exact .cut e
  | tooFar far => exact .tooFar (mt (hnear _).mpr far)
  | @ok c' b near =>
    have hwrites : Writes name waiting l _ (.ok (c ++ c', b)) := .ok ((hnear c').mp near)
    rw [resolve_append hwaits, List.append_assoc, List.length_append]
    rw [List.length_append, ← Nat.add_assoc] at hwrites
    exact hwrites

/-- Code behind code. -/
theorem bind {x : Emit α} {f : α → Emit β} {g : Generated (List Instr × α)}
    {h : List Instr → α → Generated (List Instr × β)} (hwaits : Waits waiting l)
    (hx : Writes name [] l (x ⟨name, l.toArray⟩) g)
    (hf : ∀ c a, Writes name waiting (l ++ c) (f a ⟨name, (l ++ c).toArray⟩) (h c a)) :
    Writes name waiting l ((x >>= f) ⟨name, l.toArray⟩) do
      let (c, a) ← g
      let (c', b) ← h c a
      return (c ++ c', b) := by
  rw [bind_apply]
  generalize x ⟨name, l.toArray⟩ = r at hx
  cases hx with
  | error e => exact .error e
  | cut e => exact .cut e
  | @tooFar c a far =>
    refine of_far fun c'' b (hok : (h c a >>= fun cb ↦ return (c ++ cb.1, cb.2)) = _) ↦ ?_
    obtain ⟨⟨c', b⟩, -, hok⟩ := bind_eq_ok.mp hok
    cases hok
    exact fun hnear ↦ far ⟨(jumpsWithin_append.mp hnear.1).1, .inl rfl⟩
  | @ok c a near => exact prepend hwaits near.1 (hf c a)

theorem map {x : Emit α} {g : Generated (List Instr × α)} (f : α → β)
    (hx : Writes name waiting l (x ⟨name, l.toArray⟩) g) :
    Writes name waiting l ((x >>= fun a ↦ return f a) ⟨name, l.toArray⟩) do
      let (c, a) ← g
      return (c, f a) := by
  rw [bind_apply]
  generalize x ⟨name, l.toArray⟩ = r at hx
  cases hx with
  | error e => exact .error e
  | cut e => exact .cut e
  | tooFar far => exact .tooFar far
  | ok near => exact .ok near

/-- The waiting jumps are patched where the code ends. -/
theorem patch (hwaits : Waits waiting l) (a : α) :
    Writes name waiting l ((waiting.forM patchHere >>= fun _ ↦ return a) ⟨name, l.toArray⟩)
      (.ok ([], a)) := by
  rw [bind_apply]
  by_cases h : waiting = [] ∨ l.length ≤ Template.maxTarget
  · rw [(forM_patchHere hwaits).1 h]
    have hwrites : Writes name waiting l _ (.ok ([], a)) := .ok ⟨jumpsWithin_nil, h⟩
    rw [List.append_nil] at hwrites
    exact hwrites
  · rw [(forM_patchHere hwaits).2 h]
    exact .tooFar fun hnear ↦ h hnear.2

/-- The test, the body and the end of a loop. -/
theorem loop {note : String} {test : Generated (List Instr)} {body : Emit α}
    {after : List Instr} {g : Nat → Generated (List Instr × α)}
    (htest : ∀ c, test = .ok c → ∀ n, JumpsWithin n c) (hafter : ∀ n, JumpsWithin n after)
    (hbody : ∀ l, Writes name [] l (body ⟨name, l.toArray⟩) (g l.length)) :
    Writes name [] l (Emit.loop note test body after ⟨name, l.toArray⟩) do
      let c ← test
      let (b, a) ← g (bodyAt l.length c)
      return (loopCode l.length note c b after, a) := by
  cases test with
  | error e => exact .error e
  | ok c =>
    have hb := hbody (l ++ c ++ [skip note Template.unpatched])
    have hjumps : ∀ b, JumpsWithin Template.maxTarget (loopCode l.length note c b after) ↔ _ :=
      fun b ↦ jumpsWithin_loopCode (htest c rfl _) (hafter _)
    rw [length_concat_skip] at hb
    show Writes name [] l _ (g (bodyAt l.length c) >>= fun ba ↦ return _)
    generalize hr : body ⟨name, (l ++ c ++ [skip note Template.unpatched]).toArray⟩ = r at hb
    generalize g (bodyAt l.length c) = gb at hb
    cases hb with
    | error e => rw [loop_of_error hr]; exact .error e
    | cut e => rw [loop_of_error hr]; exact .cut e
    | @tooFar b a far =>
      rw [loop_of_error hr]
      exact .tooFar fun hnear ↦ far ⟨((hjumps b).mp hnear.1).1, .inl rfl⟩
    | @ok b a near =>
      rw [loop_apply hr]
      split
      · exact .tooFar fun hnear ↦ absurd ((hjumps b).mp hnear.1).2 (by omega)
      · exact .ok ⟨(hjumps b).mpr ⟨near.1, by omega⟩, .inl rfl⟩

/-- What follows a branch of an `if`. The jump behind the branch waits with the others. -/
theorem rest {note : String} {c b : List Instr} {x : Except CodeError (β × Template)}
    {g : Generated (List Instr × β)} (hwaits : Waits waiting l)
    (hc : JumpsWithin Template.maxTarget c) (hb : JumpsWithin Template.maxTarget b)
    (hx : Writes name (waiting ++ [l.length + (branchHead l.length note c b).length])
      (l ++ branchHead l.length note c b ++ [leave Template.unpatched]) x g) :
    Writes name waiting l x do
      let (r, a) ← g
      return (branchCode l.length note c b r, a) := by
  have hlength := length_concat_leave l c b note Template.unpatched
  have hjumps : ∀ r, JumpsWithin Template.maxTarget (branchCode l.length note c b r) ↔ _ :=
    fun r ↦ jumpsWithin_branchCode_iff hc
  cases hx with
  | error e => exact .error e
  | cut e => exact .cut e
  | @tooFar r a far =>
    refine .tooFar fun hnear ↦ far ?_
    obtain ⟨-, hr, hend⟩ := (hjumps r).mp hnear.1
    exact ⟨hr, .inr (by rw [hlength]; exact hend)⟩
  | @ok r a near =>
    have hend : l.length + (branchCode l.length note c b r).length =
        bodyAt l.length c + b.length + 1 + r.length := by
      rw [branchCode_eq, List.length_append, ← Nat.add_assoc, length_branchHead, List.length_cons]
      omega
    have hle : bodyAt l.length c + b.length + 1 + r.length ≤ Template.maxTarget := by
      rcases near.2 with hnil | hle
      · simp at hnil
      · rwa [hlength] at hle
    have hwrites : Writes name waiting l _ (.ok (branchCode l.length note c b r, a)) :=
      .ok ⟨(hjumps r).mpr ⟨hb, near.1, hle⟩, .inr (by rw [hend]; exact hle)⟩
    rw [hlength, resolve_concat hwaits, List.append_assoc, List.append_assoc]
    rw [hend, branchCode_eq] at hwrites
    exact hwrites

/-- A branch of an `if` and what follows it. -/
theorem branch {note : String} {cond : Generated (List Instr)} {body : Emit α}
    {f : α → List Nat → Emit β} {g : Nat → Generated (List Instr × α)}
    {h : Nat → α → Generated (List Instr × β)} (hwaits : Waits waiting l)
    (hcond : ∀ c, cond = .ok c → ∀ n, JumpsWithin n c)
    (hbody : ∀ l, Writes name [] l (body ⟨name, l.toArray⟩) (g l.length))
    (hrest : ∀ l waiting a, Waits waiting l →
      Writes name waiting l (f a waiting ⟨name, l.toArray⟩) (h l.length a)) :
    Writes name waiting l
      ((Emit.branch note cond body >>= fun (last, a) ↦ f a (waiting ++ [last]))
        ⟨name, l.toArray⟩) do
      let c ← cond
      let (b, a) ← g (bodyAt l.length c)
      let (r, a') ← h (bodyAt l.length c + b.length + 1) a
      return (branchCode l.length note c b r, a') := by
  rw [bind_apply]
  cases cond with
  | error e => exact .error e
  | ok c =>
    have hb := hbody (l ++ c ++ [skip note Template.unpatched])
    -- If the branch or the jump over it cannot be written, the whole cannot be written.
    have hjumps : ∀ b r, JumpsWithin Template.maxTarget (branchCode l.length note c b r) ↔ _ :=
      fun b r ↦ jumpsWithin_branchCode_iff (hcond c rfl _)
    have hfar : ∀ b a, (∀ r, ¬ JumpsWithin Template.maxTarget (branchCode l.length note c b r)) →
        Writes name waiting l (.error .jumpTooFar)
          (h (bodyAt l.length c + b.length + 1) a >>= fun ra ↦
            return (branchCode l.length note c b ra.1, ra.2)) := by
      refine fun b a hnone ↦ of_far fun c' a' hok hnear ↦ ?_
      obtain ⟨⟨r, a'⟩, -, hok⟩ := bind_eq_ok.mp hok
      cases hok
      exact hnone r hnear.1
    rw [length_concat_skip] at hb
    show Writes name waiting l _ (g (bodyAt l.length c) >>= fun ba ↦
      h (bodyAt l.length c + ba.1.length + 1) ba.2 >>= fun ra ↦
        return (branchCode l.length note c ba.1 ra.1, ra.2))
    generalize hx : body ⟨name, (l ++ c ++ [skip note Template.unpatched]).toArray⟩ = x at hb
    generalize g (bodyAt l.length c) = gb at hb
    cases hb with
    | error e => rw [branch_of_error hx]; exact .error e
    | cut e => rw [branch_of_error hx]; exact .cut e
    | @tooFar b a far =>
      rw [branch_of_error hx]
      exact hfar b a fun r hr ↦ far ⟨((hjumps b r).mp hr).1, .inl rfl⟩
    | @ok b a near =>
      rw [branch_apply hx]
      by_cases hnext : Template.maxTarget < bodyAt l.length c + b.length + 1
      · rw [if_pos hnext]
        refine hfar b a fun r hr ↦ ?_
        have hend := ((hjumps b r).mp hr).2.2
        omega
      · rw [if_neg hnext]
        have hwaits' : Waits (waiting ++ [l.length + (branchHead l.length note c b).length])
            (l ++ branchHead l.length note c b ++ [leave Template.unpatched]) := by
          intro k hk
          rcases List.mem_append.mp hk with hk | hk
          · exact (hwaits.append _).append _ k hk
          · obtain rfl := List.mem_singleton.mp hk
            exact ⟨Template.unpatched, by simp⟩
        have hr := hrest _ _ a hwaits'
        rw [length_concat_leave] at hr
        exact rest hwaits (hcond c rfl _) near.1 hr

end Writes

end Emit

/-! ## Statements and functions -/

section
variable {p : Program} {name : String}

theorem Stmt.code_whileLoop (t : SlotTable) (at_ : Nat) (cond : Expr) (body : List Stmt) :
    (Stmt.whileLoop cond body).code p t at_ =
      (do
        let c ← cond.code p t
        let (b, t') ← blockCode p t.push (bodyAt at_ c) body
        return (loopCode at_ "while" c b [], t')) >>= fun (c, t') ↦ return (c, t'.pop) := by
  rw [Stmt.code]
  simp only [bind_assoc, pure_bind]
  refine bind_congr fun c ↦ bind_congr fun (b, t') ↦ ?_
  simp [loopCode, skip]

theorem Stmt.code_forLoop {t : SlotTable} {first : Expr} {a : List Instr}
    (h : first.code p t.push = .ok a) (at_ : Nat) (x : Name) (last : Expr) (body : List Stmt) :
    let slot := t.push.next
    let inner := t.push.declare x.text
    let enter := a ++ [.noted (.store slot) ("for " ++ x.text)]
    (Stmt.forLoop x first last body).code p t at_ =
      ((do
        let c ← forTest p inner slot last
        let (b, t') ← blockCode p inner (bodyAt (at_ + enter.length) c) body
        return (loopCode (at_ + enter.length) "for exit" c b (forAfter slot x), t')) >>=
          fun (c, t') ↦ return (c, t'.pop)) >>= fun (c, t') ↦ return (enter ++ c, t') := by
  intro slot inner enter
  have hstart : at_ + a.length + 1 = at_ + enter.length := by simp [enter, Nat.add_assoc]
  have hok : ∀ {β : Type} (f : List Instr → Generated β), (Except.ok a >>= f) = f a :=
    fun _ ↦ rfl
  rw [Stmt.code, h, hok]
  simp only [forTest, bind_assoc, pure_bind, hstart]
  refine bind_congr fun l ↦ bind_congr fun (b, t') ↦ ?_
  simp only [loopCode, enter, List.append_assoc, List.cons_append, List.nil_append]
  rfl

theorem forTest_jumps {t : SlotTable} {slot : Nat} {last : Expr} {c : List Instr}
    (h : forTest p t slot last = .ok c) (n : Nat) : JumpsWithin n c := by
  obtain ⟨a, ha, h⟩ := bind_eq_ok.mp h
  cases h
  exact .append (.cons_of_none rfl (last.code_jumps n ha)) (.single rfl)

theorem forAfter_jumps (slot : Nat) (x : Name) (n : Nat) : JumpsWithin n (forAfter slot x) :=
  .cons_of_none rfl (.cons_of_none rfl (.cons_of_none rfl (.single rfl)))

mutual

/-- What is written for a statement is its code, with no jump left to wait. -/
theorem Stmt.writes_emit (t : SlotTable) : (stmt : Stmt) → ∀ l : List Instr,
    Writes name [] l (stmt.emit p t ⟨name, l.toArray⟩) (stmt.code p t l.length)
  | .var x type none, l =>
    .straightConcat (c := .ok [.plain (.push .null)]) (by rintro _ ⟨⟩ n; exact .single rfl) rfl
  | .var x type (some init), l =>
    .straightConcat (fun _ hinit n ↦ init.code_jumps n hinit) rfl
  | .assign target value, l => .straight fun _ hassign n ↦ assignCode_jumps n hassign
  | .ret pos value, l => .straightConcat (fun _ hvalue n ↦ value.code_jumps n hvalue) rfl
  | .call callee args, l => .straight fun _ hcall n ↦ callCode_jumps n hcall
  | .whileLoop cond body, l => by
    rw [Stmt.code_whileLoop]
    exact .map SlotTable.pop (.loop (g := fun n ↦ blockCode p t.push n body)
      (fun c hc n ↦ cond.code_jumps n hc) (fun n ↦ jumpsWithin_nil) (emitBlock_writes t.push body))
  | .forLoop x first last body, l => by
    let slot := t.push.next
    let inner := t.push.declare x.text
    cases hfirst : first.code p t.push with
    | error e =>
      simp only [Stmt.emit, Stmt.code, bind_apply, lift_apply, hfirst]
      exact .error e
    | ok a =>
      let enter := a ++ [Instr.noted (.store slot) ("for " ++ x.text)]
      have hwritten : (Stmt.forLoop x first last body).emit p t ⟨name, l.toArray⟩ =
          (loop "for exit" (forTest p inner slot last) (emitBlock p inner body)
            (forAfter slot x) >>= fun t' ↦ return t'.pop) ⟨name, (l ++ enter).toArray⟩ := by
        rw [Stmt.emit, hfirst]
        simp only [bind_apply, lift_apply, discard_apply, pushAll_apply, push_apply, slot, enter,
          List.append_assoc]
        rfl
      rw [hwritten, Stmt.code_forLoop hfirst, ← List.length_append]
      refine .prepend .nil ((first.code_jumps _ hfirst).append (.single rfl)) ?_
      exact .map SlotTable.pop (.loop (g := fun n ↦ blockCode p inner n body)
        (fun c hc ↦ forTest_jumps hc) (forAfter_jumps slot x) (emitBlock_writes inner body))
  | .ifElse cond body other, l =>
    .branch (g := fun n ↦ blockCode p t.push n body) (h := fun n a ↦ other.code p a.pop n)
      .nil (fun c hc n ↦ cond.code_jumps n hc) (emitBlock_writes t.push body)
      fun l' waiting a ↦ other.writes_emit a.pop l' waiting

/-- When the rest of an `if` has been written, all jumps behind its branches have their target. -/
theorem Else.writes_emit (t : SlotTable) : (other : Else) → ∀ (l : List Instr) (waiting : List Nat),
    Waits waiting l →
    Writes name waiting l (other.emit p t waiting ⟨name, l.toArray⟩) (other.code p t l.length)
  | .none, l, waiting, hwaits => .patch hwaits t
  | .block body, l, waiting, hwaits => by
    have hwrites := Writes.bind (h := fun _ a ↦ .ok ([], a.pop)) hwaits
      (emitBlock_writes t.push body l) fun c (a : SlotTable) ↦ .patch (hwaits.append c) a.pop
    have hcode : (Else.block body).code p t l.length =
        blockCode p t.push l.length body >>= fun bt ↦ .ok (bt.1 ++ [], bt.2.pop) := by
      simp only [List.append_nil]
      rfl
    rw [hcode]
    exact hwrites
  | .elseIf cond body other, l, waiting, hwaits =>
    .branch (g := fun n ↦ blockCode p t.push n body) (h := fun n a ↦ other.code p a.pop n)
      hwaits (fun c hc n ↦ cond.code_jumps n hc) (emitBlock_writes t.push body)
      fun l' waiting a ↦ other.writes_emit a.pop l' waiting

theorem emitBlock_writes (t : SlotTable) : (stmts : List Stmt) → ∀ l : List Instr,
    Writes name [] l (emitBlock p t stmts ⟨name, l.toArray⟩) (blockCode p t l.length stmts)
  | [], l => by
    have hwrites : Writes name [] l _ (.ok ([], t)) := .plain (fun n ↦ jumpsWithin_nil) t
    rw [List.append_nil] at hwrites
    exact hwrites
  | stmt :: stmts, l => by
    refine .bind (h := fun c a ↦ blockCode p a (l.length + c.length) stmts) .nil
      (stmt.writes_emit t l) fun c a ↦ ?_
    rw [← List.length_append]
    exact emitBlock_writes a stmts (l ++ c)

end

theorem mem_targets {l : List Instr} {target : Int} :
    target ∈ Template.targets ⟨name, l.toArray⟩ ↔ ∃ i ∈ l, i.op.target? = some target := by
  simp [Template.targets]

theorem finish_apply (l : List Instr) :
    finish ⟨name, l.toArray⟩ = .ok ((), ⟨name, (withReturn l).toArray⟩) := by
  have hreaches : (Template.lastOp? ⟨name, l.toArray⟩ ≠ some .ret ∨
      (l.length : Int) ∈ Template.targets ⟨name, l.toArray⟩) ↔ reachesEnd l = true := by
    simp [mem_targets, reachesEnd, Template.lastOp?]
  rw [finish, bind_apply, get_apply]
  simp only [List.size_toArray, hreaches, withReturn]
  split
  · exact pushAll_apply _
  · rfl

/-- What is written is what is generated. A target that is too far away may come up before another
error does, as it is then met where the jump is patched. -/
theorem FunDef.emit_eq_or (f : FunDef) :
    f.emit p = f.code p ∨ f.emit p = .error .jumpTooFar ∧ ∃ e, f.code p = .error e := by
  obtain ⟨params, t, hparams⟩ : ∃ params t,
      paramsCode SlotTable.empty.push f.params = (params, t) := ⟨_, _, rfl⟩
  have hwrites : Writes f.name.text [] params _ (blockCode p t params.length f.body) :=
    emitBlock_writes t f.body params
  have hcode : ∀ e, blockCode p t params.length f.body = .error e → f.code p = .error e := by
    intro e hbody
    rw [FunDef.code, hparams]
    simp only [hbody]
    rfl
  have hpushed : pushAll params (.empty f.name.text) = .ok ((), ⟨f.name.text, params.toArray⟩) :=
    pushAll_apply params
  rw [FunDef.emit, FunDef.write, hparams]
  simp only [bind_apply, discard_apply, hpushed]
  generalize emitBlock p t f.body ⟨f.name.text, params.toArray⟩ = r at hwrites
  generalize hbody : blockCode p t params.length f.body = g at hwrites
  cases hwrites with
  | error e => exact .inl (hcode e hbody).symm
  | cut e => exact .inr ⟨rfl, e, hcode e hbody⟩
  | tooFar far =>
    exact .inl ((FunDef.code_of_body hparams hbody).2 fun hc ↦ far ⟨hc, .inl rfl⟩).symm
  | ok near =>
    rw [(FunDef.code_of_body hparams hbody).1 near.1]
    simp only [resolve, List.foldl_nil, finish_apply]
    exact .inl rfl

theorem FunDef.emit_eq_ok_iff {f : FunDef} {t : Template} :
    f.emit p = .ok t ↔ f.code p = .ok t := by
  rcases f.emit_eq_or with heq | ⟨hemit, e, hcode⟩
  · rw [heq]
  · simp [hemit, hcode]

/-- Writing the functions of a program and patching their jumps gives the generated templates. -/
theorem Program.emit_eq_ok_iff {ts : List Template} : p.emit = .ok ts ↔ p.code = .ok ts := by
  constructor
  · intro h
    exact mapM_eq_ok_of_forall₂ ((forall₂_of_mapM_eq_ok h).imp fun _ _ ↦ FunDef.emit_eq_ok_iff.mp)
  · intro h
    exact mapM_eq_ok_of_forall₂ ((forall₂_of_mapM_eq_ok h).imp fun _ _ ↦ FunDef.emit_eq_ok_iff.mpr)

/-- For a checked program the errors are the same as well: nothing that is patched is not a jump, or
not there. -/
theorem Program.Checked.emit_eq (hp : p.Checked) : p.emit = p.code := by
  refine mapM_congr fun f hf ↦ ?_
  rcases f.emit_eq_or with heq | ⟨hemit, e, hcode⟩
  · exact heq
  · rw [hemit, hcode, FunDef.code_eq_error hp hf hcode]

end

end Pebble
