import Pebble.Proofs.CompilerCorrectness

/-!
# Where the statements of a function stand

The code of a function holds the code of each statement in it, however deep the statement is nested.
`Placed` finds the way to a statement: it names the variables in scope there and the index at which
the code of the statement begins, both computed as code generation does. That the code really is
there, and that the statement has been checked, is then a fact about all statements of a checked
program (`Placed.isGenerated`), and what is known of the code of one statement can be said of every
statement of every function.
-/

namespace Pebble

/-- Where the test of a counting loop at `n` begins, if its first value has the code `a`. -/
def testAt (n : Nat) (a : List Instr) : Nat :=
  n + a.length + 1

/-- The code that compares the variable of a counting loop with its last value. -/
def testCode (t : SlotTable) (l : List Instr) : List Instr :=
  .plain (.load t.push.next) :: l ++ [.plain (.order .le)]

/-- The code that counts the variable of a loop up. -/
def countCode (t : SlotTable) (var : Name) : List Instr :=
  [.plain (.load t.push.next), .plain (.push (.int 1)), .plain (.arith .add)] ++
    [.noted (.store t.push.next) (var.text ++ " += 1")]

/-- Where the body of a counting loop at `n` begins. -/
def loopBodyAt (t : SlotTable) (n : Nat) (a l : List Instr) : Nat :=
  bodyAt (testAt n a) (testCode t l)

/-- A part of a function body: statements up to the end of their block, or what follows a branch. -/
inductive Part where
  | stmts (ss : List Stmt)
  | other (e : Else)

/-- The part of `f` stands at this index of its code, with these variables. -/
inductive Placed (p : Program) (f : FunDef) : SlotTable → Nat → Part → Prop where
  | body {t : SlotTable} {params : List Instr}
      (hparams : paramsCode SlotTable.empty.push f.params = (params, t)) :
      Placed p f t params.length (.stmts f.body)
  | tail {t t' : SlotTable} {n : Nat} {c : List Instr} {stmt : Stmt} {ss : List Stmt}
      (h : Placed p f t n (.stmts (stmt :: ss))) (hc : stmt.code p t n = .ok (c, t')) :
      Placed p f t' (n + c.length) (.stmts ss)
  | whileBody {t : SlotTable} {n : Nat} {c : List Instr} {cond : Expr} {body ss : List Stmt}
      (h : Placed p f t n (.stmts (.whileLoop cond body :: ss))) (hc : cond.code p t = .ok c) :
      Placed p f t.push (bodyAt n c) (.stmts body)
  | forBody {t : SlotTable} {n : Nat} {a l : List Instr} {var : Name} {first last : Expr}
      {body ss : List Stmt} (h : Placed p f t n (.stmts (.forLoop var first last body :: ss)))
      (ha : first.code p t.push = .ok a) (hl : last.code p (t.push.declare var.text) = .ok l) :
      Placed p f (t.push.declare var.text) (loopBodyAt t n a l) (.stmts body)
  | ifBody {t : SlotTable} {n : Nat} {c : List Instr} {cond : Expr} {body ss : List Stmt}
      {other : Else} (h : Placed p f t n (.stmts (.ifElse cond body other :: ss)))
      (hc : cond.code p t = .ok c) : Placed p f t.push (bodyAt n c) (.stmts body)
  | ifOther {t t' : SlotTable} {n : Nat} {c b : List Instr} {cond : Expr} {body ss : List Stmt}
      {other : Else} (h : Placed p f t n (.stmts (.ifElse cond body other :: ss)))
      (hc : cond.code p t = .ok c) (hb : blockCode p t.push (bodyAt n c) body = .ok (b, t')) :
      Placed p f t'.pop (bodyAt n c + b.length + 1) (.other other)
  | elseBody {t : SlotTable} {n : Nat} {body : List Stmt}
      (h : Placed p f t n (.other (.block body))) : Placed p f t.push n (.stmts body)
  | elseIfBody {t : SlotTable} {n : Nat} {c : List Instr} {cond : Expr} {body : List Stmt}
      {other : Else} (h : Placed p f t n (.other (.elseIf cond body other)))
      (hc : cond.code p t = .ok c) : Placed p f t.push (bodyAt n c) (.stmts body)
  | elseIfOther {t t' : SlotTable} {n : Nat} {c b : List Instr} {cond : Expr} {body : List Stmt}
      {other : Else} (h : Placed p f t n (.other (.elseIf cond body other)))
      (hc : cond.code p t = .ok c) (hb : blockCode p t.push (bodyAt n c) body = .ok (b, t')) :
      Placed p f t'.pop (bodyAt n c + b.length + 1) (.other other)

/-- The part has been checked in some scopes, and its code stands at this index. -/
def Part.IsGenerated (p : Program) (result : TypeRef) (code : List Instr) (t : SlotTable)
    (n : Nat) : Part → Prop
  | .stmts ss => ∃ s s' c t', checkBlock p result s ss = .ok s' ∧
      blockCode p t n ss = .ok (c, t') ∧ StandsAt code n c
  | .other e => ∃ s s' c t', e.check p result s = .ok s' ∧ e.code p t n = .ok (c, t') ∧
      StandsAt code n c

section
variable {p : Program} {result : TypeRef} {code : List Instr} {t : SlotTable} {n : Nat}

/-- The first of some statements, and the statements behind it. -/
theorem Part.IsGenerated.head {stmt : Stmt} {ss : List Stmt}
    (h : (Part.stmts (stmt :: ss)).IsGenerated p result code t n) :
    ∃ s s' c t', stmt.check p result s = .ok s' ∧ stmt.code p t n = .ok (c, t') ∧
      StandsAt code n c ∧ (Part.stmts ss).IsGenerated p result code t' (n + c.length) := by
  obtain ⟨s, s', _, _, hcheck, hcode, hstands⟩ := h
  simp only [checkBlock, bind_eq_ok] at hcheck
  obtain ⟨s₁, hs₁, hrest⟩ := hcheck
  simp only [blockCode, bind_eq_ok, pure_eq_ok, Prod.mk.injEq] at hcode
  obtain ⟨⟨c₁, t₁⟩, hc₁, ⟨c₂, t₂⟩, hc₂, rfl, rfl⟩ := hcode
  obtain ⟨hstands₁, hstands₂⟩ := standsAt_append.mp hstands
  exact ⟨s, s₁, c₁, t₁, hs₁, hc₁, hstands₁, s₁, s', c₂, t₂, hrest, hc₂, hstands₂⟩

/-- Code that stands behind a condition and its jump. -/
theorem standsAt_bodyAt {c b rest : List Instr} {i : Instr}
    (h : StandsAt code n (c ++ i :: b ++ rest)) :
    StandsAt code (bodyAt n c) b ∧ StandsAt code (bodyAt n c + b.length) rest := by
  rw [List.append_assoc, List.cons_append] at h
  exact standsAt_append.mp (standsAt_cons.mp (standsAt_append.mp h).2).2

/-- The parts of the code of a counting loop: the first value is stored, the test leads on or out
of the loop, and behind the body the variable is counted up before the jump back to the test. -/
structure LoopStands (code : List Instr) (t : SlotTable) (n : Nat) (var : Name)
    (a l b : List Instr) : Prop where
  first : StandsAt code n (a ++ [.noted (.store t.push.next) ("for " ++ var.text)])
  test : StandsAt code (testAt n a) (testCode t l ++
    [.noted (.jumpUnless (loopBodyAt t n a l + b.length + 5 : Nat)) "for exit"])
  body : StandsAt code (loopBodyAt t n a l) b
  count : StandsAt code (loopBodyAt t n a l + b.length) (countCode t var)
  back : StandsAt code (loopBodyAt t n a l + b.length + 4) [.noted (.jump (testAt n a)) "loop"]

/-- The code of a counting loop, taken apart. -/
theorem Stmt.forLoop_code {var : Name} {first last : Expr} {body : List Stmt} {c : List Instr}
    {t' : SlotTable} (hc : (Stmt.forLoop var first last body).code p t n = .ok (c, t')) :
    ∃ a l b t₁, first.code p t.push = .ok a ∧
      last.code p (t.push.declare var.text) = .ok l ∧
      blockCode p (t.push.declare var.text) (loopBodyAt t n a l) body = .ok (b, t₁) ∧
      n + c.length = loopBodyAt t n a l + b.length + 5 ∧
      (StandsAt code n c → LoopStands code t n var a l b) := by
  simp only [Stmt.code, bind_eq_ok, pure_eq_ok, Prod.mk.injEq] at hc
  obtain ⟨a, ha, l, hl, ⟨b, t₁⟩, hb, rfl, -⟩ := hc
  refine ⟨a, l, b, t₁, ha, hl, ?_, ?_, fun hstands ↦ ?_⟩
  · rw [loopBodyAt, testAt, testCode]
    exact hb
  · simp only [loopBodyAt, testAt, testCode, bodyAt, List.length_append, List.length_cons,
      List.length_nil]
    omega
  · let store : Instr := .noted (.store t.push.next) ("for " ++ var.text)
    let leave : Instr := .noted (.jumpUnless (loopBodyAt t n a l + b.length + 5 : Nat)) "for exit"
    let back : Instr := .noted (.jump (testAt n a)) "loop"
    have hparts : StandsAt code n
        ((a ++ [store]) ++ ((testCode t l ++ [leave]) ++ (b ++ (countCode t var ++ [back])))) := by
      simpa only [store, leave, back, testCode, countCode, loopBodyAt, testAt, List.append_assoc,
        List.cons_append, List.nil_append] using hstands
    obtain ⟨hfirst, hparts⟩ := standsAt_append.mp hparts
    obtain ⟨htest, hparts⟩ := standsAt_append.mp hparts
    obtain ⟨hbody, hparts⟩ := standsAt_append.mp hparts
    obtain ⟨hcount, hback⟩ := standsAt_append.mp hparts
    simp only [List.length_append, List.length_singleton, ← Nat.add_assoc] at htest hbody
    simp only [List.length_append, List.length_singleton, ← Nat.add_assoc] at hcount hback
    exact ⟨hfirst, htest, hbody, hcount, hback⟩

/-- The two sides of a branch. Its condition has been checked before them. -/
theorem branch_isGenerated {s s₁ s' : Scopes} {note : String} {body : List Stmt} {other : Else}
    {c b rest : List Instr} {t' t'' : SlotTable}
    (hcheck : checkBlock p result s.push body = .ok s₁)
    (hother : other.check p result s₁.pop = .ok s')
    (hb : blockCode p t.push (bodyAt n c) body = .ok (b, t'))
    (hrest : other.code p t'.pop (bodyAt n c + b.length + 1) = .ok (rest, t''))
    (hstands : StandsAt code n (branchCode n note c b rest)) :
    (Part.stmts body).IsGenerated p result code t.push (bodyAt n c) ∧
      (Part.other other).IsGenerated p result code t'.pop (bodyAt n c + b.length + 1) := by
  rw [branchCode] at hstands
  obtain ⟨hbody, hjump⟩ := standsAt_bodyAt hstands
  exact ⟨⟨_, _, b, t', hcheck, hb, hbody⟩,
    ⟨_, _, rest, t'', hother, hrest, (standsAt_cons.mp hjump).2⟩⟩

end

/-- **Placement.** Every part of a function of a checked program has been checked, and its code
stands where code generation has placed it. -/
theorem Placed.isGenerated {p : Program} {f : FunDef} {template : Template} (hp : p.Checked)
    (hf : f ∈ p.functions) (ht : f.code p = .ok template) {t : SlotTable} {n : Nat} {part : Part}
    (h : Placed p f t n part) :
    part.IsGenerated p f.returnType template.instrs.toList t n := by
  -- The induction is on the way to the part; each step opens the check and the code of what is
  -- around it.
  induction h with
  | @body t params hparams =>
    obtain ⟨body, t', hbody, htemplate⟩ := FunDef.code_eq_ok ht
    obtain ⟨-, s', hcheck⟩ := FunDef.check_eq_ok (hp.functions f hf)
    rw [hparams] at hbody htemplate
    refine ⟨_, s', body, t', hcheck, hbody, ?_⟩
    have hstands := (standsAt_append.mp (standsAt_withReturn (params ++ body))).2
    rw [Nat.zero_add] at hstands
    rw [htemplate]
    exact hstands
  | tail _ hc ih =>
    obtain ⟨_, _, _, _, -, hc', -, hrest⟩ := ih.head
    cases hc.symm.trans hc'
    exact hrest
  | whileBody _ hc ih =>
    obtain ⟨s, s', c, t', hcheck, hcode, hstands, -⟩ := ih.head
    simp only [Stmt.check, bind_eq_ok] at hcheck
    obtain ⟨_, -, s₁, hbody, -⟩ := hcheck
    simp only [Stmt.code, bind_eq_ok, pure_eq_ok, Prod.mk.injEq] at hcode
    obtain ⟨c, hc', ⟨b, t₁⟩, hb, rfl, -⟩ := hcode
    cases hc.symm.trans hc'
    exact ⟨_, s₁, b, t₁, hbody, hb, (standsAt_bodyAt hstands).1⟩
  | forBody _ ha hl ih =>
    obtain ⟨s, s', c, t', hcheck, hcode, hstands, -⟩ := ih.head
    simp only [Stmt.check, bind_eq_ok] at hcheck
    obtain ⟨_, -, _, -, s₁, hbody, -⟩ := hcheck
    obtain ⟨a, l, b, t₁, ha', hl', hb, -, hparts⟩ := Stmt.forLoop_code hcode
    cases ha.symm.trans ha'
    cases hl.symm.trans hl'
    exact ⟨_, s₁, b, t₁, hbody, hb, (hparts hstands).body⟩
  | ifBody _ hc ih =>
    obtain ⟨s, s', c, t', hcheck, hcode, hstands, -⟩ := ih.head
    simp only [Stmt.check, bind_eq_ok] at hcheck
    obtain ⟨_, -, s₁, hbody, hother⟩ := hcheck
    simp only [Stmt.code, bind_eq_ok, pure_eq_ok, Prod.mk.injEq] at hcode
    obtain ⟨c, hc', ⟨b, t₁⟩, hb, ⟨rest, t₂⟩, hrest, rfl, -⟩ := hcode
    cases hc.symm.trans hc'
    exact (branch_isGenerated hbody hother hb hrest hstands).1
  | ifOther _ hc hb ih =>
    obtain ⟨s, s', c, t', hcheck, hcode, hstands, -⟩ := ih.head
    simp only [Stmt.check, bind_eq_ok] at hcheck
    obtain ⟨_, -, s₁, hbody, hother⟩ := hcheck
    simp only [Stmt.code, bind_eq_ok, pure_eq_ok, Prod.mk.injEq] at hcode
    obtain ⟨c, hc', ⟨b, t₁⟩, hb', ⟨rest, t₂⟩, hrest, rfl, -⟩ := hcode
    cases hc.symm.trans hc'
    cases hb.symm.trans hb'
    exact (branch_isGenerated hbody hother hb hrest hstands).2
  | elseBody _ ih =>
    obtain ⟨s, s', c, t', hcheck, hcode, hstands⟩ := ih
    simp only [Else.check, bind_eq_ok] at hcheck
    obtain ⟨s₁, hbody, -⟩ := hcheck
    simp only [Else.code, bind_eq_ok, pure_eq_ok, Prod.mk.injEq] at hcode
    obtain ⟨⟨b, t₁⟩, hb, rfl, -⟩ := hcode
    exact ⟨_, s₁, b, t₁, hbody, hb, hstands⟩
  | elseIfBody _ hc ih =>
    obtain ⟨s, s', c, t', hcheck, hcode, hstands⟩ := ih
    simp only [Else.check, bind_eq_ok] at hcheck
    obtain ⟨_, -, s₁, hbody, hother⟩ := hcheck
    simp only [Else.code, bind_eq_ok, pure_eq_ok, Prod.mk.injEq] at hcode
    obtain ⟨c, hc', ⟨b, t₁⟩, hb, ⟨rest, t₂⟩, hrest, rfl, -⟩ := hcode
    cases hc.symm.trans hc'
    exact (branch_isGenerated hbody hother hb hrest hstands).1
  | elseIfOther _ hc hb ih =>
    obtain ⟨s, s', c, t', hcheck, hcode, hstands⟩ := ih
    simp only [Else.check, bind_eq_ok] at hcheck
    obtain ⟨_, -, s₁, hbody, hother⟩ := hcheck
    simp only [Else.code, bind_eq_ok, pure_eq_ok, Prod.mk.injEq] at hcode
    obtain ⟨c, hc', ⟨b, t₁⟩, hb', ⟨rest, t₂⟩, hrest, rfl, -⟩ := hcode
    cases hc.symm.trans hc'
    cases hb.symm.trans hb'
    exact (branch_isGenerated hbody hother hb hrest hstands).2

end Pebble
