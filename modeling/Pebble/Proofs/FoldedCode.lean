import Pebble.Proofs.FoldedTypes
import Pebble.Proofs.FoldedValues
import Pebble.Proofs.Realizing

/-!
# The code of a folded program

The code of a program can be cut into blocks such that the code of the folded program has one
instruction for each block: the same instruction, a jump to the same block, or a push of the value
that the block computes.

## Blocks and jumps

Folding shortens code, so jumps have other targets. A jump of one code corresponds to a jump of the
other if both go to the start of the same block. `Starts` relates the indices at which a block
starts, and a block is fit with respect to such a relation, which grows as blocks are put together.
-/

namespace Pebble

/-! ## Code that computes constants -/

/-- `Pushes code vs`: the code leaves the values `vs`, the top one first, and does nothing else. -/
inductive Pushes : List Instr → List Value → Prop where
  | nil : Pushes [] []
  | step {code : List Instr} {op : Op} {args left vs : List Value} (h : Pushes code (args ++ vs))
      (hop : ∀ l, op.Does l args (pure left)) :
      Pushes (code ++ [.plain op]) (left ++ vs)

namespace Pushes

variable {c d : List Instr} {us vs : List Value}

theorem push (v : Value) : Pushes [.plain (.push v)] [v] :=
  step nil fun _ ↦ .push v

theorem append (hc : Pushes c vs) (hd : Pushes d us) : Pushes (c ++ d) (us ++ vs) := by
  induction hd with
  | nil => rwa [List.append_nil, List.nil_append]
  | @step code op args left us _ hop ih =>
    rw [List.append_assoc] at ih
    rw [← List.append_assoc, List.append_assoc left]
    exact step ih hop

theorem not {b : Bool} (h : Pushes c [.bool b]) : Pushes (c ++ [.plain .not]) [.bool !b] := by
  have h' : Pushes c ([.bool b] ++ []) := h
  exact h'.step fun _ ↦ .not (.bool b)

/-- The operands of an operator, in the order in which they are evaluated, and the operator. -/
theorem binary {op : BinOp} {l r v : Value} (hl : Pushes c [l]) (hr : Pushes d [r])
    (h : op.apply l r = pure v) :
    Pushes ((if op.isSwapped then d ++ c else c ++ d) ++ [.plain op.code]) [v] := by
  have hdoes : ∀ limits,
      op.code.Does limits (if op.isSwapped then [l, r] else [r, l]) (pure [v]) := by
    intro limits
    have := op.does limits l r
    rwa [h, pure_bind] at this
  have hoperands : Pushes (if op.isSwapped then d ++ c else c ++ d)
      ((if op.isSwapped then [l, r] else [r, l]) ++ []) := by
    split
    · exact hr.append hl
    · exact hl.append hr
  exact hoperands.step hdoes

end Pushes

theorem Op.Does.target?_eq_none {l : Limits} {op : Op} {args : List Value}
    {act : Act (List Value)} (h : op.Does l args act) : op.target? = none := by
  cases h <;> rfl

theorem Op.Does.ne_ret {l : Limits} {op : Op} {args : List Value} {act : Act (List Value)}
    (h : op.Does l args act) : op ≠ .ret := by
  rintro rfl
  cases h

theorem Pushes.target?_eq_none {c : List Instr} {vs : List Value} (h : Pushes c vs) :
    ∀ i ∈ c, i.op.target? = none := by
  induction h with
  | nil => exact List.forall_mem_nil _
  | step _ hop ih => exact List.forall_mem_append.mpr ⟨ih, List.forall_mem_singleton.mpr
      (hop .standard).target?_eq_none⟩

/-- Code that pushes something ends in an operation that is no return. -/
theorem Pushes.eq_append {c : List Instr} {vs : List Value} (h : Pushes c vs) (hvs : vs ≠ []) :
    ∃ c' i, c = c' ++ [i] ∧ i.op ≠ .ret := by
  cases h with
  | nil => exact absurd rfl hvs
  | step _ hop => exact ⟨_, _, rfl, (hop .standard).ne_ret⟩

/-! ## Blocks -/

/-- Code and the instruction that stands for it in folded code. -/
structure Block where
  code : List Instr
  folded : Instr

/-- The code of blocks one after the other. -/
def blocksCode (blocks : List Block) : List Instr := blocks.flatMap Block.code

/-- What stands for blocks one after the other. -/
def blocksFolded (blocks : List Block) : List Instr := blocks.map Block.folded

/-- What can stand for what, if jumps go to targets that are related by `σ`. -/
inductive Block.Fits (σ : Nat → Nat → Prop) : Block → Prop where
  | same {i : Instr} (h : i.op.target? = none) : Fits σ ⟨[i], i⟩
  | constant {code : List Instr} {v : Value} (h : Pushes code [v]) :
      Fits σ ⟨code, .plain (.push v)⟩
  | jump {a b : Nat} {note : Option String} (h : σ a b) :
      Fits σ ⟨[⟨.jump a, note⟩], ⟨.jump b, note⟩⟩
  | jumpUnless {a b : Nat} {note : Option String} (h : σ a b) :
      Fits σ ⟨[⟨.jumpUnless a, note⟩], ⟨.jumpUnless b, note⟩⟩

/-- A block, or the end, starts at `a` in code that stands at `n`, and at `b` in folded code that
stands at `n'`. -/
def Starts (n n' : Nat) (blocks : List Block) (a b : Nat) : Prop :=
  ∃ before after, blocks = before ++ after ∧ a = n + (blocksCode before).length ∧
    b = n' + before.length

/-- Code at `n` folds to code at `n'`. -/
def FoldsTo (n n' : Nat) (c c' : List Instr) : Prop :=
  ∃ blocks, c = blocksCode blocks ∧ c' = blocksFolded blocks ∧
    ∀ b ∈ blocks, b.Fits (Starts n n' blocks)

section
variable {n n' m m' : Nat} {c c' d d' : List Instr} {blocks : List Block}

@[simp] theorem blocksCode_append (bs bs' : List Block) :
    blocksCode (bs ++ bs') = blocksCode bs ++ blocksCode bs' :=
  List.flatMap_append

@[simp] theorem blocksCode_nil : blocksCode [] = [] := rfl

@[simp] theorem blocksCode_cons (b : Block) (bs : List Block) :
    blocksCode (b :: bs) = b.code ++ blocksCode bs := rfl

@[simp] theorem blocksFolded_append (bs bs' : List Block) :
    blocksFolded (bs ++ bs') = blocksFolded bs ++ blocksFolded bs' :=
  List.map_append

@[simp] theorem blocksFolded_nil : blocksFolded [] = [] := rfl

@[simp] theorem blocksFolded_cons (b : Block) (bs : List Block) :
    blocksFolded (b :: bs) = b.folded :: blocksFolded bs := rfl

@[simp] theorem length_blocksFolded (bs : List Block) : (blocksFolded bs).length = bs.length :=
  List.length_map ..

theorem Block.Fits.mono {σ σ' : Nat → Nat → Prop} {b : Block} (h : b.Fits σ)
    (hσ : ∀ a b, σ a b → σ' a b) : b.Fits σ' := by
  cases h with
  | same h => exact .same h
  | constant h => exact .constant h
  | jump h => exact .jump (hσ _ _ h)
  | jumpUnless h => exact .jumpUnless (hσ _ _ h)

/-- Blocks that fit where they stand fit in a larger piece of code. -/
theorem fits_within {all : List Block} (before after : List Block)
    (hall : all = before ++ blocks ++ after) (h : ∀ b ∈ blocks, b.Fits (Starts m m' blocks))
    (hm : m = n + (blocksCode before).length) (hm' : m' = n' + before.length) :
    ∀ b ∈ blocks, b.Fits (Starts n n' all) := by
  subst hall
  intro b hb
  refine (h b hb).mono ?_
  rintro a b ⟨first, rest, rfl, rfl, rfl⟩
  refine ⟨before ++ first, rest ++ after, by simp, ?_, ?_⟩
  · rw [blocksCode_append, List.length_append, hm, Nat.add_assoc]
  · rw [List.length_append, hm', Nat.add_assoc]

namespace FoldsTo

theorem same (h : ∀ i ∈ c, i.op.target? = none) : FoldsTo n n' c c := by
  refine ⟨c.map fun i ↦ ⟨[i], i⟩, ?_, ?_, ?_⟩
  · rw [blocksCode, List.flatMap_map]
    exact (List.flatMap_singleton' c).symm
  · rw [blocksFolded, List.map_map]
    exact (List.map_id c).symm
  · intro b hb
    obtain ⟨i, hi, rfl⟩ := List.mem_map.mp hb
    exact .same (h i hi)

theorem single {i : Instr} (h : i.op.target? = none) : FoldsTo n n' [i] [i] :=
  same (List.forall_mem_singleton.mpr h)

theorem constant {v : Value} (h : Pushes c [v]) : FoldsTo n n' c [.plain (.push v)] :=
  ⟨[⟨c, .plain (.push v)⟩], (List.append_nil c).symm, rfl,
    List.forall_mem_singleton.mpr (.constant h)⟩

theorem append (h : FoldsTo n n' c c') (h' : FoldsTo (n + c.length) (n' + c'.length) d d') :
    FoldsTo n n' (c ++ d) (c' ++ d') := by
  obtain ⟨bs, rfl, rfl, hbs⟩ := h
  obtain ⟨bs', rfl, rfl, hbs'⟩ := h'
  rw [length_blocksFolded] at hbs'
  refine ⟨bs ++ bs', by simp, by simp, List.forall_mem_append.mpr ⟨?_, ?_⟩⟩
  · exact fits_within [] bs' rfl hbs rfl rfl
  · exact fits_within bs [] (List.append_nil _).symm hbs' rfl rfl

/-- A condition, a jump behind the loop, a body, and a jump back. -/
theorem loop {exit exit' : Nat} {note note' : Option String} (hc : FoldsTo n n' c c')
    (hd : FoldsTo (n + c.length + 1) (n' + c'.length + 1) d d')
    (hexit : exit = n + c.length + 1 + d.length + 1)
    (hexit' : exit' = n' + c'.length + 1 + d'.length + 1) :
    FoldsTo n n' (c ++ ⟨.jumpUnless exit, note⟩ :: d ++ [⟨.jump n, note'⟩])
      (c' ++ ⟨.jumpUnless exit', note⟩ :: d' ++ [⟨.jump n', note'⟩]) := by
  obtain ⟨bs, rfl, rfl, hbs⟩ := hc
  obtain ⟨bs', rfl, rfl, hbs'⟩ := hd
  rw [length_blocksFolded] at hexit'
  rw [length_blocksFolded] at hbs' hexit'
  let out : Block := ⟨[⟨.jumpUnless exit, note⟩], ⟨.jumpUnless exit', note⟩⟩
  let back : Block := ⟨[⟨.jump n, note'⟩], ⟨.jump n', note'⟩⟩
  refine ⟨bs ++ [out] ++ bs' ++ [back], ?_, ?_, ?_⟩
  · simp [out, back]
  · simp [out, back]
  · simp only [List.forall_mem_append, List.forall_mem_singleton]
    refine ⟨⟨⟨?_, ?_⟩, ?_⟩, ?_⟩
    · exact fits_within [] ([out] ++ bs' ++ [back]) (by simp) hbs rfl rfl
    · refine .jumpUnless ⟨_, [], (List.append_nil _).symm, ?_, ?_⟩
      · simp [out, back]
        omega
      · simp
        omega
    · refine fits_within (bs ++ [out]) [back] rfl hbs' ?_ ?_
      · simp [out]
        omega
      · simp
        omega
    · exact .jump ⟨[], _, rfl, rfl, rfl⟩

/-- A branch and what follows it. -/
theorem branch {note : String} (hc : FoldsTo n n' c c')
    (hd : FoldsTo (bodyAt n c) (bodyAt n' c') d d') {r r' : List Instr}
    (hr : FoldsTo (bodyAt n c + d.length + 1) (bodyAt n' c' + d'.length + 1) r r') :
    FoldsTo n n' (branchCode n note c d r) (branchCode n' note c' d' r') := by
  obtain ⟨bs, rfl, rfl, hbs⟩ := hc
  obtain ⟨bs', rfl, rfl, hbs'⟩ := hd
  obtain ⟨bs₃, rfl, rfl, hbs₃⟩ := hr
  rw [bodyAt, bodyAt, length_blocksFolded] at hbs' hbs₃
  rw [length_blocksFolded] at hbs₃
  -- Where the other branch begins, in the code and in the folded code.
  let next := n + (blocksCode bs).length + 1 + (blocksCode bs').length + 1
  let next' := n' + bs.length + 1 + bs'.length + 1
  let skip : Block := ⟨[.noted (.jumpUnless next) note], .noted (.jumpUnless next') note⟩
  let done : Block := ⟨[.noted (.jump (next + (blocksCode bs₃).length : Nat)) "end if"],
    .noted (.jump (next' + bs₃.length : Nat)) "end if"⟩
  refine ⟨bs ++ [skip] ++ bs' ++ [done] ++ bs₃, ?_, ?_, ?_⟩
  · simp [branchCode, skip, done, next]
  · simp [branchCode, skip, done, next']
  · simp only [List.forall_mem_append, List.forall_mem_singleton]
    refine ⟨⟨⟨⟨?_, ?_⟩, ?_⟩, ?_⟩, ?_⟩
    · exact fits_within [] ([skip] ++ bs' ++ [done] ++ bs₃) (by simp) hbs rfl rfl
    · refine .jumpUnless ⟨bs ++ [skip] ++ bs' ++ [done], bs₃, rfl, ?_, ?_⟩
      · simp [skip, done, next]
        omega
      · simp [next']
        omega
    · refine fits_within (bs ++ [skip]) ([done] ++ bs₃) (by simp) hbs' ?_ ?_
      · simp [skip]
        omega
      · simp
        omega
    · refine .jump ⟨_, [], (List.append_nil _).symm, ?_, ?_⟩
      · simp [skip, done, next]
        omega
      · simp [next']
        omega
    · refine fits_within (bs ++ [skip] ++ bs' ++ [done]) [] (List.append_nil _).symm hbs₃ ?_ ?_
      · simp [skip, done]
        omega
      · simp
        omega

/-- A loop that counts: its variable is set before, and counted up after the body. -/
theorem counting {init init' test test' count : List Instr} {first : Instr}
    {start start' exit exit' : Nat} {note note' : Option String} (hinit : FoldsTo n n' init init')
    (hfirst : first.op.target? = none) (hcount : ∀ i ∈ count, i.op.target? = none)
    (hstart : start = n + init.length + 1) (hstart' : start' = n' + init'.length + 1)
    (htest : FoldsTo start start' test test')
    (hd : FoldsTo (bodyAt start test) (bodyAt start' test') d d')
    (hexit : exit = bodyAt start test + (d ++ count).length + 1)
    (hexit' : exit' = bodyAt start' test' + (d' ++ count).length + 1) :
    FoldsTo n n'
      (init ++ first :: test ++ ⟨.jumpUnless exit, note⟩ :: d ++ (count ++ [⟨.jump start, note'⟩]))
      (init' ++ first :: test' ++ ⟨.jumpUnless exit', note⟩ :: d' ++
        (count ++ [⟨.jump start', note'⟩])) := by
  have hcode : ∀ (init test d : List Instr) (out back : Instr),
      init ++ first :: test ++ out :: d ++ (count ++ [back]) =
        init ++ [first] ++ (test ++ out :: (d ++ count) ++ [back]) := by
    intro init test d out back
    simp
  rw [hcode, hcode]
  refine (hinit.append (.single hfirst)).append ?_
  rw [List.length_append, List.length_append, List.length_singleton, ← Nat.add_assoc,
    ← Nat.add_assoc, ← hstart, ← hstart']
  exact htest.loop (hd.append (.same hcount)) hexit hexit'

end FoldsTo

end

/-- Code without jumps folds wherever it stands. -/
def Folds (c c' : List Instr) : Prop := ∀ n n', FoldsTo n n' c c'

namespace Folds

variable {c c' d d' : List Instr}

theorem same (h : ∀ i ∈ c, i.op.target? = none) : Folds c c := fun _ _ ↦ .same h

theorem single {i : Instr} (h : i.op.target? = none) : Folds [i] [i] := fun _ _ ↦ .single h

theorem constant {v : Value} (h : Pushes c [v]) : Folds c [.plain (.push v)] :=
  fun _ _ ↦ .constant h

theorem append (h : Folds c c') (h' : Folds d d') : Folds (c ++ d) (c' ++ d') :=
  fun _ _ ↦ (h _ _).append (h' _ _)

theorem cons {i : Instr} (hi : i.op.target? = none) (h : Folds d d') : Folds (i :: d) (i :: d') :=
  (single hi).append h

end Folds

/-! ## Expressions -/

section
variable {p : Program} {t : SlotTable}

theorem Builtin.target?_eq_none (b : Builtin) : ∀ i ∈ b.code, i.op.target? = none := by
  cases b <;> decide

theorem Expr.code_binary {op : BinOp} {pos : Pos} {lhs rhs : Expr} {c : List Instr} :
    (Expr.binary op pos lhs rhs).code p t = .ok c ↔
      ∃ l r, lhs.code p t = .ok l ∧ rhs.code p t = .ok r ∧
        c = (if op.isSwapped then r ++ l else l ++ r) ++ [.plain op.code] := by
  rw [Expr.code]
  cases op.isSwapped with
  | true =>
    simp only [if_true, bind_eq_ok, pure_eq_ok]
    constructor
    · rintro ⟨r, hr, l, hl, rfl⟩
      exact ⟨l, r, hl, hr, rfl⟩
    · rintro ⟨l, r, hl, hr, rfl⟩
      exact ⟨r, hr, l, hl, rfl⟩
  | false =>
    simp only [Bool.false_eq_true, if_false, bind_eq_ok, pure_eq_ok]
    constructor
    · rintro ⟨l, hl, r, hr, rfl⟩
      exact ⟨l, r, hl, hr, rfl⟩
    · rintro ⟨l, r, hl, hr, rfl⟩
      exact ⟨l, hl, r, hr, rfl⟩

/-- What the code `c` of an expression has to do with the folded expression: it folds to the code
of that, and if that is a literal, it pushes its value. -/
def Expr.FoldsFrom (p : Program) (t : SlotTable) (c : List Instr) (e : Expr) : Prop :=
  (∃ c', e.code p.folded t = .ok c' ∧ Folds c c') ∧
    ∀ l, e.literal? = some l → Pushes c [.ofLiteral l]

theorem Expr.FoldsFrom.literal {l : Literal} {pos : Pos} {c : List Instr}
    (h : Pushes c [.ofLiteral l]) : (Expr.lit l pos).FoldsFrom p t c := by
  refine ⟨⟨_, rfl, .constant h⟩, ?_⟩
  rintro _ ⟨⟩
  exact h

theorem Expr.foldsFrom_foldedNot {pos : Pos} {operand : Expr} {c : List Instr}
    (h : operand.FoldsFrom p t c) :
    (Expr.foldedNot pos operand).FoldsFrom p t (c ++ [.plain .not]) := by
  obtain ⟨⟨c', hc', hfolds⟩, hlit⟩ := h
  unfold Expr.foldedNot
  split
  · exact .literal (hlit _ rfl).not
  · refine ⟨⟨c' ++ [.plain .not], ?_, hfolds.append (.single rfl)⟩, fun l hl ↦ by cases hl⟩
    rw [Expr.code, hc']
    rfl

theorem Expr.foldsFrom_foldedBinary {op : BinOp} {pos : Pos} {lhs rhs : Expr} {l r : List Instr}
    (hl : lhs.FoldsFrom p t l) (hr : rhs.FoldsFrom p t r) :
    (Expr.foldedBinary op pos lhs rhs).FoldsFrom p t
      ((if op.isSwapped then r ++ l else l ++ r) ++ [.plain op.code]) := by
  obtain ⟨⟨l', hl', hfoldsL⟩, hlitL⟩ := hl
  obtain ⟨⟨r', hr', hfoldsR⟩, hlitR⟩ := hr
  have hkeep : (Expr.binary op pos lhs rhs).FoldsFrom p t
      ((if op.isSwapped then r ++ l else l ++ r) ++ [.plain op.code]) := by
    refine ⟨⟨_, Expr.code_binary.mpr ⟨l', r', hl', hr', rfl⟩, ?_⟩, fun l hl ↦ by cases hl⟩
    refine Folds.append ?_ (.single (by cases op <;> rfl))
    split
    · exact hfoldsR.append hfoldsL
    · exact hfoldsL.append hfoldsR
  have hfold : ∀ a b v, lhs.literal? = some a → rhs.literal? = some b →
      foldBinary? op a b = some v →
      Pushes ((if op.isSwapped then r ++ l else l ++ r) ++ [.plain op.code]) [.ofLiteral v] :=
    fun a b v ha hb hv ↦ (hlitL a ha).binary (hlitR b hb) (foldBinary?_apply hv)
  generalize (if op.isSwapped then r ++ l else l ++ r) ++ [.plain op.code] = c at hkeep hfold ⊢
  unfold Expr.foldedBinary
  split
  · next a b ha hb =>
    split
    · next v hv => exact .literal (hfold a b v ha hb hv)
    · exact hkeep
  · exact hkeep

mutual

/-- The code of an expression folds to the code of the folded expression. -/
theorem Expr.foldsFrom_folded : (e : Expr) → ∀ {c : List Instr}, e.code p t = .ok c →
    e.folded.FoldsFrom p t c
  | .lit value pos, c, h => by
    cases h
    exact .literal (.push _)
  | .path path, c, h => by
    rw [Expr.code] at h
    rw [Expr.folded]
    exact ⟨path.code_folded h, fun l hl ↦ by cases hl⟩
  | .call callee args, c, h => by
    rw [Expr.code] at h
    rw [Expr.folded]
    -- A call does not fold to a literal, so there is nothing to say about its value.
    refine ⟨?_, fun l hl ↦ by cases hl⟩
    rw [Expr.code, foldedArgs_length]
    cases hb : Builtin.ofName? callee.text with
    | some b =>
      simp only [hb, bind_eq_ok, pure_eq_ok] at h ⊢
      obtain ⟨_, hlen, ca, hca, rfl⟩ := h
      obtain ⟨ca', hca', hfolds⟩ := argsCode_folded args hca
      exact ⟨_, ⟨_, hlen, ca', hca', rfl⟩, hfolds.append (.same b.target?_eq_none)⟩
    | none =>
      simp only [hb, bind_eq_ok, pure_eq_ok] at h ⊢
      obtain ⟨ca, hca, rfl⟩ := h
      obtain ⟨ca', hca', hfolds⟩ := argsCode_folded args hca
      exact ⟨_, ⟨ca', hca', rfl⟩, hfolds.append (.single rfl)⟩
  | .newStruct name args, c, h => by
    rw [Expr.code] at h
    rw [Expr.folded]
    refine ⟨?_, fun l hl ↦ by cases hl⟩
    rw [Expr.code, foldedArgs_length, show p.folded.fieldsOf = p.fieldsOf from rfl]
    simp only [bind_eq_ok] at h ⊢
    obtain ⟨fields, hfields, h⟩ := h
    by_cases hlen : fields.length ≠ args.length
    · rw [if_pos hlen] at h
      cases h
    · simp only [if_neg hlen, bind_eq_ok, pure_eq_ok] at h
      obtain ⟨cf, hcf, rfl⟩ := h
      obtain ⟨cf', hcf', hfolds⟩ := fieldsCode_folded fields args hcf
      refine ⟨_, ⟨fields, hfields, ?_⟩, .cons rfl hfolds⟩
      simp only [if_neg hlen, bind_eq_ok, pure_eq_ok]
      exact ⟨cf', hcf', rfl⟩
  | .newArray elem size, c, h => by
    simp only [Expr.code, bind_eq_ok, pure_eq_ok] at h
    obtain ⟨cs, hcs, rfl⟩ := h
    obtain ⟨⟨cs', hcs', hfolds⟩, -⟩ := size.foldsFrom_folded hcs
    rw [Expr.folded]
    refine ⟨⟨_, ?_, hfolds.append (.single rfl)⟩, fun l hl ↦ by cases hl⟩
    simp only [Expr.code, bind_eq_ok, pure_eq_ok]
    exact ⟨cs', hcs', rfl⟩
  | .not pos operand, c, h => by
    simp only [Expr.code, bind_eq_ok, pure_eq_ok] at h
    obtain ⟨co, hco, rfl⟩ := h
    rw [Expr.folded]
    exact Expr.foldsFrom_foldedNot (operand.foldsFrom_folded hco)
  | .binary op pos lhs rhs, c, h => by
    obtain ⟨l, r, hl, hr, rfl⟩ := Expr.code_binary.mp h
    rw [Expr.folded]
    exact Expr.foldsFrom_foldedBinary (lhs.foldsFrom_folded hl) (rhs.foldsFrom_folded hr)

theorem Path.code_folded : (path : Path) → ∀ {c : List Instr}, path.code p t = .ok c →
    ∃ c', path.folded.code p.folded t = .ok c' ∧ Folds c c'
  | .root name index, c, h => by
    simp only [Path.code, Path.folded, bind_eq_ok, pure_eq_ok] at h ⊢
    obtain ⟨slot, hslot, ci, hci, rfl⟩ := h
    obtain ⟨ci', hci', hfolds⟩ := indexCode_folded index hci
    exact ⟨_, ⟨slot, hslot, ci', hci', rfl⟩, .cons rfl hfolds⟩
  | .field base name index, c, h => by
    simp only [Path.code, Path.folded, bind_eq_ok, pure_eq_ok] at h ⊢
    obtain ⟨cb, hcb, ci, hci, rfl⟩ := h
    obtain ⟨cb', hcb', hbase⟩ := base.code_folded hcb
    obtain ⟨ci', hci', hfolds⟩ := indexCode_folded index hci
    exact ⟨_, ⟨cb', hcb', ci', hci', rfl⟩, hbase.append (.cons rfl hfolds)⟩

theorem indexCode_folded : (index : Option Expr) → ∀ {c : List Instr},
    indexCode p t index = .ok c →
      ∃ c', indexCode p.folded t (foldedIndex index) = .ok c' ∧ Folds c c'
  | none, c, h => by
    cases h
    exact ⟨[], rfl, .same (List.forall_mem_nil _)⟩
  | some index, c, h => by
    simp only [indexCode, foldedIndex, bind_eq_ok, pure_eq_ok] at h ⊢
    obtain ⟨ci, hci, rfl⟩ := h
    obtain ⟨⟨ci', hci', hfolds⟩, -⟩ := index.foldsFrom_folded hci
    exact ⟨_, ⟨ci', hci', rfl⟩, hfolds.append (.single rfl)⟩

theorem argsCode_folded : (args : List Expr) → ∀ {c : List Instr},
    argsCode p t args = .ok c → ∃ c', argsCode p.folded t (foldedArgs args) = .ok c' ∧ Folds c c'
  | [], c, h => by
    cases h
    exact ⟨[], rfl, .same (List.forall_mem_nil _)⟩
  | arg :: args, c, h => by
    simp only [argsCode, foldedArgs, bind_eq_ok, pure_eq_ok] at h ⊢
    obtain ⟨later, hlater, ca, hca, rfl⟩ := h
    obtain ⟨later', hlater', hfolds⟩ := argsCode_folded args hlater
    obtain ⟨⟨ca', hca', hfolds'⟩, -⟩ := arg.foldsFrom_folded hca
    exact ⟨_, ⟨later', hlater', ca', hca', rfl⟩, hfolds.append hfolds'⟩

theorem fieldsCode_folded : (fields : List String) → (args : List Expr) → ∀ {c : List Instr},
    fieldsCode p t fields args = .ok c →
    ∃ c', fieldsCode p.folded t fields (foldedArgs args) = .ok c' ∧ Folds c c'
  | [], [], c, h | [], _ :: _, c, h | _ :: _, [], c, h => by
    cases h
    exact ⟨[], rfl, .same (List.forall_mem_nil _)⟩
  | field :: fields, arg :: args, c, h => by
    simp only [fieldsCode, foldedArgs, bind_eq_ok, pure_eq_ok] at h ⊢
    obtain ⟨ca, hca, cr, hcr, rfl⟩ := h
    obtain ⟨⟨ca', hca', hfolds⟩, -⟩ := arg.foldsFrom_folded hca
    obtain ⟨cr', hcr', hrest⟩ := fieldsCode_folded fields args hcr
    exact ⟨_, ⟨ca', hca', cr', hcr', rfl⟩,
      (Folds.cons rfl (hfolds.append (.single rfl))).append hrest⟩

end

/-! ## Statements -/

theorem Expr.code_folded {e : Expr} {c : List Instr} (h : e.code p t = .ok c) :
    ∃ c', e.folded.code p.folded t = .ok c' ∧ Folds c c' :=
  (e.foldsFrom_folded h).1

theorem assignCode_folded {value : Expr} {target : Path} {c : List Instr}
    (h : assignCode p t value target = .ok c) :
    ∃ c', assignCode p.folded t value.folded target.folded = .ok c' ∧ Folds c c' := by
  match target with
  | .root name none =>
    simp only [assignCode, Path.folded, foldedIndex, bind_eq_ok, pure_eq_ok] at h ⊢
    obtain ⟨slot, hslot, cv, hcv, rfl⟩ := h
    obtain ⟨cv', hcv', hvalue⟩ := Expr.code_folded hcv
    exact ⟨_, ⟨slot, hslot, cv', hcv', rfl⟩, hvalue.append (.single rfl)⟩
  | .root name (some index) =>
    simp only [assignCode, Path.folded, foldedIndex, bind_eq_ok, pure_eq_ok] at h ⊢
    obtain ⟨slot, hslot, ci, hci, cv, hcv, rfl⟩ := h
    obtain ⟨ci', hci', hindex⟩ := Expr.code_folded hci
    obtain ⟨cv', hcv', hvalue⟩ := Expr.code_folded hcv
    exact ⟨_, ⟨slot, hslot, ci', hci', cv', hcv', rfl⟩,
      ((Folds.cons rfl hindex).append hvalue).append (.single rfl)⟩
  | .field base name none =>
    simp only [assignCode, Path.folded, foldedIndex, bind_eq_ok, pure_eq_ok] at h ⊢
    obtain ⟨cb, hcb, cv, hcv, rfl⟩ := h
    obtain ⟨cb', hcb', hbase⟩ := base.code_folded hcb
    obtain ⟨cv', hcv', hvalue⟩ := Expr.code_folded hcv
    exact ⟨_, ⟨cb', hcb', cv', hcv', rfl⟩, (hbase.append hvalue).append (.single rfl)⟩
  | .field base name (some index) =>
    simp only [assignCode, Path.folded, foldedIndex, bind_eq_ok, pure_eq_ok] at h ⊢
    obtain ⟨cb, hcb, ci, hci, cv, hcv, rfl⟩ := h
    obtain ⟨cb', hcb', hbase⟩ := base.code_folded hcb
    obtain ⟨ci', hci', hindex⟩ := Expr.code_folded hci
    obtain ⟨cv', hcv', hvalue⟩ := Expr.code_folded hcv
    exact ⟨_, ⟨cb', hcb', ci', hci', cv', hcv', rfl⟩,
      ((hbase.append (.cons rfl hindex)).append hvalue).append (.single rfl)⟩

theorem callCode_folded {callee : Name} {args : List Expr} {c : List Instr}
    (h : callCode p t callee args = .ok c) :
    ∃ c', callCode p.folded t callee (foldedArgs args) = .ok c' ∧ Folds c c' := by
  rw [callCode] at h ⊢
  by_cases hprint : Builtin.ofName? callee.text = some .print
  · simp only [if_pos hprint, foldedArgs_length, bind_eq_ok, pure_eq_ok] at h ⊢
    obtain ⟨_, hlen, ca, hca, rfl⟩ := h
    obtain ⟨ca', hca', hargs⟩ := argsCode_folded args hca
    exact ⟨_, ⟨_, hlen, ca', hca', rfl⟩, hargs.append (.single rfl)⟩
  · simp only [if_neg hprint, bind_eq_ok, pure_eq_ok] at h ⊢
    obtain ⟨ce, hce, rfl⟩ := h
    obtain ⟨ce', hce', hcall⟩ := Expr.code_folded hce
    rw [Expr.folded] at hce'
    exact ⟨_, ⟨ce', hce', rfl⟩, hcall.append (.single rfl)⟩

mutual

/-- The code of a statement folds to the code of the folded statement. -/
theorem Stmt.code_folded {t t' : SlotTable} {n : Nat} {c : List Instr} (n' : Nat) :
    (stmt : Stmt) → stmt.code p t n = .ok (c, t') →
    ∃ c', stmt.folded.code p.folded t n' = .ok (c', t') ∧ FoldsTo n n' c c'
  | .var name type none, h => by
    cases h
    exact ⟨_, rfl, (Folds.cons rfl (.single rfl)) n n'⟩
  | .var name type (some init), h => by
    simp only [Stmt.folded, Option.map_some, Stmt.code, bind_eq_ok, pure_eq_ok, Prod.mk.injEq]
      at h ⊢
    obtain ⟨cv, hcv, rfl, rfl⟩ := h
    obtain ⟨cv', hcv', hvalue⟩ := Expr.code_folded hcv
    exact ⟨_, ⟨cv', hcv', rfl, rfl⟩, (hvalue.append (.single rfl)) n n'⟩
  | .assign target value, h => by
    simp only [Stmt.folded, Stmt.code, bind_eq_ok, pure_eq_ok, Prod.mk.injEq] at h ⊢
    obtain ⟨ca, hca, rfl, rfl⟩ := h
    obtain ⟨ca', hca', hassign⟩ := assignCode_folded hca
    exact ⟨_, ⟨ca', hca', rfl, rfl⟩, hassign n n'⟩
  | .ret pos value, h => by
    simp only [Stmt.folded, Stmt.code, bind_eq_ok, pure_eq_ok, Prod.mk.injEq] at h ⊢
    obtain ⟨cv, hcv, rfl, rfl⟩ := h
    obtain ⟨cv', hcv', hvalue⟩ := Expr.code_folded hcv
    exact ⟨_, ⟨cv', hcv', rfl, rfl⟩, (hvalue.append (.single rfl)) n n'⟩
  | .call callee args, h => by
    simp only [Stmt.folded, Stmt.code, bind_eq_ok, pure_eq_ok, Prod.mk.injEq] at h ⊢
    obtain ⟨ca, hca, rfl, rfl⟩ := h
    obtain ⟨ca', hca', hcall⟩ := callCode_folded hca
    exact ⟨_, ⟨ca', hca', rfl, rfl⟩, hcall n n'⟩
  | .whileLoop cond body, h => by
    simp only [Stmt.folded, Stmt.code, bind_eq_ok, pure_eq_ok, Prod.mk.injEq] at h ⊢
    obtain ⟨cc, hcc, ⟨cb, t₁⟩, hcb, rfl, rfl⟩ := h
    obtain ⟨cc', hcc', hcond⟩ := Expr.code_folded hcc
    -- The folded body begins behind the folded condition, which can be shorter.
    obtain ⟨cb', hcb', hbody⟩ := blockCode_folded (bodyAt n' cc') body hcb
    exact ⟨_, ⟨cc', hcc', ⟨cb', t₁⟩, hcb', rfl, rfl⟩, (hcond n n').loop hbody rfl rfl⟩
  | .forLoop var first last body, h => by
    simp only [Stmt.folded, Stmt.code, bind_eq_ok, pure_eq_ok, Prod.mk.injEq] at h ⊢
    obtain ⟨ca, hca, cl, hcl, ⟨cb, t₁⟩, hcb, rfl, rfl⟩ := h
    obtain ⟨ca', hca', hfirst⟩ := Expr.code_folded hca
    obtain ⟨cl', hcl', hlast⟩ := Expr.code_folded hcl
    obtain ⟨cb', hcb', hbody⟩ := blockCode_folded
      (bodyAt (n' + ca'.length + 1) (.plain (.load t.push.next) :: cl' ++ [.plain (.order .le)]))
      body hcb
    refine ⟨_, ⟨ca', hca', cl', hcl', ⟨cb', t₁⟩, hcb', rfl, rfl⟩, ?_⟩
    have htest : Folds (.plain (.load t.push.next) :: cl ++ [.plain (.order .le)])
        (.plain (.load t.push.next) :: cl' ++ [.plain (.order .le)]) :=
      (Folds.cons rfl hlast).append (.single rfl)
    have hcount : ∀ i ∈ [Instr.plain (.load t.push.next), Instr.plain (.push (.int 1)),
        Instr.plain (.arith .add), Instr.noted (.store t.push.next) (var.text ++ " += 1")],
        i.op.target? = none := by
      simp [Instr.plain, Instr.noted, Op.target?]
    exact (hfirst n n').counting rfl hcount rfl rfl (htest _ _) hbody
      (by rw [List.length_append]; rfl) (by rw [List.length_append]; rfl)
  | .ifElse cond body other, h => by
    simp only [Stmt.folded, Stmt.code, bind_eq_ok, pure_eq_ok, Prod.mk.injEq] at h ⊢
    obtain ⟨cc, hcc, ⟨cb, t₁⟩, hcb, ⟨cr, t₂⟩, hcr, rfl, rfl⟩ := h
    obtain ⟨cc', hcc', hcond⟩ := Expr.code_folded hcc
    obtain ⟨cb', hcb', hbody⟩ := blockCode_folded (bodyAt n' cc') body hcb
    obtain ⟨cr', hcr', hrest⟩ := other.code_folded (bodyAt n' cc' + cb'.length + 1) hcr
    exact ⟨_, ⟨cc', hcc', ⟨cb', t₁⟩, hcb', ⟨cr', t₂⟩, hcr', rfl, rfl⟩,
      (hcond n n').branch hbody hrest⟩

theorem Else.code_folded {t t' : SlotTable} {n : Nat} {c : List Instr} (n' : Nat) :
    (other : Else) → other.code p t n = .ok (c, t') →
    ∃ c', other.folded.code p.folded t n' = .ok (c', t') ∧ FoldsTo n n' c c'
  | .none, h => by
    cases h
    exact ⟨[], rfl, .same (List.forall_mem_nil _)⟩
  | .block body, h => by
    simp only [Else.folded, Else.code, bind_eq_ok, pure_eq_ok, Prod.mk.injEq] at h ⊢
    obtain ⟨⟨cb, t₁⟩, hcb, rfl, rfl⟩ := h
    obtain ⟨cb', hcb', hbody⟩ := blockCode_folded n' body hcb
    exact ⟨_, ⟨⟨cb', t₁⟩, hcb', rfl, rfl⟩, hbody⟩
  | .elseIf cond body other, h => by
    simp only [Else.folded, Else.code, bind_eq_ok, pure_eq_ok, Prod.mk.injEq] at h ⊢
    obtain ⟨cc, hcc, ⟨cb, t₁⟩, hcb, ⟨cr, t₂⟩, hcr, rfl, rfl⟩ := h
    obtain ⟨cc', hcc', hcond⟩ := Expr.code_folded hcc
    obtain ⟨cb', hcb', hbody⟩ := blockCode_folded (bodyAt n' cc') body hcb
    obtain ⟨cr', hcr', hrest⟩ := other.code_folded (bodyAt n' cc' + cb'.length + 1) hcr
    exact ⟨_, ⟨cc', hcc', ⟨cb', t₁⟩, hcb', ⟨cr', t₂⟩, hcr', rfl, rfl⟩,
      (hcond n n').branch hbody hrest⟩

theorem blockCode_folded {t t' : SlotTable} {n : Nat} {c : List Instr} (n' : Nat) :
    (stmts : List Stmt) → blockCode p t n stmts = .ok (c, t') →
    ∃ c', blockCode p.folded t n' (foldedBlock stmts) = .ok (c', t') ∧ FoldsTo n n' c c'
  | [], h => by
    cases h
    exact ⟨[], rfl, .same (List.forall_mem_nil _)⟩
  | stmt :: stmts, h => by
    simp only [foldedBlock, blockCode, bind_eq_ok, pure_eq_ok, Prod.mk.injEq] at h ⊢
    obtain ⟨⟨cs, t₁⟩, hcs, ⟨cr, t₂⟩, hcr, rfl, rfl⟩ := h
    obtain ⟨cs', hcs', hstmt⟩ := stmt.code_folded n' hcs
    obtain ⟨cr', hcr', hrest⟩ := blockCode_folded (n' + cs'.length) stmts hcr
    exact ⟨_, ⟨⟨cs', t₁⟩, hcs', ⟨cr', t₂⟩, hcr', rfl, rfl⟩, hstmt.append hrest⟩

end

/-! ## Functions -/

/-- A block either has no jumps on both sides, or it is one jump that goes to related targets. -/
theorem Block.Fits.targets {σ : Nat → Nat → Prop} {b : Block} (h : b.Fits σ) :
    ((∀ i ∈ b.code, i.op.target? = none) ∧ b.folded.op.target? = none) ∨
      ∃ i, ∃ target target' : Nat, b.code = [i] ∧ i.op.target? = some (target : Int) ∧
        b.folded.op.target? = some (target' : Int) ∧ σ target target' := by
  cases h with
  | same h => exact .inl ⟨List.forall_mem_singleton.mpr h, h⟩
  | constant h => exact .inl ⟨h.target?_eq_none, rfl⟩
  | jump h => exact .inr ⟨_, _, _, rfl, rfl, rfl, h⟩
  | jumpUnless h => exact .inr ⟨_, _, _, rfl, rfl, rfl, h⟩

/-- A block and what stands for it end in instructions of which both or none return. -/
theorem Block.Fits.last {σ : Nat → Nat → Prop} {b : Block} (h : b.Fits σ) :
    ∃ c i, b.code = c ++ [i] ∧ (i.op = .ret ↔ b.folded.op = .ret) := by
  cases h with
  | @same i h => exact ⟨[], i, rfl, Iff.rfl⟩
  | constant h =>
    obtain ⟨c, i, rfl, hi⟩ := h.eq_append (List.cons_ne_nil _ _)
    exact ⟨c, i, rfl, fun h ↦ absurd h hi, fun h ↦ by cases h⟩
  | jump h => exact ⟨[], _, rfl, by simp⟩
  | jumpUnless h => exact ⟨[], _, rfl, by simp⟩

section
variable {σ : Nat → Nat → Prop} {bs : List Block} {c c' : List Instr}

theorem length_le_blocksCode (h : ∀ b ∈ bs, b.Fits σ) : bs.length ≤ (blocksCode bs).length := by
  induction bs with
  | nil => exact Nat.le_refl _
  | cons b bs ih =>
    obtain ⟨hb, hbs⟩ := List.forall_mem_cons.mp h
    obtain ⟨c, i, hcode, -⟩ := hb.last
    have := ih hbs
    simp only [blocksCode_cons, hcode, List.length_append, List.length_cons, List.length_nil]
    omega

/-- A jump goes to the end of the code just if the corresponding jump does. -/
theorem Starts.end_iff (h : ∀ b ∈ bs, b.Fits σ) {target target' : Nat}
    (hstarts : Starts 0 0 bs target target') :
    target = (blocksCode bs).length ↔ target' = bs.length := by
  obtain ⟨before, after, rfl, rfl, rfl⟩ := hstarts
  have hafter := length_le_blocksCode (List.forall_mem_append.mp h).2
  simp only [blocksCode_append, List.length_append, Nat.zero_add]
  constructor
  · intro hend
    omega
  · intro hend
    have hnil : after = [] := List.length_eq_zero_iff.mp (by omega)
    subst hnil
    rfl

theorem Starts.le (h : ∀ b ∈ bs, b.Fits σ) {target target' : Nat}
    (hstarts : Starts 0 0 bs target target') : target' ≤ target := by
  obtain ⟨before, after, rfl, rfl, rfl⟩ := hstarts
  have := length_le_blocksCode (List.forall_mem_append.mp h).1
  omega

/-- Where a jump of folded code goes, a jump of the code goes at least as far. -/
theorem FoldsTo.target_le (h : FoldsTo 0 0 c c') {i' : Instr} {target' : Int} (hi' : i' ∈ c')
    (htarget' : i'.op.target? = some target') :
    ∃ i ∈ c, ∃ target, i.op.target? = some target ∧ target' ≤ target := by
  obtain ⟨bs, rfl, rfl, hbs⟩ := h
  obtain ⟨b, hb, rfl⟩ := List.mem_map.mp hi'
  rcases (hbs b hb).targets with ⟨-, hnone⟩ | ⟨i, a, a', hcode, ha, ha', hstarts⟩
  · rw [hnone] at htarget'
    cases htarget'
  · rw [ha'] at htarget'
    cases htarget'
    have hi : i ∈ b.code := by
      rw [hcode]
      exact List.mem_singleton.mpr rfl
    exact ⟨i, List.mem_flatMap.mpr ⟨b, hb, hi⟩, a, ha, Int.ofNat_le.mpr (hstarts.le hbs)⟩

/-- Folding keeps whether a jump goes behind the code. -/
theorem FoldsTo.jumpsBehind_iff (h : FoldsTo 0 0 c c') :
    (∃ i ∈ c', i.op.target? = some (c'.length : Int)) ↔
      ∃ i ∈ c, i.op.target? = some (c.length : Int) := by
  obtain ⟨bs, rfl, rfl, hbs⟩ := h
  rw [length_blocksFolded]
  constructor
  · rintro ⟨i', hi', htarget'⟩
    obtain ⟨b, hb, rfl⟩ := List.mem_map.mp hi'
    rcases (hbs b hb).targets with ⟨-, hnone⟩ | ⟨i, a, a', hcode, ha, ha', hstarts⟩
    · rw [hnone] at htarget'
      cases htarget'
    · have hend : a' = bs.length := Int.ofNat_inj.mp (Option.some.inj (ha'.symm.trans htarget'))
      have hi : i ∈ b.code := by
        rw [hcode]
        exact List.mem_singleton.mpr rfl
      refine ⟨i, List.mem_flatMap.mpr ⟨b, hb, hi⟩, ?_⟩
      rw [ha, (hstarts.end_iff hbs).mpr hend]
  · rintro ⟨i, hi, htarget⟩
    obtain ⟨b, hb, hi⟩ := List.mem_flatMap.mp hi
    refine ⟨b.folded, List.mem_map_of_mem hb, ?_⟩
    rcases (hbs b hb).targets with ⟨hnone, -⟩ | ⟨j, a, a', hcode, ha, ha', hstarts⟩
    · rw [hnone i hi] at htarget
      cases htarget
    · obtain rfl : i = j := by
        rw [hcode] at hi
        exact List.mem_singleton.mp hi
      have hend : a = (blocksCode bs).length :=
        Int.ofNat_inj.mp (Option.some.inj (ha.symm.trans htarget))
      rw [ha', (hstarts.end_iff hbs).mp hend]

/-- Folding keeps whether the code ends in a return. -/
theorem FoldsTo.returns_iff (h : FoldsTo 0 0 c c') :
    c'.getLast?.map (·.op) = some .ret ↔ c.getLast?.map (·.op) = some .ret := by
  obtain ⟨bs, rfl, rfl, hbs⟩ := h
  rcases List.eq_nil_or_concat bs with rfl | ⟨bs, b, rfl⟩
  · exact Iff.rfl
  · obtain ⟨c, i, hcode, hret⟩ := (hbs b (by simp)).last
    simp [hcode, hret]

theorem FoldsTo.reachesEnd (h : FoldsTo 0 0 c c') : reachesEnd c' = reachesEnd c := by
  rw [Pebble.reachesEnd, Pebble.reachesEnd, Bool.eq_iff_iff]
  simp only [Bool.or_eq_true, decide_eq_true_eq, List.any_eq_true, ne_eq]
  rw [h.returns_iff, h.jumpsBehind_iff]

theorem FoldsTo.withReturn (h : FoldsTo 0 0 c c') : FoldsTo 0 0 (withReturn c) (withReturn c') := by
  rw [Pebble.withReturn, Pebble.withReturn, h.reachesEnd]
  split
  · exact h.append ((Folds.cons rfl (.single rfl)) _ _)
  · exact h

end

/-- The targets of folded code are no further than those of the code. -/
theorem FoldsTo.any_target_gt {c c' : List Instr} (h : FoldsTo 0 0 c c') (bound : Nat)
    (hbound : (c.any fun i ↦ (i.op.target?.getD 0) > bound) = false) :
    (c'.any fun i ↦ (i.op.target?.getD 0) > bound) = false := by
  rw [List.any_eq_false] at hbound ⊢
  intro i' hi'
  rw [decide_eq_true_eq]
  cases htarget' : i'.op.target? with
  | none => exact Int.not_lt.mpr (Int.natCast_nonneg bound)
  | some target' =>
    obtain ⟨i, hi, target, htarget, hle⟩ := h.target_le hi' htarget'
    have hgt := hbound i hi
    rw [decide_eq_true_eq, htarget, Option.getD_some] at hgt
    rw [Option.getD_some]
    omega

/-- The code of a function folds to the code of the folded function. -/
theorem FunDef.code_folded {f : FunDef} {template : Template} (h : f.code p = .ok template) :
    ∃ template', f.folded.code p.folded = .ok template' ∧ template'.name = template.name ∧
      FoldsTo 0 0 template.instrs.toList template'.instrs.toList := by
  have hstores := paramsCode_stores SlotTable.empty.push f.params
  rcases hps : paramsCode SlotTable.empty.push f.params with ⟨params, t₀⟩
  have hps' : paramsCode SlotTable.empty.push f.folded.params = (params, t₀) := hps
  rw [hps] at hstores
  have hparams : FoldsTo 0 0 params params := by
    refine .same fun i hi ↦ ?_
    obtain ⟨k, hk⟩ := hstores i hi
    rw [hk]
    rfl
  simp only [FunDef.code, hps, bind_eq_ok] at h
  obtain ⟨⟨body, t⟩, hbody, h⟩ := h
  obtain ⟨body', hbody', hfolds⟩ := blockCode_folded params.length f.body hbody
  rw [← Nat.zero_add params.length] at hfolds
  have hall := hparams.append hfolds
  by_cases hmax : ((params ++ body).any fun i ↦ (i.op.target?.getD 0) > Template.maxTarget) = true
  · rw [if_pos hmax] at h
    cases h
  · rw [if_neg hmax] at h
    cases h
    have hmax' := hall.any_target_gt _ (Bool.not_eq_true _ ▸ hmax)
    refine ⟨⟨f.name.text, (withReturn (params ++ body')).toArray⟩, ?_, rfl, hall.withReturn⟩
    simp only [FunDef.code, hps', bind_eq_ok]
    refine ⟨(body', t), hbody', ?_⟩
    rw [if_neg (by rw [hmax']; exact Bool.false_ne_true)]
    rfl

/-- The templates of a program fold to those of the folded program. -/
theorem Program.code_folded {ts : List Template} (h : p.code = .ok ts) :
    ∃ ts', p.folded.code = .ok ts' ∧ List.Forall₂ (fun t t' ↦ t'.name = t.name ∧
      FoldsTo 0 0 t.instrs.toList t'.instrs.toList) ts ts' := by
  have hcode : p.folded.code = (p.functions.map FunDef.folded).mapM (FunDef.code p.folded) := rfl
  have hall := forall₂_of_mapM_eq_ok h
  rw [hcode]
  clear h
  generalize p.functions = fs at hall
  induction hall with
  | nil => exact ⟨[], rfl, .nil⟩
  | @cons f t fs ts hf _ ih =>
    obtain ⟨t', ht', hfolds⟩ := FunDef.code_folded hf
    obtain ⟨ts', hts', hall'⟩ := ih
    refine ⟨t' :: ts', ?_, .cons hfolds hall'⟩
    rw [List.map_cons, List.mapM_cons, ht', hts']
    rfl

end

end Pebble
