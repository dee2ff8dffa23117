import Pebble.Proofs.Realizing
import Pebble.Proofs.Scoping

/-!
# The code of expressions computes their values

Wherever the code of an expression stands, running it realizes the evaluation of the expression: it
ends behind the code, with the value on the stack and everything below it as it was.

## The construction

Code is composed as the computations are. `Computes` says that code takes some operands, realizes a
computation, and leaves the operands that go with the answer; it says so of all operands below, so
what has been left by one piece of code can be taken by the next. Expressions have no access to the
slots except to read them, so the slots are the same throughout.
-/

namespace Pebble

/-! ## Variables in slots -/

namespace Env

/-- The names of the variables, scope by scope. -/
def names (env : Env) : List (List String) := env.map (·.map Prod.fst)

/-- The values of the variables in order of declaration. -/
def values (env : Env) : List Value := (env.flatten.map Prod.snd).reverse

/-- The variables are those of a table, and slots hold their values. -/
structure LaidOut (env : Env) (t : SlotTable) (slots : Array Value) : Prop where
  names : t.names = env.names.flatten
  values : ∀ (k : Nat) v, env.values[k]? = some v → slots[k]? = some v

theorem flatten_names (env : Env) : env.names.flatten = env.flatten.map Prod.fst := by
  rw [names, List.map_flatten]

variable {env : Env} {t : SlotTable} {slots : Array Value}

/-- The slot of a variable is the place of its name among the names. -/
theorem LaidOut.slotIn?_of_slotOf (h : env.LaidOut t slots) {x : Name} {k : Nat}
    (hk : t.slotOf x = .ok k) :
    SlotTable.slotIn? x.text (env.flatten.map Prod.fst) = some k := by
  rw [SlotTable.slotOf, SlotTable.slot?, h.names, flatten_names] at hk
  cases hs : SlotTable.slotIn? x.text (env.flatten.map Prod.fst) with
  | none =>
    rw [hs] at hk
    cases hk
  | some k' =>
    rw [hs] at hk
    cases hk
    rfl

/-- The slot of a variable holds its value. -/
theorem LaidOut.getElem?_slot (h : env.LaidOut t slots) {x : Name} {k : Nat}
    (hk : t.slotOf x = .ok k) : slots[k]? = some (env.lookup x.text) := by
  obtain ⟨v, hv, hk⟩ := SlotTable.slotIn?_eq_some (h.slotIn?_of_slotOf hk)
  refine h.values k _ ?_
  rw [Env.values, ← List.map_reverse, List.getElem?_map, hk, lookup, findSome?_lookup_eq, hv]
  rfl

end Env

/-! ## Code in front of a frame -/

namespace Frame

/-- Code that a frame is about to execute. -/
def Faces (fr : Frame) (code : List Instr) : Prop :=
  StandsAt fr.template.instrs.toList fr.pc code

/-- A frame that has gone on by `n` instructions. -/
def skip (fr : Frame) (n : Nat) : Frame := { fr with pc := fr.pc + n }

theorem faces_append {fr : Frame} {code code' : List Instr} :
    fr.Faces (code ++ code') ↔ fr.Faces code ∧ (fr.skip code.length).Faces code' :=
  standsAt_append

theorem Faces.head {fr : Frame} {i : Instr} {code : List Instr} (h : fr.Faces (i :: code)) :
    fr.template.instrs[fr.pc]? = some i := by
  rw [← Array.getElem?_toList]
  exact (standsAt_cons.mp h).1

theorem Faces.tail {fr : Frame} {i : Instr} {code : List Instr} (h : fr.Faces (i :: code)) :
    (fr.skip 1).Faces code :=
  (standsAt_cons.mp h).2

theorem skip_skip (fr : Frame) (n n' : Nat) : (fr.skip n).skip n' = fr.skip (n + n') := by
  rw [skip, skip, skip, Nat.add_assoc]

end Frame

/-! ## Code that computes -/

section
variable {p : Program} {slots : Array Value} {α β : Type}

/-- With these slots, code takes the operands `args`, realizes a computation, and leaves operands
for its answer. -/
def Computes (p : Program) (slots : Array Value) (code : List Instr) (args : List Value)
    (x : Eval α) (left : α → List Value) : Prop :=
  ∀ (fr : Frame) (frs : List Frame) (vs : List Value), fr.slots = slots → fr.Faces code →
    Realizes p ⟨fr :: frs, args ++ vs⟩ x
      fun a s' ↦ s' = ⟨fr.skip code.length :: frs, left a ++ vs⟩

namespace Computes

variable {code code' : List Instr} {args args' : List Value} {x : Eval α} {i : Instr}
  {left : α → List Value} {left' : β → List Value}

theorem pure (a : α) (left : α → List Value) : Computes p slots [] (left a) (Pure.pure a) left :=
  fun _ _ _ _ _ ↦ .pure rfl

theorem value (v : Value) : Computes p slots [] [v] (Pure.pure v) (fun v ↦ [v]) :=
  pure v (fun v ↦ [v])

/-- One piece of code after the other, where something is known about what the first one answers.
What it leaves stands on the operands `below`. -/
theorem bindYield {f : α → Eval β} {P : α → Prop} (below : List Value)
    (hx : Computes p slots code args x left) (hP : ∀ w a w', x.run w = some (.ok a w') → P a)
    (hf : ∀ a, P a → Computes p slots code' (left a ++ below) (f a) left') :
    Computes p slots (code ++ code') (args ++ below) (x >>= f) left' := by
  intro fr frs vs hslots hcode
  obtain ⟨hcode, hcode'⟩ := Frame.faces_append.mp hcode
  rw [List.append_assoc, List.length_append, ← Frame.skip_skip]
  refine ((hx fr frs (below ++ vs) hslots hcode).yielding hP).bind ?_
  rintro a s' ⟨ha, rfl⟩
  rw [← List.append_assoc]
  exact hf a ha (fr.skip code.length) frs vs hslots hcode'

/-- The second piece of code takes what the first one leaves and the operands `below`. -/
theorem bindOver {f : α → Eval β} (below : List Value) (hx : Computes p slots code args x left)
    (hf : ∀ a, Computes p slots code' (left a ++ below) (f a) left') :
    Computes p slots (code ++ code') (args ++ below) (x >>= f) left' :=
  bindYield below hx (fun _ _ _ _ ↦ trivial) fun a _ ↦ hf a

/-- The second piece of code takes what the first one leaves. -/
theorem bind {f : α → Eval β} (hx : Computes p slots code args x left)
    (hf : ∀ a, Computes p slots code' (left a) (f a) left') :
    Computes p slots (code ++ code') args (x >>= f) left' := by
  rw [← List.append_nil args]
  exact bindOver [] hx fun a ↦ (List.append_nil (left a)).symm ▸ hf a

theorem push {v : Value} (hop : i.op = .push v) (hx : Computes p slots code (v :: args) x left) :
    Computes p slots (i :: code) args x left := by
  intro fr frs vs hslots hcode
  have hreach : ∀ w, Reaches p ⟨fr :: frs, [] ++ (args ++ vs)⟩ w
      ⟨fr.skip 1 :: frs, [v] ++ (args ++ vs)⟩ w :=
    fun w ↦ reaches_does hcode.head (Nat.le_refl _) fun _ ↦ hop ▸ .push v
  rw [List.length_cons, Nat.add_comm, ← Frame.skip_skip]
  exact .after hreach (hx (fr.skip 1) frs vs hslots hcode.tail)

theorem dup {v : Value} (hop : i.op = .dup) (hx : Computes p slots code (v :: v :: args) x left) :
    Computes p slots (i :: code) (v :: args) x left := by
  intro fr frs vs hslots hcode
  have hreach : ∀ w, Reaches p ⟨fr :: frs, [v] ++ (args ++ vs)⟩ w
      ⟨fr.skip 1 :: frs, [v, v] ++ (args ++ vs)⟩ w :=
    fun w ↦ reaches_does hcode.head (Nat.le_refl _) fun _ ↦ hop ▸ .dup v
  rw [List.length_cons, Nat.add_comm, ← Frame.skip_skip]
  exact .after hreach (hx (fr.skip 1) frs vs hslots hcode.tail)

/-- An instruction that loads a slot. -/
theorem load {k : Nat} {v : Value} (hop : i.op = .load k) (hk : slots[k]? = some v)
    (hx : Computes p slots code (v :: args) x left) : Computes p slots (i :: code) args x left := by
  intro fr frs vs hslots hcode
  rw [List.length_cons, Nat.add_comm, ← Frame.skip_skip]
  exact .after (fun w ↦ reaches_load hcode.head hop (hslots ▸ hk))
    (hx (fr.skip 1) frs vs hslots hcode.tail)

/-- At last the answer is dropped. -/
theorem pop {x : Eval Value} (hx : Computes p slots code args x fun v ↦ [v]) (hop : i.op = .pop) :
    Computes p slots (code ++ [i]) args x fun _ ↦ [] := by
  intro fr frs vs hslots hcode
  obtain ⟨hcode, hlast⟩ := Frame.faces_append.mp hcode
  refine (hx fr frs vs hslots hcode).thenReach ?_
  rintro v s' rfl
  have hdoes : ∀ l, i.op.Does l [v] (Pure.pure []) := fun _ ↦ hop ▸ .pop v
  rw [List.length_append, ← Frame.skip_skip]
  exact ⟨_, rfl, fun w ↦ reaches_does hlast.head (Nat.zero_le _) hdoes⟩

/-- An instruction that acts on operands and the world. -/
theorem act {act : Act α} (hlen : ∀ a, (left a).length ≤ 1)
    (hdoes : ∀ l, i.op.Does l args (act >>= fun a ↦ Pure.pure (left a))) :
    Computes p slots [i] args (liftM act) left :=
  fun _ _ _ _ hcode ↦ realizes_does hcode.head hlen hdoes

theorem actThen {act : Act α} {f : α → Eval β} (hlen : ∀ a, (left a).length ≤ 1)
    (hdoes : ∀ l, i.op.Does l args (act >>= fun a ↦ Pure.pure (left a)))
    (hf : ∀ a, Computes p slots code (left a) (f a) left') :
    Computes p slots (i :: code) args (liftM act >>= f) left' :=
  (Computes.act hlen hdoes).bind hf

end Computes

/-! ## Built-in functions -/

/-- The code of a built-in function computes its result. -/
theorem Builtin.computes (b : Builtin) {args : List Value} (hlen : args.length = b.arity) :
    Computes p slots b.code args (b.apply args) (fun v ↦ [v]) := by
  have hnull : Computes p slots [.plain (.push .null)] [] (pure Value.null) (fun v ↦ [v]) :=
    .push rfl (.value .null)
  have hwrite : ∀ (i : Instr) (v : Value), i.op = .write →
      Computes p slots [i] [v] (liftM (Act.write v.text)) (fun _ ↦ []) := by
    intro i v hi
    exact .act (fun _ ↦ Nat.zero_le _) fun _ ↦ hi ▸ .write v
  match b, args, hlen with
  | .print, [v], _ => exact (hwrite _ v rfl).bind fun _ ↦ hnull
  | .println, [v], _ =>
    refine (hwrite _ v rfl).bind fun _ ↦ .push rfl ?_
    exact (hwrite _ (.str "\n") rfl).bind fun _ ↦ hnull
  | .readln, [], _ => exact .act (fun _ ↦ Nat.le_refl _) fun _ ↦ .read
  | .size, [v], _ => exact .act (fun _ ↦ Nat.le_refl _) fun _ ↦ .size v
  | .get, [index, container], _ =>
    exact .act (fun _ ↦ Nat.le_refl _) fun _ ↦ .element container index
  | .intVal, [v], _ | .dblVal, [v], _ | .strVal, [v], _ =>
    exact .act (fun _ ↦ Nat.le_refl _) fun _ ↦ .convert _ v

/-! ## Expressions -/

/-- Every function of a checked program has code. -/
structure Program.Compiled (p : Program) : Prop where
  checked : p.Checked
  code : ∀ x f, p.function? x = some f → ∃ t, f.code p = .ok t

/-- Running the code of a function realizes what `call` says about it. -/
def Answers (p : Program) (call : String → List Value → Eval Value) : Prop :=
  ∀ (x : String) (f : FunDef) (template : Template) (args : List Value),
    p.function? x = some f → f.code p = .ok template → args.length = f.params.length →
    ∀ (frs : List Frame) (vs : List Value),
      Realizes p ⟨.enter template :: frs, args ++ vs⟩ (call x args)
        fun v s' ↦ s' = ⟨frs, answered frs v vs⟩

variable {call : String → List Value → Eval Value}

/-- A call takes its arguments and leaves its answer. -/
theorem Answers.computes (hcall : Answers p call) (hp : p.Compiled) {x : String} {f : FunDef}
    {args : List Value} {i : Instr} (hop : i.op = .call x) (hf : p.function? x = some f)
    (hlen : args.length = f.params.length) :
    Computes p slots [i] args (call x args) (fun v ↦ [v]) := by
  intro fr frs vs _ hcode
  obtain ⟨template, ht⟩ := hp.code x f hf
  exact .after (fun w ↦ reaches_call hcode.head hop hf ht)
    (hcall x f template args hf ht hlen (fr.skip 1 :: frs) vs)

theorem evalArgs_length {env : Env} {args : List Expr} {w w' : World} {vs : List Value}
    (h : (evalArgs p call env args).run w = some (.ok vs w')) : vs.length = args.length := by
  induction args generalizing w w' vs with
  | nil =>
    cases h
    rfl
  | cons arg args ih =>
    rw [evalArgs] at h
    obtain ⟨later, w₁, hlater, h⟩ := Eval.bind_eq_ok h
    obtain ⟨v, w₂, -, h⟩ := Eval.bind_eq_ok h
    cases h
    rw [List.length_cons, List.length_cons, ih hlater]

/-! What is typed is typed in its parts. -/

section
variable {s : Scopes} {name : Name} {ty t₀ : Ty}

theorem Path.typed_root {index : Option Expr} (h : (Path.root name index).typeIn p s = .ok ty) :
    ∃ t₀, indexedType p s name t₀ index = .ok ty := by
  rw [Path.typeIn] at h
  cases hx : s.lookup name.text with
  | none =>
    simp only [hx] at h
    exact absurd h faultAt_ne_ok
  | some t₀ =>
    simp only [hx] at h
    exact ⟨t₀, h⟩

theorem Path.typed_field {base : Path} {index : Option Expr}
    (h : (Path.field base name index).typeIn p s = .ok ty) :
    ∃ tb t₀, base.typeIn p s = .ok tb ∧ indexedType p s name t₀ index = .ok ty := by
  simp only [Path.typeIn, bind_eq_ok] at h
  obtain ⟨tb, htb, t₀, -, hindex⟩ := h
  exact ⟨tb, t₀, htb, hindex⟩

theorem index_typed {index : Expr} (h : indexedType p s name t₀ (some index) = .ok ty) :
    ∃ ti, index.typeIn p s = .ok ti := by
  cases t₀ with
  | null | one => exact absurd h faultAt_ne_ok
  | array elem =>
    simp only [indexedType, bind_eq_ok] at h
    obtain ⟨ti, hti, -⟩ := h
    exact ⟨ti, hti⟩

end

theorem Expr.eval_binary (env : Env) (op : BinOp) (pos : Pos) (lhs rhs : Expr) :
    (Expr.binary op pos lhs rhs).eval p call env =
      if op.isSwapped then
        rhs.eval p call env >>= fun r ↦ lhs.eval p call env >>= fun l ↦ liftM (op.apply l r)
      else
        lhs.eval p call env >>= fun l ↦ rhs.eval p call env >>= fun r ↦ liftM (op.apply l r) := by
  cases op <;> rfl

variable {env : Env} {t : SlotTable}

mutual

/-- The code of an expression computes its value. -/
theorem Expr.computes (hp : p.Compiled) (hcall : Answers p call) (henv : env.LaidOut t slots)
    {s : Scopes} : (e : Expr) → ∀ {ty : Ty} {c : List Instr}, e.typeIn p s = .ok ty →
    e.code p t = .ok c → Computes p slots c [] (e.eval p call env) (fun v ↦ [v])
  | .lit value pos, ty, c, hty, hc => by
    cases hc
    rw [Expr.eval]
    exact .push rfl (.value _)
  | .path path, ty, c, hty, hc => by
    rw [Expr.typeIn] at hty
    rw [Expr.code] at hc
    rw [Expr.eval]
    exact path.computes hp hcall henv hty hc
  | .call callee args, ty, c, hty, hc => by
    rw [Expr.typeIn] at hty
    rw [Expr.code] at hc
    rw [Expr.eval]
    cases hb : Builtin.ofName? callee.text with
    | some b =>
      simp only [hb, bind_eq_ok, require_eq_ok, decide_eq_true_eq, pure_eq_ok] at hty hc ⊢
      obtain ⟨-, hlen, ts, hts, -⟩ := hty
      obtain ⟨-, -, ca, hca, rfl⟩ := hc
      -- How many values the arguments leave is known only when they have been computed.
      refine .bindYield [] (argsComputes hp hcall henv args hts hca)
        (fun _ _ _ ↦ evalArgs_length) fun vs hvs ↦ ?_
      rw [List.append_nil]
      exact b.computes (hvs.trans hlen)
    | none =>
      simp only [hb] at hty
      cases hf : p.function? callee.text with
      | none =>
        simp only [hf] at hty
        exact absurd hty faultAt_ne_ok
      | some f =>
        simp only [hf, hb, bind_eq_ok, require_eq_ok, decide_eq_true_eq, pure_eq_ok] at hty hc ⊢
        obtain ⟨-, hlen, ts, hts, -⟩ := hty
        obtain ⟨ca, hca, rfl⟩ := hc
        refine .bindYield [] (argsComputes hp hcall henv args hts hca)
          (fun _ _ _ ↦ evalArgs_length) fun vs hvs ↦ ?_
        rw [List.append_nil]
        exact hcall.computes hp rfl hf (hvs.trans hlen)
  | .newStruct name args, ty, c, hty, hc => by
    rw [Expr.typeIn] at hty
    cases hd : p.struct? name.text with
    | none =>
      simp only [hd] at hty
      exact absurd hty faultAt_ne_ok
    | some d =>
      simp only [hd, bind_eq_ok] at hty
      obtain ⟨-, -, ts, hts, -⟩ := hty
      simp only [Expr.code, hp.checked.fieldsOf_eq hd, bind_eq_ok] at hc
      obtain ⟨_, hfields, hc⟩ := hc
      cases hfields
      by_cases hlen : (d.fields.map (·.name.text)).length ≠ args.length
      · rw [if_pos hlen] at hc
        cases hc
      · simp only [if_neg hlen, bind_eq_ok, pure_eq_ok] at hc
        obtain ⟨cf, hcf, rfl⟩ := hc
        simp only [Expr.eval, hd, Option.map_some, Option.getD_some]
        refine .actThen (fun _ ↦ Nat.le_refl _) (fun _ ↦ .newRecord) fun record ↦ ?_
        rw [← List.append_nil cf]
        exact (fieldsCompute hp hcall henv record args hts hcf).bind fun _ ↦ .value record
  | .newArray elem size, ty, c, hty, hc => by
    simp only [Expr.typeIn, bind_eq_ok] at hty
    obtain ⟨-, -, tsize, hsize, -⟩ := hty
    simp only [Expr.code, bind_eq_ok, pure_eq_ok] at hc
    obtain ⟨cs, hcs, rfl⟩ := hc
    rw [Expr.eval]
    refine (size.computes hp hcall henv hsize hcs).bind fun v ↦ ?_
    exact fun fr frs vs _ hcode ↦ realizes_of_does hcode.head (fun _ ↦ Nat.le_refl _)
      (fun _ ↦ .newArray v) (newArray_eq_or v)
  | .not pos operand, ty, c, hty, hc => by
    simp only [Expr.typeIn, bind_eq_ok] at hty
    obtain ⟨t', ht', -⟩ := hty
    simp only [Expr.code, bind_eq_ok, pure_eq_ok] at hc
    obtain ⟨co, hco, rfl⟩ := hc
    rw [Expr.eval]
    refine (operand.computes hp hcall henv ht' hco).bind fun v ↦ ?_
    exact .act (fun _ ↦ Nat.le_refl _) fun _ ↦ .not v
  | .binary op pos lhs rhs, ty, c, hty, hc => by
    simp only [Expr.typeIn, bind_eq_ok] at hty
    obtain ⟨tl, htl, tr, htr, -⟩ := hty
    -- The right operand of a swapped operator comes first, in the value as in the code.
    have hop := fun l r limit ↦ op.does limit l r
    rw [Expr.code] at hc
    rw [Expr.eval_binary]
    cases hsw : op.isSwapped with
    | true =>
      simp only [hsw, if_true, bind_eq_ok, pure_eq_ok] at hc hop ⊢
      obtain ⟨cr, hcr, cl, hcl, rfl⟩ := hc
      rw [List.append_assoc]
      refine (rhs.computes hp hcall henv htr hcr).bind fun r ↦ ?_
      refine (lhs.computes hp hcall henv htl hcl).bindOver [r] fun l ↦ ?_
      exact .act (fun _ ↦ Nat.le_refl _) (hop l r)
    | false =>
      simp only [hsw, Bool.false_eq_true, if_false, bind_eq_ok, pure_eq_ok] at hc hop ⊢
      obtain ⟨cl, hcl, cr, hcr, rfl⟩ := hc
      rw [List.append_assoc]
      refine (lhs.computes hp hcall henv htl hcl).bind fun l ↦ ?_
      refine (rhs.computes hp hcall henv htr hcr).bindOver [l] fun r ↦ ?_
      exact .act (fun _ ↦ Nat.le_refl _) (hop l r)

theorem Path.computes (hp : p.Compiled) (hcall : Answers p call) (henv : env.LaidOut t slots)
    {s : Scopes} : (path : Path) → ∀ {ty : Ty} {c : List Instr}, path.typeIn p s = .ok ty →
    path.code p t = .ok c → Computes p slots c [] (path.eval p call env) (fun v ↦ [v])
  | .root name index, ty, c, hty, hc => by
    obtain ⟨t₀, hindex⟩ := Path.typed_root hty
    simp only [Path.code, bind_eq_ok, pure_eq_ok] at hc
    obtain ⟨k, hk, ci, hci, rfl⟩ := hc
    rw [Path.eval]
    exact .load rfl (henv.getElem?_slot hk) (indexComputes hp hcall henv _ index hindex hci)
  | .field base name index, ty, c, hty, hc => by
    obtain ⟨tb, t₀, htb, hindex⟩ := Path.typed_field hty
    simp only [Path.code, bind_eq_ok, pure_eq_ok] at hc
    obtain ⟨cb, hcb, ci, hci, rfl⟩ := hc
    rw [Path.eval]
    refine (base.computes hp hcall henv htb hcb).bind fun record ↦ ?_
    refine .actThen (fun _ ↦ Nat.le_refl _) (fun _ ↦ .getField _ record) fun v ↦ ?_
    exact indexComputes hp hcall henv v index hindex hci

theorem indexComputes (hp : p.Compiled) (hcall : Answers p call) (henv : env.LaidOut t slots)
    {s : Scopes} (v : Value) : (index : Option Expr) → ∀ {name : Name} {t₀ ty : Ty}
    {c : List Instr}, indexedType p s name t₀ index = .ok ty → indexCode p t index = .ok c →
    Computes p slots c [v] (evalIndex p call env v index) (fun v ↦ [v])
  | none, name, t₀, ty, c, hty, hc => by
    cases hc
    rw [evalIndex]
    exact .value v
  | some index, name, t₀, ty, c, hty, hc => by
    simp only [indexCode, bind_eq_ok, pure_eq_ok] at hc
    obtain ⟨ci, hci, rfl⟩ := hc
    obtain ⟨ti, hti⟩ := index_typed hty
    rw [evalIndex]
    refine (index.computes hp hcall henv hti hci).bindOver [v] fun i ↦ ?_
    exact .act (fun _ ↦ Nat.le_refl _) fun _ ↦ .getItem v i

theorem argsComputes (hp : p.Compiled) (hcall : Answers p call) (henv : env.LaidOut t slots)
    {s : Scopes} {judge : Judge} : (args : List Expr) → ∀ {n : Nat} {ts : List Ty}
    {c : List Instr}, argTypes p s judge n args = .ok ts → argsCode p t args = .ok c →
    Computes p slots c [] (evalArgs p call env args) (fun vs ↦ vs)
  | [], n, ts, c, hty, hc => by
    cases hc
    rw [evalArgs]
    exact .pure [] (fun vs ↦ vs)
  | arg :: args, n, ts, c, hty, hc => by
    simp only [argTypes, bind_eq_ok] at hty
    obtain ⟨ta, hta, -, -, ts', hts, -⟩ := hty
    simp only [argsCode, bind_eq_ok, pure_eq_ok] at hc
    obtain ⟨later, hlater, ca, hca, rfl⟩ := hc
    rw [evalArgs]
    refine (argsComputes hp hcall henv args hts hlater).bind fun vs ↦ ?_
    rw [← List.append_nil ca]
    refine (arg.computes hp hcall henv hta hca).bindOver vs fun v ↦ ?_
    exact .pure (v :: vs) (fun vs ↦ vs)

theorem fieldsCompute (hp : p.Compiled) (hcall : Answers p call) (henv : env.LaidOut t slots)
    {s : Scopes} {judge : Judge} (record : Value) : (args : List Expr) → ∀ {fields : List VarDef}
    {n : Nat} {ts : List Ty} {c : List Instr}, argTypes p s judge n args = .ok ts →
    fieldsCode p t (fields.map (·.name.text)) args = .ok c →
    Computes p slots c [record] (evalFields p call env record fields args) (fun _ ↦ [record])
  | [], [], n, ts, c, hty, hc | [], _ :: _, n, ts, c, hty, hc
  | _ :: _, [], n, ts, c, hty, hc => by
    cases hc
    exact .pure () (fun _ ↦ [record])
  | arg :: args, field :: fields, n, ts, c, hty, hc => by
    simp only [argTypes, bind_eq_ok] at hty
    obtain ⟨ta, hta, -, -, ts', hts, -⟩ := hty
    simp only [List.map_cons, fieldsCode, bind_eq_ok, pure_eq_ok] at hc
    obtain ⟨ca, hca, rest, hrest, rfl⟩ := hc
    rw [evalFields, List.cons_append, List.cons_append, List.append_assoc]
    refine .dup rfl ?_
    refine (arg.computes hp hcall henv hta hca).bindOver [record, record] fun v ↦ ?_
    have hset : Computes p slots [.plain (.setField field.name.text)] [v, record]
        (liftM (Act.setField field.name.text record v)) (fun _ ↦ []) :=
      .act (fun _ ↦ Nat.zero_le _) fun _ ↦ .setField _ record v
    exact hset.bindOver [record] fun _ ↦ fieldsCompute hp hcall henv record args hts hrest

end

end

end Pebble
