import Pebble.Proofs.ExprRuns
import Pebble.Proofs.StmtTypes

/-!
# The code of statements does what they say

Running the code of a statement realizes its execution: it ends behind the code, with the variables
in their slots, or with the function left and its answer on the stack of the caller.

## Variables

A scope that has been left gives its slots back, so slots may hold more than the variables in
scope; `Env.LaidOut` says nothing about those. What a block leaves behind is the environment it was
entered with, up to the values: `Onward` keeps the names of the outer scopes for that.

## Loops

A loop is code that ends in a jump to its own beginning. Evaluation bounds its rounds by fuel, and
the induction is on that.
-/

namespace Pebble

/-! ## Changing variables -/

namespace Env

variable {env env' : Env} {t t' : SlotTable} {slots : Array Value} {x : String} {v : Value}

theorem flatten_declare (x : String) (v : Value) (env : Env) :
    (env.declare x v).flatten = (x, v) :: env.flatten := by
  cases env with
  | nil => rfl
  | cons scope outer => rfl

theorem names_tail_declare (x : String) (v : Value) (env : Env) :
    (env.declare x v).names.tail = env.names.tail := by
  cases env with
  | nil => rfl
  | cons scope outer => rfl

/-- A new variable gets the next slot. -/
theorem LaidOut.add {fr : Frame} (h : env.LaidOut t fr.slots)
    (hnew : env'.flatten = (x, v) :: env.flatten) :
    env'.LaidOut (t.declare x) (fr.store t.next v).slots := by
  have hvalues : env'.values = env.values ++ [v] := by
    rw [Env.values, hnew, List.map_cons, List.reverse_cons]
    rfl
  have hnext : t.next = env.values.length := by
    rw [SlotTable.next, h.names, flatten_names, Env.values, List.length_reverse, List.length_map,
      List.length_map]
  refine ⟨?_, fun k u hk ↦ ?_⟩
  · rw [SlotTable.declare, h.names, flatten_names, flatten_names, hnew, List.map_cons]
  · rw [hvalues] at hk
    rw [hnext]
    by_cases hlt : k < env.values.length
    · rw [List.getElem?_append_left hlt] at hk
      exact fr.getElem?_store _ k v (h.values k u hk) (Nat.ne_of_lt hlt)
    · rw [List.getElem?_append_right (Nat.le_of_not_lt hlt)] at hk
      have hlast := (List.getElem?_eq_some_iff.mp hk).1
      rw [List.length_singleton] at hlast
      obtain rfl : k = env.values.length := by omega
      rw [Nat.sub_self, List.getElem?_cons_zero, Option.some.injEq] at hk
      rw [← hk]
      exact fr.getElem?_store_self _ v

theorem setIn?_append (x : String) (v : Value) (scope rest : List (String × Value)) :
    setIn? x v (scope ++ rest) = match setIn? x v scope with
      | some scope => some (scope ++ rest)
      | none => (setIn? x v rest).map (scope ++ ·) := by
  induction scope with
  | nil => simp [setIn?]
  | cons b scope ih =>
    obtain ⟨y, u⟩ := b
    rw [List.cons_append, setIn?, setIn?, ih]
    by_cases hy : y = x
    · rw [if_pos hy, if_pos hy]
      rfl
    · rw [if_neg hy, if_neg hy]
      cases setIn? x v scope with
      | some scope => rfl
      | none => simp [Function.comp_def]

theorem flatten_set (x : String) (v : Value) (env : Env) :
    (env.set x v).flatten = (setIn? x v env.flatten).getD env.flatten := by
  induction env with
  | nil => rfl
  | cons scope outer ih =>
    rw [set, List.flatten_cons, setIn?_append]
    cases setIn? x v scope with
    | some scope => rfl
    | none =>
      simp only [List.flatten_cons, ih]
      cases setIn? x v outer.flatten <;> rfl

theorem setIn?_names {scope scope' : List (String × Value)} (h : setIn? x v scope = some scope') :
    scope'.map Prod.fst = scope.map Prod.fst := by
  induction scope generalizing scope' with
  | nil => cases h
  | cons b scope ih =>
    obtain ⟨y, u⟩ := b
    rw [setIn?] at h
    by_cases hy : y = x
    · rw [if_pos hy] at h
      cases h
      rfl
    · rw [if_neg hy, Option.map_eq_some_iff] at h
      obtain ⟨scope₁, h₁, rfl⟩ := h
      rw [List.map_cons, List.map_cons, ih h₁]

theorem names_set (x : String) (v : Value) (env : Env) : (env.set x v).names = env.names := by
  induction env with
  | nil => rfl
  | cons scope outer ih =>
    rw [set]
    cases hs : setIn? x v scope with
    | some scope' => simp only [names, List.map_cons, setIn?_names hs]
    | none =>
      rw [names, names] at ih
      simp only [names, List.map_cons, ih]

/-- Setting a variable is setting its slot. -/
theorem setIn?_values {k : Nat} {bs : List (String × Value)}
    (h : SlotTable.slotIn? x (bs.map Prod.fst) = some k) :
    ∃ bs', setIn? x v bs = some bs' ∧
      (bs'.map Prod.snd).reverse = ((bs.map Prod.snd).reverse).set k v := by
  induction bs with
  | nil => cases h
  | cons b bs ih =>
    obtain ⟨y, u⟩ := b
    rw [List.map_cons, SlotTable.slotIn?] at h
    rw [setIn?]
    by_cases hy : y = x
    · rw [if_pos hy, Option.some.injEq, List.length_map] at h
      refine ⟨(y, v) :: bs, by rw [if_pos hy], ?_⟩
      rw [List.map_cons, List.map_cons, List.reverse_cons, List.reverse_cons, ← h,
        List.set_append_right _ _ (by simp)]
      simp
    · rw [if_neg hy] at h
      obtain ⟨bs', hset, hvalues⟩ := ih h
      obtain ⟨a, -, hget⟩ := SlotTable.slotIn?_eq_some h
      have hlt := (List.getElem?_eq_some_iff.mp hget).1
      refine ⟨(y, u) :: bs', by rw [if_neg hy, hset]; rfl, ?_⟩
      rw [List.map_cons, List.map_cons, List.reverse_cons, List.reverse_cons, hvalues,
        List.set_append_left _ _ (by simpa using hlt)]

theorem LaidOut.set {fr : Frame} {x : Name} {k : Nat} (h : env.LaidOut t fr.slots)
    (hk : t.slotOf x = .ok k) : (env.set x.text v).LaidOut t (fr.store k v).slots := by
  refine ⟨by rw [h.names, names_set], fun j u hj ↦ ?_⟩
  obtain ⟨bs', hset, hvalues⟩ := setIn?_values (v := v) (h.slotIn?_of_slotOf hk)
  rw [Env.values, flatten_set, hset, Option.getD_some, hvalues] at hj
  by_cases hjk : j = k
  · subst hjk
    have hlt := (List.getElem?_eq_some_iff.mp hj).1
    rw [List.length_set] at hlt
    rw [List.getElem?_set_self hlt, Option.some.injEq] at hj
    rw [← hj]
    exact fr.getElem?_store_self j v
  · rw [List.getElem?_set_ne (Ne.symm hjk)] at hj
    exact fr.getElem?_store k j v (h.values j u hj) hjk

theorem names_leave (env : Env) : env.leave.names = env.names.tail := by
  rw [leave, names, names, List.map_tail]

/-- Leaving the innermost scope. -/
theorem LaidOut.leave (h : env'.LaidOut t' slots) (hnames : env'.names.tail = env.names)
    (ht : t.names = env.names.flatten) : env'.leave.LaidOut t slots := by
  refine ⟨?_, fun k v hk ↦ h.values k v ?_⟩
  · rw [ht, ← hnames, names_leave]
  · cases env' with
    | nil => exact hk
    | cons scope outer =>
      rw [Env.values, List.flatten_cons, List.map_append, List.reverse_append,
        List.getElem?_append_left]
      · exact hk
      · exact (List.getElem?_eq_some_iff.mp hk).1

end Env

/-! ## Code that carries out statements -/

section
variable {p : Program} {template : Template} {frs : List Frame} {vs : List Value}

/-- Where statements lead: to index `n`, with the variables of `t` in their slots and the names of
the outer scopes as they were, or out of the function. -/
def Onward (template : Template) (frs : List Frame) (vs : List Value) (n : Nat) (t : SlotTable)
    (outer : List (List String)) : Flow → Stack → Prop
  | .next env, s =>
    ∃ slots, s = ⟨⟨template, slots, n⟩ :: frs, vs⟩ ∧ env.LaidOut t slots ∧ env.names.tail = outer
  | .returned v, s => s = ⟨frs, answered frs v vs⟩

/-- Going on after statements. -/
theorem Realizes.andThen {s : Stack} {x : Eval Flow} {y : Env → Eval Flow} {n n' : Nat}
    {t t' : SlotTable} {outer outer' : List (List String)}
    (hx : Realizes p s x (Onward template frs vs n t outer))
    (hy : ∀ env slots, env.LaidOut t slots → env.names.tail = outer →
      Realizes p ⟨⟨template, slots, n⟩ :: frs, vs⟩ (y env) (Onward template frs vs n' t' outer')) :
    Realizes p s (x >>= fun flow ↦ flow.andThen y) (Onward template frs vs n' t' outer') := by
  refine hx.bind ?_
  rintro (env | v) s' hs'
  · obtain ⟨slots, rfl, hlaid, hnames⟩ := hs'
    exact hy env slots hlaid hnames
  · obtain rfl := hs'
    exact .pure rfl

/-- Wherever code stands at index `n`, it carries out `x` with the variables of `t`, and leaves
those of `t'`. -/
def CarriesOut (p : Program) (n : Nat) (code : List Instr) (t t' : SlotTable)
    (x : Env → Eval Flow) : Prop :=
  ∀ (env : Env) (slots : Array Value) (template : Template) (frs : List Frame) (vs : List Value),
    env.LaidOut t slots → StandsAt template.instrs.toList n code →
    Realizes p ⟨⟨template, slots, n⟩ :: frs, vs⟩ (x env)
      (Onward template frs vs (n + code.length) t' env.names.tail)

/-- Code that decides, with the variables of `t`, whether to go on behind it or at `target`. -/
def Decides (p : Program) (n : Nat) (code : List Instr) (t : SlotTable) (target : Nat)
    (test : Env → Eval Bool) : Prop :=
  ∀ (env : Env) (slots : Array Value) (template : Template) (frs : List Frame) (vs : List Value),
    env.LaidOut t slots → StandsAt template.instrs.toList n code →
    Realizes p ⟨⟨template, slots, n⟩ :: frs, vs⟩ (test env) fun b s' ↦
      s' = ⟨⟨template, slots, if b then n + code.length else target⟩ :: frs, vs⟩

theorem instr_of_standsAt {n : Nat} {i : Instr} {code : List Instr}
    (h : StandsAt template.instrs.toList n (i :: code)) : template.instrs[n]? = some i := by
  rw [← Array.getElem?_toList]
  exact (standsAt_cons.mp h).1

namespace CarriesOut

variable {n : Nat} {code code' cond : List Instr} {t t' t'' : SlotTable}
  {x y : Env → Eval Flow} {test : Env → Eval Bool} {i : Instr}

theorem nil (n : Nat) (t : SlotTable) : CarriesOut p n [] t t fun env ↦ pure (.next env) :=
  fun _ slots _ _ _ hlaid _ ↦ .pure ⟨slots, rfl, hlaid, rfl⟩

theorem append (hx : CarriesOut p n code t t' x)
    (hy : CarriesOut p (n + code.length) code' t' t'' y) :
    CarriesOut p n (code ++ code') t t'' fun env ↦ x env >>= fun flow ↦ flow.andThen y := by
  intro env slots template frs vs hlaid hcode
  obtain ⟨hcode, hcode'⟩ := standsAt_append.mp hcode
  refine (hx env slots template frs vs hlaid hcode).andThen fun env' slots' hlaid' hnames ↦ ?_
  rw [List.length_append, ← Nat.add_assoc, ← hnames]
  exact hy env' slots' template frs vs hlaid' hcode'

/-- A scope of its own. Opening it needs no code. -/
theorem inScope (hx : CarriesOut p n code t' t'' x) (ht : t'.names = t.names) :
    CarriesOut p n code t t (inScope x) := by
  intro env slots template frs vs hlaid hcode
  have hlaid' : env.enter.LaidOut t' slots := ⟨ht.trans hlaid.names, hlaid.values⟩
  refine (hx env.enter slots template frs vs hlaid' hcode).andThen
    fun env' slots' hlaid' hnames ↦ ?_
  refine .pure ⟨slots', rfl, hlaid'.leave hnames hlaid.names, ?_⟩
  rw [Env.names_leave, hnames]
  rfl

/-- Two branches: the first one ends in a jump behind the second. -/
theorem branch {body rest : List Instr} {next : Nat} (htest : Decides p n cond t next test)
    (hnext : next = n + cond.length + body.length + 1)
    (hx : CarriesOut p (n + cond.length) body t t' x) (hi : i.op = .jump (next + rest.length : Nat))
    (hy : CarriesOut p next rest t t' y) :
    CarriesOut p n (cond ++ body ++ i :: rest) t t' fun env ↦
      test env >>= fun b ↦ if b then x env else y env := by
  intro env slots template frs vs hlaid hcode
  obtain ⟨hcode, hjump⟩ := standsAt_append.mp hcode
  obtain ⟨hcond, hbody⟩ := standsAt_append.mp hcode
  have hend : n + (cond ++ body ++ i :: rest).length = next + rest.length := by
    simp only [hnext, List.length_append, List.length_cons]
    omega
  rw [List.length_append, ← Nat.add_assoc] at hjump
  have hrest := (standsAt_cons.mp hjump).2
  rw [← hnext] at hrest
  rw [hend]
  refine (htest env slots template frs vs hlaid hcond).bind ?_
  rintro (_ | _) s' rfl
  · exact hy env slots template frs vs hlaid hrest
  · -- The jump at the end of the first branch leads to where the second one ends.
    refine (hx env slots template frs vs hlaid hbody).thenReach ?_
    rintro (env' | v) s' hs'
    · obtain ⟨slots', rfl, hlaid', hnames⟩ := hs'
      exact ⟨_, ⟨slots', rfl, hlaid', hnames⟩,
        fun w ↦ reaches_jump (instr_of_standsAt hjump) hi⟩
    · exact ⟨s', hs', fun w ↦ .refl p s' w⟩

/-- A loop. The induction is on the bound on its rounds. -/
theorem loop {body : List Instr} (exit : Nat) (htest : Decides p n cond t exit test)
    (hexit : exit = n + cond.length + body.length + 1)
    (hx : CarriesOut p (n + cond.length) body t t x) (hi : i.op = .jump n) (fuel : Nat) :
    CarriesOut p n (cond ++ body ++ [i]) t t (repeatWhile test x fuel) := by
  induction fuel with
  | zero => exact fun _ _ _ _ _ _ _ ↦ .exhausted
  | succ fuel ih =>
    intro env slots template frs vs hlaid hcode
    have hall := hcode
    obtain ⟨hcode, hjump⟩ := standsAt_append.mp hcode
    obtain ⟨hcond, hbody⟩ := standsAt_append.mp hcode
    rw [List.length_append, ← Nat.add_assoc] at hjump
    rw [repeatWhile]
    refine (htest env slots template frs vs hlaid hcond).bind ?_
    rintro (_ | _) s' rfl
    · refine .pure ⟨slots, ?_, hlaid, rfl⟩
      rw [if_neg Bool.false_ne_true, hexit, List.length_append, List.length_append,
        List.length_singleton, Nat.add_assoc, Nat.add_assoc, Nat.add_assoc]
    · refine (hx env slots template frs vs hlaid hbody).andThen fun env' slots' hlaid' hnames ↦ ?_
      refine .after (fun w ↦ reaches_jump (instr_of_standsAt hjump) hi) ?_
      rw [← hnames]
      exact ih env' slots' template frs vs hlaid' hall

/-- Code that computes something and changes no variables. -/
theorem of_computes {α : Type} {x : Env → Eval α}
    (hx : ∀ env slots, env.LaidOut t slots → Computes p slots code [] (x env) fun _ ↦ []) :
    CarriesOut p n code t t fun env ↦ x env >>= fun _ ↦ pure (.next env) := by
  intro env slots template frs vs hlaid hcode
  refine (hx env slots hlaid ⟨template, slots, n⟩ frs vs rfl hcode).bind ?_
  rintro _ s' rfl
  exact .pure ⟨slots, rfl, hlaid, rfl⟩

/-- Code that computes a value and stores it. -/
theorem store {x : Env → Eval Value} {change : Env → Value → Env} {k : Nat}
    (hx : ∀ env slots, env.LaidOut t slots → Computes p slots code [] (x env) fun v ↦ [v])
    (hi : i.op = .store k)
    (hchange : ∀ env (fr : Frame) v, env.LaidOut t fr.slots →
      (change env v).LaidOut t' (fr.store k v).slots)
    (hnames : ∀ env v, (change env v).names.tail = env.names.tail) :
    CarriesOut p n (code ++ [i]) t t' fun env ↦
      x env >>= fun v ↦ pure (.next (change env v)) := by
  intro env slots template frs vs hlaid hcode
  obtain ⟨hcode, hstore⟩ := standsAt_append.mp hcode
  refine (hx env slots hlaid ⟨template, slots, n⟩ frs vs rfl hcode).bind ?_
  rintro v s' rfl
  refine .after (fun w ↦ reaches_store (instr_of_standsAt hstore) hi) (.pure ?_)
  rw [List.length_append, ← Nat.add_assoc]
  exact ⟨_, rfl, hchange env ⟨template, slots, n + code.length + 1⟩ v hlaid, hnames env v⟩

/-- A new scope with one variable, whose value is computed first. -/
theorem initialized {first : Env → Eval Value} {name : String}
    (hx : ∀ env slots, env.LaidOut t slots → Computes p slots code [] (first env) fun v ↦ [v])
    (hi : i.op = .store t.next)
    (hy : CarriesOut p (n + code.length + 1) code' (t.push.declare name) (t.push.declare name) y) :
    CarriesOut p n (code ++ i :: code') t t fun env ↦ first env >>= fun v ↦
      y (env.enter.declare name v) >>= fun flow ↦
        flow.andThen fun env ↦ pure (.next env.leave) := by
  intro env slots template frs vs hlaid hcode
  obtain ⟨hcode, hrest⟩ := standsAt_append.mp hcode
  refine (hx env slots hlaid ⟨template, slots, n⟩ frs vs rfl hcode).bind ?_
  rintro v s' rfl
  refine .after (fun w ↦ reaches_store (instr_of_standsAt hrest) hi) ?_
  have henter : env.enter.LaidOut t.push slots := ⟨hlaid.names, hlaid.values⟩
  have hlaid' : (env.enter.declare name v).LaidOut (t.push.declare name)
      ((⟨template, slots, n + code.length + 1⟩ : Frame).store t.push.next v).slots :=
    henter.add (Env.flatten_declare name v env.enter)
  have hlen : n + (code ++ i :: code').length = n + code.length + 1 + code'.length := by
    rw [List.length_append, List.length_cons]
    omega
  rw [hlen]
  refine (hy _ _ template frs vs hlaid' (standsAt_cons.mp hrest).2).andThen
    fun env' slots' hlaid' hnames ↦ ?_
  rw [Env.names_tail_declare] at hnames
  refine .pure ⟨slots', rfl, hlaid'.leave hnames hlaid.names, ?_⟩
  rw [Env.names_leave, hnames]
  rfl

end CarriesOut

section
variable {n target : Nat} {code : List Instr} {t : SlotTable} {i : Instr}

/-- A value is computed and looked at as a condition. -/
theorem Decides.of_value {x : Env → Eval Value}
    (hx : ∀ env slots, env.LaidOut t slots → Computes p slots code [] (x env) fun v ↦ [v])
    (hi : i.op = .jumpUnless target) :
    Decides p n (code ++ [i]) t target fun env ↦
      x env >>= fun v ↦ liftM (Act.asBool (.jumpUnless 0) v) := by
  intro env slots template frs vs hlaid hcode
  obtain ⟨hcode, hjump⟩ := standsAt_append.mp hcode
  refine (hx env slots hlaid ⟨template, slots, n⟩ frs vs rfl hcode).bind ?_
  rintro v s' rfl
  refine (realizes_jumpUnless (instr_of_standsAt hjump) hi).thenReach ?_
  rintro (_ | _) s' rfl
  · exact ⟨_, rfl, fun w ↦ .refl _ _ w⟩
  · refine ⟨_, ?_, fun w ↦ .refl _ _ w⟩
    rw [List.length_append, ← Nat.add_assoc]
    rfl

/-- A truth value is computed. -/
theorem Decides.of_bool {test : Env → Eval Bool}
    (hx : ∀ env slots, env.LaidOut t slots → Computes p slots code [] (test env) fun b ↦ [.bool b])
    (hi : i.op = .jumpUnless target) : Decides p n (code ++ [i]) t target test := by
  intro env slots template frs vs hlaid hcode
  obtain ⟨hcode, hjump⟩ := standsAt_append.mp hcode
  refine (hx env slots hlaid ⟨template, slots, n⟩ frs vs rfl hcode).thenReach ?_
  rintro (_ | _) s' rfl
  · exact ⟨_, rfl, fun w ↦ reaches_jumpUnless false (instr_of_standsAt hjump) hi⟩
  · refine ⟨_, ?_, fun w ↦ reaches_jumpUnless true (instr_of_standsAt hjump) hi⟩
    rw [List.length_append, ← Nat.add_assoc]
    rfl

end

/-! ## Statements -/

variable {call : String → List Value → Eval Value} {t : SlotTable} {s s' : Scopes}

theorem conditionDecides (hp : p.Compiled) (hcall : Answers p call) {n target : Nat} {cond : Expr}
    {u : Unit} {c : List Instr} {i : Instr} (hcond : checkCondition p s cond = .ok u)
    (hc : cond.code p t = .ok c) (hi : i.op = .jumpUnless target) :
    Decides p n (c ++ [i]) t target fun env ↦ evalCondition p call env cond := by
  simp only [checkCondition, bind_eq_ok] at hcond
  obtain ⟨ty, hty, -⟩ := hcond
  simp only [evalCondition]
  exact .of_value (fun env slots hlaid ↦ cond.computes hp hcall hlaid hty hc) hi

theorem assignCarriesOut (hp : p.Compiled) (hcall : Answers p call) {n : Nat} {value : Expr}
    {target : Path} {wanted ty : Ty} {c : List Instr} (htarget : target.typeIn p s = .ok wanted)
    (hvalue : value.typeIn p s = .ok ty) (hc : assignCode p t value target = .ok c) :
    CarriesOut p n c t t fun env ↦
      evalAssign p call env value target >>= fun env ↦ pure (.next env) := by
  match target with
  | .root name none =>
    simp only [assignCode, bind_eq_ok, pure_eq_ok] at hc
    obtain ⟨k, hk, cv, hcv, rfl⟩ := hc
    simp only [evalAssign, bind_assoc, pure_bind]
    exact .store (fun env slots hlaid ↦ value.computes hp hcall hlaid hvalue hcv) rfl
      (fun env fr v hlaid ↦ hlaid.set hk) (fun env v ↦ by rw [Env.names_set])
  | .root name (some index) =>
    simp only [assignCode, bind_eq_ok, pure_eq_ok] at hc
    obtain ⟨k, hk, ci, hci, cv, hcv, rfl⟩ := hc
    obtain ⟨t₀, hindex⟩ := Path.typed_root htarget
    obtain ⟨ti, hti⟩ := index_typed hindex
    -- An assignment to an item changes no variable, so it is a computation, and the environment is
    -- passed on behind it.
    have hassign : ∀ env, (evalAssign p call env value (.root name (some index)) >>= fun env ↦
        pure (Flow.next env)) = (index.eval p call env >>= fun i ↦ value.eval p call env >>=
          fun v ↦ liftM (Act.setItem (env.lookup name.text) i v)) >>= fun _ ↦
            pure (Flow.next env) := by
      intro env
      simp only [evalAssign, bind_assoc, pure_bind]
    simp only [hassign]
    refine .of_computes fun env slots hlaid ↦ ?_
    rw [List.cons_append, List.cons_append, List.append_assoc]
    refine .load rfl (hlaid.getElem?_slot hk) ?_
    refine (index.computes hp hcall hlaid hti hci).bindOver [_] fun i ↦ ?_
    refine (value.computes hp hcall hlaid hvalue hcv).bindOver [_, _] fun v ↦ ?_
    exact .act (fun _ ↦ Nat.zero_le _) fun _ ↦ .setItem _ _ v
  | .field base name none =>
    simp only [assignCode, bind_eq_ok, pure_eq_ok] at hc
    obtain ⟨cb, hcb, cv, hcv, rfl⟩ := hc
    obtain ⟨tb, t₀, htb, -⟩ := Path.typed_field htarget
    have hassign : ∀ env, (evalAssign p call env value (.field base name none) >>= fun env ↦
        pure (Flow.next env)) = (base.eval p call env >>= fun record ↦ value.eval p call env >>=
          fun v ↦ liftM (Act.setField name.text record v)) >>= fun _ ↦ pure (Flow.next env) := by
      intro env
      simp only [evalAssign, bind_assoc, pure_bind]
    simp only [hassign]
    refine .of_computes fun env slots hlaid ↦ ?_
    rw [List.append_assoc]
    refine (base.computes hp hcall hlaid htb hcb).bind fun record ↦ ?_
    refine (value.computes hp hcall hlaid hvalue hcv).bindOver [record] fun v ↦ ?_
    exact .act (fun _ ↦ Nat.zero_le _) fun _ ↦ .setField _ record v
  | .field base name (some index) =>
    simp only [assignCode, bind_eq_ok, pure_eq_ok] at hc
    obtain ⟨cb, hcb, ci, hci, cv, hcv, rfl⟩ := hc
    obtain ⟨tb, t₀, htb, hindex⟩ := Path.typed_field htarget
    obtain ⟨ti, hti⟩ := index_typed hindex
    have hassign : ∀ env, (evalAssign p call env value (.field base name (some index)) >>=
        fun env ↦ pure (Flow.next env)) = (base.eval p call env >>= fun record ↦
          liftM (Act.getField name.text record) >>= fun array ↦ index.eval p call env >>= fun i ↦
            value.eval p call env >>= fun v ↦ liftM (Act.setItem array i v)) >>= fun _ ↦
              pure (Flow.next env) := by
      intro env
      simp only [evalAssign, bind_assoc, pure_bind]
    simp only [hassign]
    refine .of_computes fun env slots hlaid ↦ ?_
    rw [List.append_assoc, List.append_assoc, List.cons_append]
    refine (base.computes hp hcall hlaid htb hcb).bind fun record ↦ ?_
    refine .actThen (fun _ ↦ Nat.le_refl _) (fun _ ↦ .getField _ record) fun array ↦ ?_
    refine (index.computes hp hcall hlaid hti hci).bindOver [array] fun i ↦ ?_
    refine (value.computes hp hcall hlaid hvalue hcv).bindOver [i, array] fun v ↦ ?_
    exact .act (fun _ ↦ Nat.zero_le _) fun _ ↦ .setItem array i v

/-- The branch of an `if`. -/
theorem branchCarriesOut {n : Nat} {note : String} {cond body rest : List Instr}
    {test : Env → Eval Bool} {x y : Env → Eval Flow}
    (htest : ∀ i : Instr, i.op = .jumpUnless (bodyAt n cond + body.length + 1 : Nat) →
      Decides p n (cond ++ [i]) t (bodyAt n cond + body.length + 1) test)
    (hx : CarriesOut p (bodyAt n cond) body t t x)
    (hy : CarriesOut p (bodyAt n cond + body.length + 1) rest t t y) :
    CarriesOut p n (branchCode n note cond body rest) t t fun env ↦
      test env >>= fun b ↦ if b then x env else y env := by
  have hbody : ∀ i, n + (cond ++ [i]).length = bodyAt n cond := by
    intro i
    rw [List.length_append, List.length_singleton, bodyAt, Nat.add_assoc]
  rw [branchCode, List.append_cons cond]
  refine .branch (htest _ ?_) ?_ ?_ ?_ hy
  · rfl
  · rw [hbody]
  · rw [hbody]
    exact hx
  · rfl

/-- The code of a call whose result is not wanted computes the call. -/
theorem callComputes (hp : p.Compiled) (hcall : Answers p call) {env : Env} {slots : Array Value}
    (hlaid : env.LaidOut t slots) {callee : Name} {args : List Expr} {ty : Ty} {c : List Instr}
    (hty : (Expr.call callee args).typeIn p s = .ok ty) (hc : callCode p t callee args = .ok c) :
    Computes p slots c [] ((Expr.call callee args).eval p call env) fun _ ↦ [] := by
  rw [callCode] at hc
  by_cases hprint : Builtin.ofName? callee.text = some .print
  · -- `print` leaves nothing on the stack, so its result is never pushed.
    simp only [hprint, if_true, bind_eq_ok, pure_eq_ok] at hc
    obtain ⟨-, -, ca, hca, rfl⟩ := hc
    simp only [Expr.typeIn, hprint, bind_eq_ok, require_eq_ok, decide_eq_true_eq] at hty
    obtain ⟨-, hlen, ts, hts, -⟩ := hty
    simp only [Expr.eval, hprint]
    refine .bindYield [] (argsComputes hp hcall hlaid args hts hca)
      (fun _ _ _ ↦ evalArgs_length) fun vs hvs ↦ ?_
    obtain ⟨v, rfl⟩ := List.length_eq_one_iff.mp (hvs.trans hlen)
    rw [← List.append_nil Builtin.print.action]
    have hwrite : Computes p slots [.noted .write "print"] [v] (liftM (Act.write v.text))
        fun _ ↦ [] := .act (fun _ ↦ Nat.zero_le _) fun _ ↦ .write v
    exact hwrite.bind fun _ ↦ .pure Value.null fun _ ↦ []
  · simp only [if_neg hprint, bind_eq_ok, pure_eq_ok] at hc
    obtain ⟨ce, hce, rfl⟩ := hc
    exact ((Expr.call callee args).computes hp hcall hlaid hty hce).pop rfl

/-- Counting the variable of a loop up. -/
theorem countCarriesOut {n k : Nat} {x : Name} (hk : t.slotOf x = .ok k) (note : String) :
    CarriesOut p n ([Instr.plain (.load k), Instr.plain (.push (.int 1)),
      Instr.plain (.arith .add)] ++ [Instr.noted (.store k) note]) t t (countUp x.text) := by
  refine .store (fun env slots hlaid ↦ ?_) rfl (fun env fr v hlaid ↦ hlaid.set hk)
    (fun env v ↦ by rw [Env.names_set])
  refine .load rfl (hlaid.getElem?_slot hk) (.push rfl ?_)
  exact .act (fun _ ↦ Nat.le_refl _) fun _ ↦ .arith .add _ _

/-- The test of a counting loop. -/
theorem withinDecides (hp : p.Compiled) (hcall : Answers p call) {n k target : Nat} {u : Unit}
    {x : Name} {last : Expr} {cl : List Instr} {i : Instr} (hk : t.slotOf x = .ok k)
    (hlast : checkBound p s .last last = .ok u) (hcl : last.code p t = .ok cl)
    (hi : i.op = .jumpUnless target) :
    Decides p n (.plain (.load k) :: cl ++ [.plain (.order .le)] ++ [i]) t target
      fun env ↦ evalWithin p call env x.text last := by
  simp only [checkBound, bind_eq_ok] at hlast
  obtain ⟨ty, hty, -⟩ := hlast
  refine .of_bool (fun env slots hlaid ↦ ?_) hi
  rw [evalWithin, List.cons_append]
  refine .load rfl (hlaid.getElem?_slot hk) ?_
  refine (last.computes hp hcall hlaid hty hcl).bindOver [_] fun bound ↦ ?_
  exact .act (fun _ ↦ Nat.le_refl _) fun _ ↦ .order .le _ bound

/-- A counting loop. -/
theorem forCarriesOut (hp : p.Compiled) (hcall : Answers p call) {fuel n start slot : Nat}
    {u u' : Unit} {var : Name} {first last : Expr} {ca cl cb test : List Instr}
    {x : Env → Eval Flow} {note note' note'' note₃ : String}
    (hfirst : checkBound p s .first first = .ok u) (hlast : checkBound p s' .last last = .ok u')
    (hca : first.code p t.push = .ok ca) (hcl : last.code p (t.push.declare var.text) = .ok cl)
    (hslot : slot = t.push.next) (hstart : start = n + ca.length + 1)
    (htest : test = .plain (.load slot) :: cl ++ [.plain (.order .le)])
    (hx : CarriesOut p (bodyAt start test) cb (t.push.declare var.text) (t.push.declare var.text)
      x) :
    CarriesOut p n (ca ++ Instr.noted (.store slot) note :: test ++
      Instr.noted (.jumpUnless (bodyAt start test + cb.length + 5 : Nat)) note' :: cb ++
      [Instr.plain (.load slot), Instr.plain (.push (.int 1)), Instr.plain (.arith .add),
        Instr.noted (.store slot) note'', Instr.noted (.jump start) note₃]) t t fun env ↦
      first.eval p call env >>= fun v ↦
        repeatWhile (fun env ↦ evalWithin p call env var.text last)
          (fun env ↦ x env >>= fun flow ↦ flow.andThen (countUp var.text)) fuel
          (env.enter.declare var.text v) >>= fun flow ↦
            flow.andThen fun env ↦ pure (.next env.leave) := by
  have hvar : (t.push.declare var.text).slotOf var = .ok slot := by
    rw [SlotTable.slotOf, SlotTable.slot?, SlotTable.declare, SlotTable.slotIn?, if_pos rfl, hslot]
    rfl
  -- The code is bracketed anew, into the pieces that are known to do their part.
  have hcode : ca ++ Instr.noted (.store slot) note :: test ++
      Instr.noted (.jumpUnless (bodyAt start test + cb.length + 5 : Nat)) note' :: cb ++
      [Instr.plain (.load slot), Instr.plain (.push (.int 1)), Instr.plain (.arith .add),
        Instr.noted (.store slot) note'', Instr.noted (.jump start) note₃] =
      ca ++ Instr.noted (.store slot) note :: (test ++
        [Instr.noted (.jumpUnless (bodyAt start test + cb.length + 5 : Nat)) note'] ++
        (cb ++ ([Instr.plain (.load slot), Instr.plain (.push (.int 1)),
          Instr.plain (.arith .add)] ++ [Instr.noted (.store slot) note''])) ++
        [Instr.noted (.jump start) note₃]) := by
    simp
  simp only [checkBound, bind_eq_ok] at hfirst
  obtain ⟨ty, hty, -⟩ := hfirst
  rw [hcode]
  subst hslot hstart htest
  refine .initialized (fun env slots hlaid ↦ ?_) rfl ?_
  · have hpush : env.LaidOut t.push slots := ⟨hlaid.names, hlaid.values⟩
    exact first.computes hp hcall hpush hty hca
  · refine .loop _ (withinDecides hp hcall hvar hlast hcl rfl) ?_ ?_ rfl fuel
    · simp [bodyAt]
      omega
    · rw [List.length_append, List.length_singleton, ← Nat.add_assoc]
      exact hx.append (countCarriesOut hvar note'')

mutual

/-- The code of a statement carries it out. -/
theorem Stmt.carriesOut (hp : p.Compiled) (hcall : Answers p call) (fuel : Nat)
    {result : TypeRef} {s s' : Scopes} {t t' : SlotTable} {n : Nat} {c : List Instr} :
    (stmt : Stmt) → stmt.check p result s = .ok s' → stmt.code p t n = .ok (c, t') →
    CarriesOut p n c t t' fun env ↦ stmt.exec p call fuel env
  | .var name type none, hk, hc => by
    cases hc
    simp only [Stmt.exec, evalInit]
    refine .store (fun env slots hlaid ↦ ?_) rfl
      (fun env fr v hlaid ↦ hlaid.add (Env.flatten_declare ..))
      (fun env v ↦ Env.names_tail_declare ..)
    exact .push rfl (.value .null)
  | .var name type (some init), hk, hc => by
    simp only [Stmt.check, bind_eq_ok, pure_eq_ok] at hk
    obtain ⟨-, -, ty, hty, -⟩ := hk
    obtain ⟨ty', hty', -⟩ := fits_of_varType hty
    simp only [Stmt.code, bind_eq_ok, pure_eq_ok, Prod.mk.injEq] at hc
    obtain ⟨cv, hcv, rfl, rfl⟩ := hc
    simp only [Stmt.exec, evalInit]
    exact .store (fun env slots hlaid ↦ init.computes hp hcall hlaid hty' hcv) rfl
      (fun env fr v hlaid ↦ hlaid.add (Env.flatten_declare ..))
      (fun env v ↦ Env.names_tail_declare ..)
  | .assign target value, hk, hc => by
    simp only [Stmt.check, bind_eq_ok] at hk
    obtain ⟨wanted, hw, ty, hty, -⟩ := hk
    simp only [Stmt.code, bind_eq_ok, pure_eq_ok, Prod.mk.injEq] at hc
    obtain ⟨ca, hca, rfl, rfl⟩ := hc
    simp only [Stmt.exec]
    exact assignCarriesOut hp hcall hw hty hca
  | .ret pos value, hk, hc => by
    simp only [Stmt.check, bind_eq_ok] at hk
    obtain ⟨ty, hty, -⟩ := hk
    simp only [Stmt.code, bind_eq_ok, pure_eq_ok, Prod.mk.injEq] at hc
    obtain ⟨cv, hcv, rfl, rfl⟩ := hc
    intro env slots template frs vs hlaid hcode
    obtain ⟨hcode, hret⟩ := standsAt_append.mp hcode
    simp only [Stmt.exec]
    refine (value.computes hp hcall hlaid hty hcv ⟨template, slots, n⟩ frs vs rfl hcode).bind ?_
    rintro v s' rfl
    exact .after (fun w ↦ reaches_ret (instr_of_standsAt hret) rfl) (.pure rfl)
  | .whileLoop cond body, hk, hc => by
    simp only [Stmt.check, bind_eq_ok] at hk
    obtain ⟨_, hcond, s₁, hbody, -⟩ := hk
    simp only [Stmt.code, bind_eq_ok, pure_eq_ok, Prod.mk.injEq] at hc
    obtain ⟨cc, hcc, ⟨cb, t₁⟩, hcb, rfl, rfl⟩ := hc
    rw [blockCode_pop hcb, List.append_cons cc]
    simp only [Stmt.exec]
    refine .loop (bodyAt n cc + cb.length + 1) (conditionDecides hp hcall hcond hcc rfl) ?_ ?_ rfl
      fuel
    · simp only [bodyAt, List.length_append, List.length_singleton, Nat.add_assoc]
    · rw [List.length_append, List.length_singleton, ← Nat.add_assoc]
      exact (blockCarriesOut hp hcall fuel body hbody hcb).inScope rfl
  | .forLoop var first last body, hk, hc => by
    simp only [Stmt.check, bind_eq_ok] at hk
    obtain ⟨_, hfirst, _, hlast, s₁, hbody, -⟩ := hk
    simp only [Stmt.code, bind_eq_ok, pure_eq_ok, Prod.mk.injEq] at hc
    obtain ⟨ca, hca, cl, hcl, ⟨cb, t₁⟩, hcb, rfl, rfl⟩ := hc
    -- Closing the scope of the loop takes away its variable, too.
    have hpop : t₁.pop = t := by
      rw [blockCode_slots body hcb]
      exact (((SlotTable.inside_push t).declare var.text).slotsAfterAll body).pop_eq
    rw [hpop]
    simp only [Stmt.exec]
    exact forCarriesOut hp hcall hfirst hlast hca hcl rfl rfl rfl
      ((blockCarriesOut hp hcall fuel body hbody hcb).inScope rfl)
  | .ifElse cond body other, hk, hc => by
    simp only [Stmt.check, bind_eq_ok] at hk
    obtain ⟨_, hcond, s₁, hbody, hother⟩ := hk
    simp only [Stmt.code, bind_eq_ok, pure_eq_ok, Prod.mk.injEq] at hc
    obtain ⟨cc, hcc, ⟨cb, t₁⟩, hcb, ⟨rest, t₂⟩, hrest, rfl, rfl⟩ := hc
    rw [blockCode_pop hcb] at hrest
    obtain rfl := other.code_slots hrest
    simp only [Stmt.exec]
    exact branchCarriesOut (fun _ hi ↦ conditionDecides hp hcall hcond hcc hi)
      ((blockCarriesOut hp hcall fuel body hbody hcb).inScope rfl)
      (other.carriesOut hp hcall fuel hother hrest)
  | .call callee args, hk, hc => by
    simp only [Stmt.check, bind_eq_ok] at hk
    obtain ⟨ty, hty, -⟩ := hk
    simp only [Stmt.code, bind_eq_ok, pure_eq_ok, Prod.mk.injEq] at hc
    obtain ⟨cc, hcc, rfl, rfl⟩ := hc
    simp only [Stmt.exec]
    exact .of_computes fun env slots hlaid ↦ callComputes hp hcall hlaid hty hcc

theorem Else.carriesOut (hp : p.Compiled) (hcall : Answers p call) (fuel : Nat)
    {result : TypeRef} {s s' : Scopes} {t t' : SlotTable} {n : Nat} {c : List Instr} :
    (other : Else) → other.check p result s = .ok s' → other.code p t n = .ok (c, t') →
    CarriesOut p n c t t' fun env ↦ other.exec p call fuel env
  | .none, hk, hc => by
    cases hc
    simp only [Else.exec]
    exact .nil n t
  | .block body, hk, hc => by
    simp only [Else.check, bind_eq_ok] at hk
    obtain ⟨s₁, hbody, -⟩ := hk
    simp only [Else.code, bind_eq_ok, pure_eq_ok, Prod.mk.injEq] at hc
    obtain ⟨⟨cb, t₁⟩, hcb, rfl, rfl⟩ := hc
    rw [blockCode_pop hcb]
    simp only [Else.exec]
    exact (blockCarriesOut hp hcall fuel body hbody hcb).inScope rfl
  | .elseIf cond body other, hk, hc => by
    simp only [Else.check, bind_eq_ok] at hk
    obtain ⟨_, hcond, s₁, hbody, hother⟩ := hk
    simp only [Else.code, bind_eq_ok, pure_eq_ok, Prod.mk.injEq] at hc
    obtain ⟨cc, hcc, ⟨cb, t₁⟩, hcb, ⟨rest, t₂⟩, hrest, rfl, rfl⟩ := hc
    rw [blockCode_pop hcb] at hrest
    obtain rfl := other.code_slots hrest
    simp only [Else.exec]
    exact branchCarriesOut (fun _ hi ↦ conditionDecides hp hcall hcond hcc hi)
      ((blockCarriesOut hp hcall fuel body hbody hcb).inScope rfl)
      (other.carriesOut hp hcall fuel hother hrest)

theorem blockCarriesOut (hp : p.Compiled) (hcall : Answers p call) (fuel : Nat)
    {result : TypeRef} {s s' : Scopes} {t t' : SlotTable} {n : Nat} {c : List Instr} :
    (stmts : List Stmt) → checkBlock p result s stmts = .ok s' →
    blockCode p t n stmts = .ok (c, t') →
    CarriesOut p n c t t' fun env ↦ execBlock p call fuel env stmts
  | [], hk, hc => by
    cases hc
    simp only [execBlock]
    exact .nil n t
  | stmt :: stmts, hk, hc => by
    simp only [checkBlock, bind_eq_ok] at hk
    obtain ⟨s₁, hs₁, hrest⟩ := hk
    simp only [blockCode, bind_eq_ok, pure_eq_ok, Prod.mk.injEq] at hc
    obtain ⟨⟨c₁, t₁⟩, hc₁, ⟨c₂, t₂⟩, hc₂, rfl, rfl⟩ := hc
    simp only [execBlock]
    exact (stmt.carriesOut hp hcall fuel hs₁ hc₁).append
      (blockCarriesOut hp hcall fuel stmts hrest hc₂)

end

end

end Pebble
