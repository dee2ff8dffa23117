import Pebble.Proofs.StmtRuns

/-!
# Generated code does what programs say

If evaluating the main function of a checked program comes to an end, with or without a fault, then
so does running its code on a fresh machine, with the same output, the same store, the same input
left over and the same fault. Only the limits of the machine can prevent that, and limits that leave
room for the steps of the run do not.

## Ends of functions

A function that comes to its end answers `null`, so code is added for that; but not where the code
ends in a return and no jump goes behind it. In that case the last statement is a return and
execution never comes to the end of the body (`blockCode_returns`).
-/

namespace Pebble

section
variable {p : Program} {call : String → List Value → Eval Value} {t t' : SlotTable}

/-! ## Entering a function -/

/-- The code at the beginning of a function moves the arguments into the first slots. -/
theorem params_reach (template : Template) (frs : List Frame) (vs : List Value)
    {params : List VarDef} {args : List Value} (hlen : args.length = params.length)
    {scope : List (String × Value)} {slots : Array Value} {n : Nat}
    (hlaid : Env.LaidOut [scope] t slots)
    (hcode : StandsAt template.instrs.toList n (paramsCode t params).1) :
    ∃ slots', Env.LaidOut [((params.map (·.name.text)).zip args).reverse ++ scope]
        (paramsCode t params).2 slots' ∧
      ∀ w, Reaches p ⟨⟨template, slots, n⟩ :: frs, args ++ vs⟩ w
        ⟨⟨template, slots', n + (paramsCode t params).1.length⟩ :: frs, vs⟩ w := by
  induction params generalizing args t scope slots n with
  | nil =>
    obtain rfl := List.eq_nil_of_length_eq_zero hlen
    exact ⟨slots, hlaid, fun w ↦ .refl _ _ w⟩
  | cons param params ih =>
    obtain ⟨a, args, rfl⟩ := List.exists_cons_of_length_eq_add_one hlen
    rw [paramsCode] at hcode ⊢
    have hlaid' : Env.LaidOut [(param.name.text, a) :: scope] (t.declare param.name.text)
        ((⟨template, slots, n + 1⟩ : Frame).store t.next a).slots := hlaid.add rfl
    obtain ⟨slots', hlaid', hreach⟩ := ih (Nat.succ.inj hlen) hlaid' (standsAt_cons.mp hcode).2
    refine ⟨slots', ?_, fun w ↦ ?_⟩
    · rw [List.map_cons, List.zip_cons_cons, List.reverse_cons, List.append_assoc]
      exact hlaid'
    · rw [List.length_cons, Nat.add_comm _ 1, ← Nat.add_assoc]
      exact (reaches_store (instr_of_standsAt hcode) rfl).trans (hreach w)

/-! ## Code that does not come to its end -/

theorem EndsInReturn.of_append {code code' : List Instr} {n : Nat}
    (h : EndsInReturn (code ++ code') n) (hne : code' ≠ []) : EndsInReturn code' n := by
  refine ⟨?_, fun i hi ↦ h.jumps i (List.mem_append_right _ hi)⟩
  have hlast := h.last
  rwa [List.getLast?_append_of_ne_nil _ hne] at hlast

/-- Instructions that only store do not end in a return. -/
theorem EndsInReturn.of_params {params code : List Instr} {n : Nat}
    (h : EndsInReturn (params ++ code) n) (hparams : ∀ i ∈ params, ∃ k, i.op = .store k) :
    EndsInReturn code n := by
  refine h.of_append ?_
  rintro rfl
  have hlast := h.last
  rw [List.append_nil, Option.map_eq_some_iff] at hlast
  obtain ⟨i, hi, hret⟩ := hlast
  obtain ⟨k, hk⟩ := hparams i (List.mem_of_getLast? hi)
  rw [hk] at hret
  cases hret

theorem not_endsInReturn {code : List Instr} {i : Instr} {n : Nat} (hi : i.op ≠ .ret) :
    ¬ EndsInReturn (code ++ [i]) n := by
  intro h
  have hlast := h.last
  rw [List.getLast?_concat, Option.map_some, Option.some.injEq] at hlast
  exact hi hlast

theorem assignCode_not_return {value : Expr} {target : Path} {n : Nat} {c : List Instr}
    (hc : assignCode p t value target = .ok c) : ¬ EndsInReturn c n := by
  match target with
  | .root name none =>
    simp only [assignCode, bind_eq_ok, pure_eq_ok] at hc
    obtain ⟨k, -, cv, -, rfl⟩ := hc
    exact not_endsInReturn (by simp [Instr.noted])
  | .root name (some index) =>
    simp only [assignCode, bind_eq_ok, pure_eq_ok] at hc
    obtain ⟨k, -, ci, -, cv, -, rfl⟩ := hc
    exact not_endsInReturn (by simp [Instr.plain])
  | .field base name none =>
    simp only [assignCode, bind_eq_ok, pure_eq_ok] at hc
    obtain ⟨cb, -, cv, -, rfl⟩ := hc
    exact not_endsInReturn (by simp [Instr.noted])
  | .field base name (some index) =>
    simp only [assignCode, bind_eq_ok, pure_eq_ok] at hc
    obtain ⟨cb, -, ci, -, cv, -, rfl⟩ := hc
    exact not_endsInReturn (by simp [Instr.plain])

theorem callCode_not_return {callee : Name} {args : List Expr} {n : Nat} {c : List Instr}
    (hc : callCode p t callee args = .ok c) : ¬ EndsInReturn c n := by
  rw [callCode] at hc
  split at hc
  · simp only [bind_eq_ok, pure_eq_ok] at hc
    obtain ⟨-, -, ca, -, rfl⟩ := hc
    exact not_endsInReturn (by simp [Instr.noted])
  · simp only [bind_eq_ok, pure_eq_ok] at hc
    obtain ⟨ce, -, rfl⟩ := hc
    exact not_endsInReturn (by simp [Instr.noted])

/-- The first branch of an `if` ends in a jump behind the rest. -/
theorem branchCode_not_return {n : Nat} {note : String} {cond body rest : List Instr} :
    ¬ EndsInReturn (branchCode n note cond body rest)
      (n + (branchCode n note cond body rest).length) := by
  intro h
  have hend : n + (branchCode n note cond body rest).length =
      n + cond.length + 1 + body.length + 1 + rest.length := by
    simp only [branchCode, List.length_append, List.length_cons]
    omega
  rw [hend] at h
  refine h.jumps (.noted (.jump (n + cond.length + 1 + body.length + 1 + rest.length : Nat))
    "end if") ?_ rfl
  rw [branchCode]
  exact List.mem_append_right _ List.mem_cons_self

/-- Only a return has such code. -/
theorem Stmt.code_returns {stmt : Stmt} {n : Nat} {c : List Instr}
    (hc : stmt.code p t n = .ok (c, t')) (h : EndsInReturn c (n + c.length)) :
    ∃ pos value, stmt = .ret pos value := by
  match stmt with
  | .ret pos value => exact ⟨pos, value, rfl⟩
  | .var name type none =>
    cases hc
    exact absurd h (not_endsInReturn (by simp [Instr.noted]))
  | .var name type (some init) =>
    simp only [Stmt.code, bind_eq_ok, pure_eq_ok, Prod.mk.injEq] at hc
    obtain ⟨cv, -, rfl, -⟩ := hc
    exact absurd h (not_endsInReturn (by simp [Instr.noted]))
  | .assign target value =>
    simp only [Stmt.code, bind_eq_ok, pure_eq_ok, Prod.mk.injEq] at hc
    obtain ⟨ca, hca, rfl, -⟩ := hc
    exact absurd h (assignCode_not_return hca)
  | .whileLoop cond body =>
    simp only [Stmt.code, bind_eq_ok, pure_eq_ok, Prod.mk.injEq] at hc
    obtain ⟨cc, -, ⟨cb, t₁⟩, -, rfl, -⟩ := hc
    exact absurd h (not_endsInReturn (by simp [Instr.noted]))
  | .forLoop x first last body =>
    simp only [Stmt.code, bind_eq_ok, pure_eq_ok, Prod.mk.injEq] at hc
    obtain ⟨ca, -, cl, -, ⟨cb, t₁⟩, -, rfl, -⟩ := hc
    have hlast := (h.of_append (by simp)).last
    simp [Instr.noted] at hlast
  | .ifElse cond body other =>
    simp only [Stmt.code, bind_eq_ok, pure_eq_ok, Prod.mk.injEq] at hc
    obtain ⟨cc, -, ⟨cb, t₁⟩, -, ⟨rest, t₂⟩, -, rfl, -⟩ := hc
    exact absurd h branchCode_not_return
  | .call callee args =>
    simp only [Stmt.code, bind_eq_ok, pure_eq_ok, Prod.mk.injEq] at hc
    obtain ⟨ca, hca, rfl, -⟩ := hc
    exact absurd h (callCode_not_return hca)

/-- Statements with such code are never left at their end. -/
theorem blockCode_returns {n : Nat} {c : List Instr} {stmts : List Stmt}
    (hc : blockCode p t n stmts = .ok (c, t')) (h : EndsInReturn c (n + c.length)) {fuel : Nat}
    {env env' : Env} {w w' : World} :
    (execBlock p call fuel env stmts).run w ≠ some (.ok (.next env') w') := by
  induction stmts generalizing t n c env w with
  | nil =>
    cases hc
    exact absurd h.last (by simp)
  | cons stmt stmts ih =>
    simp only [blockCode, bind_eq_ok, pure_eq_ok, Prod.mk.injEq] at hc
    obtain ⟨⟨first, t₁⟩, hfirst, ⟨rest, t₂⟩, hrest, rfl, rfl⟩ := hc
    intro hrun
    rw [execBlock] at hrun
    obtain ⟨flow, w₁, hflow, hrun⟩ := Eval.bind_eq_ok hrun
    cases flow with
    | returned v => cases hrun
    | next env₁ =>
      by_cases hne : rest = []
      · -- Then the first statement is the return.
        subst hne
        rw [List.append_nil] at h
        obtain ⟨pos, value, rfl⟩ := Stmt.code_returns hfirst h
        rw [Stmt.exec] at hflow
        obtain ⟨v, w₂, -, hflow⟩ := Eval.bind_eq_ok hflow
        cases hflow
      · rw [List.length_append, ← Nat.add_assoc] at h
        exact ih hrest (h.of_append hne) hrun

/-! ## Functions -/

theorem standsAt_withReturn (code : List Instr) : StandsAt (withReturn code) 0 code := by
  rw [withReturn]
  split
  · exact List.prefix_append _ _
  · exact standsAt_self code

/-- Behind the code of a function there is a return of `null`, if its end can be reached. -/
theorem standsAt_end {code : List Instr} (h : reachesEnd code = true) :
    StandsAt (withReturn code) code.length
      [.noted (.push .null) "implicit return", .plain .ret] := by
  rw [withReturn, if_pos h]
  exact ⟨[], by rw [List.append_nil, List.drop_left]⟩

/-- Calls are answered as the functions say, however deep they are nested. -/
theorem answers_call (hp : p.Compiled) (n : Nat) : Answers p (p.call n) := by
  induction n with
  | zero => exact fun _ _ _ _ _ _ _ _ _ ↦ .exhausted
  | succ n ih =>
    intro x f template args hf ht hlen frs vs
    obtain ⟨body, t', hbody, htemplate⟩ := FunDef.code_eq_ok ht
    obtain ⟨-, s', hcheck⟩ := FunDef.check_eq_ok
      (hp.checked.functions f (Program.function?_some hf).1)
    generalize hparams : paramsCode SlotTable.empty.push f.params = params at hbody htemplate
    obtain ⟨params, t⟩ := params
    have hinstrs : template.instrs.toList = withReturn (params ++ body) := by rw [htemplate]
    have hcode := standsAt_withReturn (params ++ body)
    rw [← hinstrs] at hcode
    obtain ⟨hcodeParams, hcodeBody⟩ := standsAt_append.mp hcode
    -- The arguments are stored.
    have hempty : Env.LaidOut [[]] SlotTable.empty.push #[] := ⟨rfl, fun k v hk ↦ by cases hk⟩
    have hreach := params_reach (p := p) template frs vs hlen hempty (n := 0)
    rw [hparams, List.append_nil] at hreach
    obtain ⟨slots, hlaid, hreach⟩ := hreach hcodeParams
    simp only [Program.call, hf]
    refine .after hreach ?_
    -- The body is carried out. If it does not return, its end has been reached.
    rw [Nat.zero_add] at hcodeBody ⊢
    have hcarried := blockCarriesOut hp ih n f.body hcheck hbody (f.env args) slots template frs vs
      hlaid hcodeBody
    refine (hcarried.yielding (P := fun flow ↦ ∀ env, flow = .next env →
      reachesEnd (params ++ body) = true) ?_).bind ?_
    · rintro w _ w' hrun env rfl
      by_contra hend
      refine blockCode_returns hbody ?_ hrun
      rw [← List.length_append]
      exact (not_reachesEnd (by simpa using hend)).of_params
        (by rw [← congrArg Prod.fst hparams]; exact paramsCode_stores _ _)
    · rintro (env | v) s' ⟨hend, hs'⟩
      · obtain ⟨slots', rfl, -⟩ := hs'
        have hret := standsAt_end (hend env rfl)
        rw [← hinstrs, List.length_append] at hret
        have hpush : ∀ w, Reaches p
            ⟨⟨template, slots', params.length + body.length⟩ :: frs, [] ++ vs⟩ w
            ⟨⟨template, slots', params.length + body.length + 1⟩ :: frs, [.null] ++ vs⟩ w :=
          fun w ↦ reaches_does (instr_of_standsAt hret) (Nat.le_refl _) fun _ ↦ .push .null
        refine .after (fun w ↦ (hpush w).trans ?_) (.pure rfl)
        exact reaches_ret (instr_of_standsAt (standsAt_cons.mp hret).2) rfl
      · obtain rfl := hs'
        exact .pure rfl

/-! ## Programs -/

/-- A run that has ended as an evaluation does: with the same store, input and output, and with the
same fault if there is one. -/
def Ending.Agrees : Ending → Status × Machine → Prop
  | .normal w, (status, m) => status = .finished ∧ m.world = w
  | .fault e w, (status, m) =>
    (∃ r, status = .failed r ∧ r.fault.untargeted = e.untargeted) ∧ m.world = w

/-- The limits of a machine leave room for `n` more steps. -/
def Machine.HasRoom (m : Machine) (n : Nat) : Prop :=
  m.limits.Suffice ⟨m.frames, m.operands⟩ m.steps n

theorem Program.Checked.compiled (hp : p.Checked) {ts : List Template} (hcode : p.code = .ok ts) :
    p.Compiled := by
  refine ⟨hp, fun x f hf ↦ ?_⟩
  obtain ⟨t, -, ht⟩ := find?_of_forall₂_code (forall₂_of_mapM_eq_ok hcode) hf
  exact ⟨t, ht⟩

/-- A machine without frames has finished. -/
theorem goes_finished (w : World) :
    Goes p ⟨[], []⟩ w 1 fun _ _ r ↦ (Ending.normal w).Agrees r :=
  fun _ _ _ ↦ .inr ⟨rfl, rfl⟩

/-- From the start of the main function, a run ends as evaluation does. -/
theorem Program.Ends.goes {f : FunDef} {template : Template} {input : List UInt8} {ending : Ending}
    (h : p.Ends input ending) (hp : p.Compiled) (hf : p.function? "main" = some f)
    (ht : f.code p = .ok template) :
    ∃ n, Goes p ⟨[.enter template], []⟩ ⟨.empty, input, ""⟩ n fun _ _ r ↦ ending.Agrees r := by
  obtain ⟨hmem, hname⟩ := Program.function?_some hf
  obtain ⟨hmain, -⟩ := FunDef.check_eq_ok (hp.checked.functions f hmem)
  have hparams := FunDef.params_of_main hmain hname
  have hanswers : ∀ fuel, Realizes p ⟨[.enter template], []⟩ (p.call fuel "main" [])
      fun v s' ↦ s' = ⟨[], answered [] v []⟩ :=
    fun fuel ↦ answers_call hp fuel "main" f template [] hf ht (by rw [hparams]; rfl) [] []
  cases h with
  | @normal fuel v w hrun =>
    have hw := hanswers fuel ⟨.empty, input, ""⟩
    rw [hrun] at hw
    obtain ⟨s', rfl, n, hs, hgoes⟩ := hw
    exact ⟨n + 1, hgoes.trans hs (goes_finished w)⟩
  | @fault fuel e w hrun =>
    have hw := hanswers fuel ⟨.empty, input, ""⟩
    rw [hrun] at hw
    obtain ⟨n, hgoes⟩ := hw
    refine ⟨n, fun m k hm ↦ (hgoes m k hm).imp_right ?_⟩
    rintro ⟨report, m', hr, hfault, hworld⟩
    rw [hr]
    exact ⟨⟨report, rfl, hfault⟩, hworld⟩

/-- **Compiler correctness.** If evaluating a checked program on an input comes to an end, its code
can be started on a fresh machine with any limits and ends in the same way after a number of steps
that does not depend on the limits, unless a limit cuts the run short. Limits with room for that
many steps do not. -/
theorem Program.code_correct {ts : List Template} {input : List UInt8} {ending : Ending}
    (hcheck : p.check = .ok ()) (hcode : p.code = .ok ts) (hends : p.Ends input ending) :
    ∃ n, ∀ limits : Limits, ∃ m : Machine,
      (Machine.fresh limits input).startTemplates ts = (.ok (), m) ∧
      (m.Cut n ∨ ending.Agrees (m.runFor n)) ∧ (m.HasRoom n → ending.Agrees (m.runFor n)) := by
  have hchecked := Program.checked_of_check hcheck
  have hp := hchecked.compiled hcode
  obtain ⟨f, hf⟩ := hchecked.main
  obtain ⟨template, ht⟩ := hp.code "main" f hf
  obtain ⟨n, hgoes⟩ := hends.goes hp hf ht
  refine ⟨n, fun limits ↦ ?_⟩
  obtain ⟨m, f', t', hlink, -, hf', ht', hstart⟩ := hchecked.startTemplates hcode limits input
  obtain rfl : f' = f := Option.some.inj (hf'.symm.trans hf)
  obtain rfl : t' = template := Except.ok.inj (ht'.symm.trans ht)
  refine ⟨_, hstart, ?_, fun hroom ↦ ?_⟩
  · exact (hgoes m 0 hlink).imp_left And.left
  · exact (hgoes m 0 hlink).resolve_left fun hcut ↦ hcut.2 hroom

/-- A loop that prints the values of a recursive function. -/
theorem Program.code_correct_factorials :
    ∃ p ts w, parseSource
        ("int f(n: int) \x7b if n == 0 \x7b return 1 \x7d return n * f(n - 1) \x7d " ++
          "void main() \x7b for i from 1 to 4 \x7b print(f(i)) \x7d \x7d") = .ok p ∧
      p.check = .ok () ∧ p.code = .ok ts ∧ p.Ends [] (.normal w) ∧ w.output = "12624" ∧
      ∃ n, ∀ limits : Limits, ∃ m : Machine,
        (Machine.fresh limits []).startTemplates ts = (.ok (), m) ∧
        (m.Cut n ∨ (Ending.normal w).Agrees (m.runFor n)) ∧
        (m.HasRoom n → (Ending.normal w).Agrees (m.runFor n)) := by
  have hok : (parseSource
      ("int f(n: int) \x7b if n == 0 \x7b return 1 \x7d return n * f(n - 1) \x7d " ++
        "void main() \x7b for i from 1 to 4 \x7b print(f(i)) \x7d \x7d")).toOption.any
      (fun p ↦ p.check.isOk && p.code.isOk && p.prints 9 [] "12624") = true := by
    decide +kernel
  obtain ⟨p, hp, h⟩ := eq_ok_of_any hok
  simp only [Bool.and_eq_true] at h
  obtain ⟨⟨hcheck, hcode⟩, hprints⟩ := h
  obtain ⟨_, hcheck⟩ := eq_ok_of_isOk hcheck
  obtain ⟨ts, hcode⟩ := eq_ok_of_isOk hcode
  obtain ⟨w, hends, hout⟩ := Program.ends_of_prints hprints
  exact ⟨p, ts, w, hp, hcheck, hcode, hends, hout, Program.code_correct hcheck hcode hends⟩

end

end Pebble
