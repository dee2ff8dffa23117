import Pebble.Proofs.StmtTypes

/-!
# Stack heights

At each instruction of a generated template it is known how many operands the function has on the
stack: one number for each index, whatever way the index is reached. The number is the count of
operands pending at the spot of the instruction.

An assignment of heights that fits a template is what a stack discipline needs: operands are there
when they are taken, paths that meet agree, a return finds its value and nothing else, and no path
leads out of the template.
-/

namespace Pebble

/-! ## What operations take and leave -/

/-- The number of operands an operation takes. A call takes the arguments of the function. -/
def Op.pops (p : Program) : Op → Nat
  | push _ | nop | load _ | jump _ | newRecord | read => 0
  | pop | dup | store _ | not | jumpUnless _ | ret | getField _ | newArray | write | size
  | convert _ => 1
  | arith _ | logic _ | order _ | equal | unequal | setField _ | getItem | element => 2
  | setItem => 3
  | call x => (p.function? x).elim 0 (·.params.length)

/-- The number of operands an operation leaves for those it takes. -/
def Op.pushes : Op → Nat
  | pop | nop | store _ | jump _ | jumpUnless _ | ret | setField _ | setItem | write => 0
  | dup => 2
  | _ => 1

/-- Whether the instruction after this one can be executed next. -/
def Op.fallsThrough : Op → Bool
  | jump _ | ret => false
  | _ => true

/-- `op.GoesTo n k`: from index `n`, the operation can lead to index `k` of the same template. -/
def Op.GoesTo (op : Op) (n k : Nat) : Prop :=
  op.fallsThrough = true ∧ k = n + 1 ∨ op.target? = some (k : Int)

/-- `height` fits an operation at index `n`. -/
structure Op.FitsHeights (p : Program) (op : Op) (n : Nat) (height : Nat → Nat) : Prop where
  /-- Operands are there when they are taken. -/
  operands : op.pops p ≤ height n
  /-- Wherever the operation leads to, the height is as it leaves it. -/
  edges : ∀ k, op.GoesTo n k → height k + op.pops p = height n + op.pushes
  /-- A return finds its value alone. -/
  returns : op = .ret → height n = 1
  /-- A call is one of a function of the program. -/
  calls : ∀ x, op = .call x → ∃ f, p.function? x = some f

/-- `height` fits a template with this number of parameters. -/
structure Template.FitsHeights (p : Program) (params : Nat) (t : Template) (height : Nat → Nat) :
    Prop where
  /-- Code begins with the arguments on the stack. -/
  entry : height 0 = params
  instrs : ∀ (n : Nat) (i : Instr), t.instrs[n]? = some i → i.op.FitsHeights p n height
  /-- Every jump has a target inside the template. -/
  targets : ∀ (n : Nat) (i : Instr), t.instrs[n]? = some i → ∀ target, i.op.target? = some target →
    0 ≤ target ∧ target < t.instrs.size
  last : t.lastOp? = some .ret

/-- No path leads out of the template. -/
theorem Template.FitsHeights.inside {p : Program} {params : Nat} {t : Template}
    {height : Nat → Nat} (h : t.FitsHeights p params height) {n k : Nat} {i : Instr}
    (hi : t.instrs[n]? = some i) (hk : i.op.GoesTo n k) : k < t.instrs.size := by
  rcases hk with ⟨hfalls, rfl⟩ | htarget
  · have hn : n < t.instrs.size := (Array.getElem?_eq_some_iff.mp hi).1
    -- The last instruction is a return, which does not fall through.
    by_contra hend
    have hlast := h.last
    have hback : t.instrs.back? = some i := by
      rw [Array.back?_eq_getElem?, show t.instrs.size - 1 = n by omega, hi]
    rw [Template.lastOp?, hback] at hlast
    have hret : i.op = .ret := Option.some.inj hlast
    rw [hret] at hfalls
    cases hfalls
  · obtain ⟨-, hlt⟩ := h.targets n i hi k htarget
    omega

/-! ## The heights of a function -/

section
variable {p : Program}

/-- An operation that goes on changes the number of pending operands as its type says. -/
theorem Op.Flows.heights {op : Op} {a b : Spot} (h : op.Flows p a b) :
    op.pops p ≤ a.pending.length ∧ b.pending.length + op.pops p = a.pending.length + op.pushes := by
  cases h with
  | call hf hargs =>
    have hlen := hargs.length_eq
    simp only [Op.pops, hf, Option.elim_some, Op.pushes, List.length_append, List.length_map,
      List.length_cons]
    omega
  | _ => simp [Op.pops, Op.pushes]

theorem Op.Flows.fallsThrough {op : Op} {a b : Spot} (h : op.Flows p a b) :
    op.fallsThrough = true ∧ op.target? = none ∧ op ≠ .ret := by
  cases h <;> exact ⟨rfl, rfl, by simp⟩

theorem Op.Flows.calls {op : Op} {a b : Spot} (h : op.Flows p a b) {x : String}
    (hx : op = .call x) : ∃ f, p.function? x = some f := by
  subst hx
  cases h with
  | call hf _ => exact ⟨_, hf⟩

/-- The number of operands that a function has on the stack at an index of its code. -/
def FunDef.heightAt (p : Program) (f : FunDef) (n : Nat) : Nat :=
  (f.spots p)[n]?.elim 0 (·.pending.length)

theorem FunDef.heightAt_eq {f : FunDef} {n : Nat} {a : Spot} (h : (f.spots p)[n]? = some a) :
    f.heightAt p n = a.pending.length := by
  rw [FunDef.heightAt, h, Option.elim_some]

theorem Enters.heightAt {f : FunDef} {n : Nat} {a : Spot} (h : Enters (f.spots p) n a) :
    f.heightAt p n = a.pending.length := by
  obtain ⟨b, hb, hpending, -⟩ := h
  rw [FunDef.heightAt_eq hb, hpending]

theorem Op.Leads.fitsHeights {f : FunDef} {op : Op} {n : Nat} {a : Spot}
    (ha : (f.spots p)[n]? = some a) (h : op.Leads p f (f.spots p) n a) :
    op.FitsHeights p n (f.heightAt p) := by
  have hn := FunDef.heightAt_eq ha
  cases h with
  | next hflow hnext =>
    obtain ⟨hpops, hsum⟩ := hflow.heights
    obtain ⟨-, htarget, hret⟩ := hflow.fallsThrough
    refine ⟨hn ▸ hpops, ?_, fun h ↦ absurd h hret, fun x hx ↦ hflow.calls hx⟩
    rintro k (⟨-, rfl⟩ | hk)
    · rw [hnext.heightAt, hn, hsum]
    · rw [htarget] at hk
      cases hk
  | @jump _ target henter =>
    refine ⟨Nat.zero_le _, ?_, Op.noConfusion, fun x hx ↦ Op.noConfusion hx⟩
    rintro k (⟨hfalls, -⟩ | hk)
    · cases hfalls
    · obtain rfl : target = k := Int.ofNat_inj.mp (Option.some.inj hk)
      rw [henter.heightAt, hn]
      rfl
  | @jumpUnless s ps target hnext henter =>
    have hlen : f.heightAt p n = ps.length + 1 := hn
    refine ⟨?_, ?_, Op.noConfusion, fun x hx ↦ Op.noConfusion hx⟩
    · rw [hlen]
      exact Nat.le_add_left 1 _
    rintro k (⟨-, rfl⟩ | hk)
    · rw [hnext.heightAt, hlen]
      rfl
    · obtain rfl : target = k := Int.ofNat_inj.mp (Option.some.inj hk)
      rw [henter.heightAt, hlen]
      rfl
  | ret hfit =>
    refine ⟨Nat.le_of_eq hn.symm, ?_, fun _ ↦ hn, fun x hx ↦ Op.noConfusion hx⟩
    rintro k (⟨hfalls, -⟩ | hk)
    · cases hfalls
    · cases hk

/-- **Heights.** The pending operands of a checked function fit its template. -/
theorem FunDef.fitsHeights (hp : p.Checked) {f : FunDef} (hf : f ∈ p.functions) {t : Template}
    (hcode : f.code p = .ok t) : t.FitsHeights p f.params.length (f.heightAt p) := by
  obtain ⟨henter, hleads⟩ := FunDef.leads hp (hp.functions f hf) hcode
  obtain ⟨hjumps, hend⟩ := FunDef.code_jumps hcode
  refine ⟨?_, fun n i hi ↦ ?_, fun n i hi target htarget ↦ ?_, ?_⟩
  · rw [henter.heightAt]
    exact List.length_map ..
  · obtain ⟨a, ha, hlead⟩ := hleads n i (by rw [Array.getElem?_toList, hi])
    rw [Nat.zero_add] at ha hlead
    exact hlead.fitsHeights ha
  · have hmem : i ∈ t.instrs.toList := Array.mem_toList_iff.mpr (Array.mem_of_getElem? hi)
    obtain ⟨hpos, hle⟩ := hjumps i hmem target htarget
    have hne : target ≠ (t.instrs.toList.length : Int) := by
      rintro rfl
      exact hend.jumps i hmem htarget
    rw [Array.length_toList] at hle hne
    exact ⟨hpos, by omega⟩
  · rw [Template.lastOp?, ← Array.getLast?_toList]
    exact hend.last

end

end Pebble
