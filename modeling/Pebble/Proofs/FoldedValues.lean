import Mathlib.Algebra.Group.Int.Defs
import Mathlib.Algebra.Group.Nat.Defs
import Mathlib.Tactic.Common
import Pebble.Proofs.Evaluation
import Pebble.Syntax.Folding

/-!
# Folding computes what evaluation computes

Where an operation on two literals folds, evaluating the operator on their values succeeds with the
value of the folded literal. Shifts need an argument: a product with a power of two is a shift to
the left, and for a dividend that is not negative a quotient by one is a shift to the right.
-/

namespace Pebble

/-! ## Shifts -/

section
variable {n a b : Int32} {k : Nat}

theorem one_le_of_pos (h : 0 < n) : 1 ≤ n := by
  rw [Int32.lt_iff_toInt_lt] at h
  rw [Int32.le_iff_toInt_le]
  exact h

/-- Taking one away from a power of two clears its only bit. -/
theorem powerOfTwo?_eq_some (h : powerOfTwo? n = some k) : k < 31 ∧ n = Int32.ofNat (2 ^ k) := by
  rw [powerOfTwo?] at h
  split at h
  · next hcond =>
    rw [Bool.and_eq_true, decide_eq_true_eq, beq_iff_eq] at hcond
    obtain ⟨hpos, hand⟩ := hcond
    have hn : 0 ≤ n := Int32.le_of_lt hpos
    have hone : 1 ≤ n := one_le_of_pos hpos
    have hpred : 0 ≤ n - 1 := by
      rw [Int32.le_iff_toInt_le, Int32.toInt_sub_of_le n 1 (by decide) hone]
      rw [Int32.le_iff_toInt_le] at hone
      simpa using hone
    have hpredNat : (n - 1).toBitVec.toNat = n.toNatClampNeg - 1 := by
      rw [Int32.toNat_toBitVec_of_le hpred, Int32.toNatClampNeg_sub_of_le (by decide) hone]
      rfl
    have hbits : n.toNatClampNeg &&& (n.toNatClampNeg - 1) = 0 := by
      rw [← hpredNat, ← Int32.toNat_toBitVec_of_le hn, ← BitVec.toNat_and, ← Int32.toBitVec_and,
        hand]
      rfl
    have hne : n.toNatClampNeg ≠ 0 := Nat.ne_of_gt ((Int32.toNatClampNeg_pos_iff n).mpr hpos)
    obtain ⟨j, hj⟩ := (Nat.and_sub_one_eq_zero_iff_isPowerOfTwo hne).mp hbits
    obtain rfl : j = k := by
      rw [hj, Nat.log2_two_pow] at h
      exact Option.some.inj h
    have hlt := Int32.toNatClampNeg_lt n
    rw [hj] at hlt
    refine ⟨(Nat.pow_lt_pow_iff_right (by decide)).mp hlt, ?_⟩
    rw [← hj, Int32.ofNat_toNatClampNeg n hn]
  · cases h

theorem smod_width : ∀ k < 31, (Int32.ofNat k).toBitVec.smod 32 = BitVec.ofNat 32 k := by
  decide

theorem toNat_shift (hk : k < 31) : (BitVec.ofNat 32 k).toNat = k := by
  rw [BitVec.toNat_ofNat]
  exact Nat.mod_eq_of_lt (by omega)

theorem shiftLeft_eq_mul (h : powerOfTwo? b = some k) : a <<< Int32.ofNat k = a * b := by
  obtain ⟨hk, rfl⟩ := powerOfTwo?_eq_some h
  have hpow : BitVec.twoPow 32 k = BitVec.ofNat 32 (2 ^ k) := by
    apply BitVec.eq_of_toNat_eq
    rw [BitVec.toNat_twoPow, BitVec.toNat_ofNat]
  rw [← Int32.toBitVec_inj, Int32.toBitVec_shiftLeft, Int32.toBitVec_mul, smod_width k hk,
    Int32.toBitVec_ofNat', BitVec.shiftLeft_eq', toNat_shift hk, BitVec.shiftLeft_eq_mul_twoPow,
    hpow]

theorem shiftRight_eq_div (h : powerOfTwo? b = some k) (ha : 0 ≤ a) :
    a >>> Int32.ofNat k = a / b := by
  obtain ⟨hk, rfl⟩ := powerOfTwo?_eq_some h
  have hmin : a ≠ Int32.minValue := by
    rintro rfl
    exact absurd ha (by decide)
  have hpow : (Int32.ofNat (2 ^ k)).toInt = ((2 ^ k : Nat) : Int) :=
    Int32.toInt_ofNat_of_lt (Nat.pow_lt_pow_right (by decide) hk)
  rw [← Int32.toInt_inj, Int32.toInt_div_of_ne_left _ _ hmin, ← Int32.toInt_toBitVec,
    Int32.toBitVec_shiftRight, smod_width k hk, BitVec.sshiftRight_eq', BitVec.toInt_sshiftRight,
    Int.shiftRight_eq_div_pow, Int32.toInt_toBitVec, toNat_shift hk, hpow,
    Int.tdiv_eq_ediv_of_nonneg]
  rwa [Int32.le_iff_toInt_le] at ha

/-- A power of two is not zero. -/
theorem ne_zero_of_powerOfTwo? (h : powerOfTwo? b = some k) : b ≠ 0 := by
  rintro rfl
  cases h

end

/-! ## Operators on literals -/

section
variable {op : BinOp} {v : Literal}

theorem foldShift?_apply {a b : Int32} (h : foldShift? op a b = some v) :
    op.apply (.int a) (.int b) = pure (.ofLiteral v) := by
  unfold foldShift? at h
  split at h
  · next hk =>
    cases h
    rw [shiftLeft_eq_mul hk]
    rfl
  · next hk =>
    split at h
    · next ha =>
      cases h
      rw [shiftRight_eq_div hk ha]
      have hdiv : ArithOp.onInts a b .div = .ok (.int (a / b)) := if_neg (ne_zero_of_powerOfTwo? hk)
      show Act.lift (ArithOp.onInts a b .div) = _
      rw [hdiv]
      rfl
    · cases h
  · cases h

theorem foldInt?_apply {a b : Int32} (h : foldInt? op a b = some v) :
    op.apply (.int a) (.int b) = pure (.ofLiteral v) := by
  cases op with
  | add | sub | mul | eq | ne | lt | le | gt | ge =>
    cases h
    rfl
  | and | or => cases h
  | div =>
    rw [foldInt?] at h
    show Act.lift (if b = 0 then _ else _) = _
    split at h
    · cases h
    · next hb =>
      cases h
      rw [if_neg hb]
      rfl

theorem foldDouble?_apply {a b : Float} (h : foldDouble? op a b = some v) :
    op.apply (.double a) (.double b) = pure (.ofLiteral v) := by
  cases op with
  | add | sub | mul | eq | ne | lt | le | gt | ge =>
    cases h
    rfl
  | and | or => cases h
  | div =>
    rw [foldDouble?] at h
    show Act.lift (if b == 0 then _ else _) = _
    split at h
    · cases h
    · next hb =>
      cases h
      rw [if_neg hb]
      rfl

theorem foldBool?_apply {a b : Bool} (h : foldBool? op a b = some v) :
    op.apply (.bool a) (.bool b) = pure (.ofLiteral v) := by
  cases op with
  | and | or | eq | ne =>
    cases h
    rfl
  | add | sub | mul | div | lt | le | gt | ge => cases h

theorem foldStr?_apply {a b : String} (h : foldStr? op a b = some v) :
    op.apply (.str a) (.str b) = pure (.ofLiteral v) := by
  cases op with
  | add | eq | ne | lt | le | gt | ge =>
    cases h
    rfl
  | sub | mul | div | and | or => cases h

/-- Only equality folds on `null`, and it holds of `null` alone. -/
theorem foldNull_apply {l r : Literal} {same : Bool}
    (hsame : (Value.ofLiteral l).equal (.ofLiteral r) = same)
    (h : foldBinary?.foldNull op same = some v) :
    op.apply (.ofLiteral l) (.ofLiteral r) = pure (.ofLiteral v) := by
  cases op with
  | eq | ne =>
    cases h
    rw [BinOp.apply, hsame]
    rfl
  | add | sub | mul | div | and | or | lt | le | gt | ge => cases h

/-- An operation that folds comes to the value of the folded literal. -/
theorem foldBinary?_apply {l r : Literal} (h : foldBinary? op l r = some v) :
    op.apply (.ofLiteral l) (.ofLiteral r) = pure (.ofLiteral v) := by
  unfold foldBinary? at h
  split at h
  · rw [Option.or_eq_some_iff] at h
    rcases h with h | ⟨-, h⟩
    · exact foldShift?_apply h
    · exact foldInt?_apply h
  · exact foldDouble?_apply h
  · exact foldBool?_apply h
  · exact foldStr?_apply h
  · refine foldNull_apply ?_ h
    cases r <;> rfl
  · refine foldNull_apply ?_ h
    cases l <;> rfl
  · cases h

end

end Pebble
