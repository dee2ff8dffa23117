import Pebble.Proofs.Numerals
import Pebble.Syntax.Folding

/-!
# Numbers below zero are spelled as differences

The language has no signs, so a number below zero, which only folding makes, is printed as a
difference of numbers that have a token of their own. The least word needs two differences: its
magnitude is no word.

Whatever the spelling, the text of a literal is made of the texts of the tokens in it, and folding
the differences gives the literal back (`Literal.IsLegible.spelledAs`). Infinite doubles and negative
zero are left out there: negative zero is printed as zero, and infinity as a quotient by zero, which
does not fold. What is printed as a quotient is still made of the texts of tokens
(`Literal.WrittenAs`).
-/

namespace Pebble

/-- A literal with a token of its own: numbers are finite and have no sign. -/
def Literal.IsUnsigned : Literal → Prop
  | .int n => 0 ≤ n
  | .double d => ∃ bits < Binary64.infinityBits, d = Binary64.ofMagnitude false bits
  | _ => True

/-- A literal that can be written, as itself or as a difference. -/
def Literal.IsLegible : Literal → Prop
  | .double d => d.isFinite = true ∧ d ≠ -0.0
  | _ => True

instance : DecidablePred Literal.IsLegible
  | .double d => inferInstanceAs (Decidable (d.isFinite = true ∧ d ≠ -0.0))
  | .int _ | .bool _ | .str _ | .null => .isTrue trivial

/-- How a literal is written. -/
inductive Spelling where
  | plain
  | difference (a b : Literal)
  | differences (a b c : Literal)
  | quotient (a b : Literal)

/-- How the printer writes a literal. -/
def Literal.spelling : Literal → Spelling
  | .int n =>
    if n = Int32.minValue then .differences (.int 0) (.int Int32.maxValue) (.int 1)
    else if n < 0 then .difference (.int 0) (.int (-n))
    else .plain
  | .double d =>
    if 0.0 < d ∧ d.isInf = true then .quotient (.double 1.0) (.double 0.0)
    else if d < 0.0 then
      .difference (.double 0.0) (.double (Binary64.ofMagnitude false (Binary64.magnitude d)))
    else .plain
  | _ => .plain

/-- `v.SpelledAs s`: the text of `v` is the one this spelling stands for, all literals in it have
tokens of their own, and its differences fold to `v`. -/
inductive Literal.SpelledAs (v : Literal) : Spelling → Prop where
  | plain (hv : v.IsUnsigned) : SpelledAs v .plain
  | difference {a b : Literal} (ha : a.IsUnsigned) (hb : b.IsUnsigned)
      (htext : v.sourceText = "(" ++ a.sourceText ++ " - " ++ b.sourceText ++ ")")
      (hfold : foldBinary? .sub a b = some v) : SpelledAs v (.difference a b)
  | differences {a b c u : Literal} (ha : a.IsUnsigned) (hb : b.IsUnsigned) (hc : c.IsUnsigned)
      (htext : v.sourceText =
        "(" ++ a.sourceText ++ " - " ++ b.sourceText ++ " - " ++ c.sourceText ++ ")")
      (hfirst : foldBinary? .sub a b = some u) (hfold : foldBinary? .sub u c = some v) :
      SpelledAs v (.differences a b c)

/-- `v.WrittenAs s`: the text of `v` is the one this spelling stands for, and all literals in it have
tokens of their own. -/
inductive Literal.WrittenAs (v : Literal) : Spelling → Prop where
  | spelled {s : Spelling} (h : v.SpelledAs s) : WrittenAs v s
  | quotient {a b : Literal} (ha : a.IsUnsigned) (hb : b.IsUnsigned)
      (htext : v.sourceText = "(" ++ a.sourceText ++ " / " ++ b.sourceText ++ ")") :
      WrittenAs v (.quotient a b)

/-- A literal that is written as the printer means to. -/
def Literal.IsWritten (v : Literal) : Prop := v.WrittenAs v.spelling

/-- A literal with a token of its own is written as that. -/
theorem Literal.IsUnsigned.spelling_eq {v : Literal} (h : v.IsUnsigned) : v.spelling = .plain := by
  cases v with
  | int n =>
    have hmin : n ≠ Int32.minValue := by
      rintro rfl
      exact absurd (show (0 : Int32) ≤ Int32.minValue from h) (by decide)
    rw [spelling, if_neg hmin, if_neg (Int32.not_lt.mpr h)]
  | double d =>
    obtain ⟨bits, hbits, rfl⟩ := h
    have hfinite : ¬(0.0 < Binary64.ofMagnitude false bits ∧
        (Binary64.ofMagnitude false bits).isInf = true) := by
      rw [Binary64.isInf_ofMagnitude hbits]
      exact fun h ↦ Bool.false_ne_true h.2
    rw [spelling, if_neg hfinite, if_neg (Binary64.not_ofMagnitude_lt_zero hbits)]
  | bool | str | null => rfl

theorem Literal.IsUnsigned.isLegible {v : Literal} (h : v.IsUnsigned) : v.IsLegible := by
  cases v with
  | double d =>
    obtain ⟨bits, hbits, rfl⟩ := h
    exact ⟨Binary64.isFinite_ofMagnitude hbits, Binary64.ofMagnitude_false_ne hbits⟩
  | int | bool | str | null => trivial

/-! ## Integers -/

section
variable {n : Int32}

theorem toInt_neg_of_ne_minValue (hmin : n ≠ Int32.minValue) : (-n).toInt = -n.toInt := by
  have hlt := n.toInt_lt
  have hge := n.le_toInt
  have hne : n.toInt ≠ -2 ^ 31 := fun h ↦ hmin (Int32.toInt_inj.mp h)
  rw [Int32.toInt_neg]
  exact Int.bmod_eq_of_le (by omega) (by omega)

theorem sourceText_of_neg (hneg : n < 0) (hmin : n ≠ Int32.minValue) :
    0 ≤ -n ∧ (Literal.int n).sourceText =
      "(" ++ (Literal.int 0).sourceText ++ " - " ++ (Literal.int (-n)).sourceText ++ ")" := by
  have hint : n.toInt < 0 := Int32.lt_iff_toInt_lt.mp hneg
  have hopposite := toInt_neg_of_ne_minValue hmin
  have hnonneg : 0 ≤ -n := by
    rw [Int32.le_iff_toInt_le, hopposite]
    exact Int.neg_nonneg_of_nonpos (Int.le_of_lt hint)
  refine ⟨hnonneg, String.toList_inj.mp ?_⟩
  have habs : n.toInt.natAbs = (-n).toInt.toNat := by omega
  have hzero : (Literal.int 0).sourceText = "0" := by decide
  rw [hzero, Literal.sourceText, if_neg hmin, if_pos hneg, habs]
  simp only [String.toList_append, toList_sourceText_int hnonneg, Nat.toString_eq_repr,
    Nat.repr_eq_ofList_toDigits, String.toList_ofList]
  rfl

/-- A difference is not computed by shifting. -/
theorem foldShift?_sub (a b : Int32) : foldShift? .sub a b = none := by
  unfold foldShift?
  cases powerOfTwo? b <;> rfl

theorem spelledAs_int (n : Int32) : (Literal.int n).SpelledAs (Literal.int n).spelling := by
  rw [Literal.spelling]
  split_ifs with hmin hneg
  · subst hmin
    have hzero : (0 : Int32) ≤ 0 := by decide
    have hmax : 0 ≤ Int32.maxValue := by decide
    have hone : (0 : Int32) ≤ 1 := by decide
    exact .differences (u := .int (-Int32.maxValue)) hzero hmax hone (by decide) (by decide)
      (by decide)
  · obtain ⟨hnonneg, htext⟩ := sourceText_of_neg hneg hmin
    have hzero : (0 : Int32) ≤ 0 := by decide
    refine .difference hzero hnonneg htext ?_
    rw [foldBinary?, foldShift?_sub, Option.none_or, foldInt?, Int32.zero_sub, Int32.neg_neg]
  · exact .plain (Int32.not_lt.mp hneg)

end

/-! ## Doubles -/

section
variable {d d' : Float}

/-- Digits are found from the magnitude alone. -/
theorem shortest_congr (tie : Tie) (h : Binary64.magnitude d = Binary64.magnitude d') :
    Decimal.shortest tie d = Decimal.shortest tie d' := by
  simp only [Decimal.shortest, Binary64.significand, Binary64.exponent, h]

theorem sourceMagnitude_congr (h : Binary64.magnitude d = Binary64.magnitude d')
    (hinf : d.isInf = d'.isInf) : sourceMagnitude d = sourceMagnitude d' := by
  simp only [sourceMagnitude, NumeralStyle.magnitudeText, NumeralStyle.significant, h, hinf,
    shortest_congr _ h]

/-- The text of a number below zero. -/
theorem sourceText_of_negative {bits : Nat} (h : bits < Binary64.infinityBits) (hpos : 0 < bits) :
    (Literal.double (Binary64.ofMagnitude true bits)).sourceText =
      "(" ++ (Literal.double 0.0).sourceText ++ " - " ++
        (Literal.double (Binary64.ofMagnitude false bits)).sourceText ++ ")" := by
  have hzero : (Literal.double 0.0).sourceText = "0.0" := by decide
  have hmagnitude : sourceMagnitude (Binary64.ofMagnitude true bits) =
      sourceMagnitude (Binary64.ofMagnitude false bits) := by
    refine sourceMagnitude_congr ?_ ?_
    · rw [Binary64.magnitude_ofMagnitude h, Binary64.magnitude_ofMagnitude h]
    · rw [Binary64.isInf_ofMagnitude h, Binary64.isInf_ofMagnitude h]
  rw [hzero, Literal.sourceText, Literal.sourceText, Binary64.isNaN_ofMagnitude h,
    Binary64.isInf_ofMagnitude h, Binary64.isNaN_ofMagnitude h, Binary64.isInf_ofMagnitude h,
    if_neg Bool.false_ne_true, if_neg Bool.false_ne_true, if_neg Bool.false_ne_true,
    if_neg Bool.false_ne_true, if_pos (Binary64.ofMagnitude_lt_zero h hpos),
    if_neg (Binary64.not_ofMagnitude_lt_zero h), hmagnitude]
  rfl

theorem spelledAs_double (hfinite : d.isFinite = true) (hzero : d ≠ -0.0) :
    (Literal.double d).SpelledAs (Literal.double d).spelling := by
  have hbits := Binary64.magnitude_lt_infinityBits hfinite
  have hd := Binary64.eq_ofMagnitude hfinite
  generalize hmagnitude : Binary64.magnitude d = bits at hbits hd
  -- The sign bit decides: with it the number is below zero, as negative zero is excluded.
  cases hnegative : Binary64.isNegative d with
  | false =>
    rw [hnegative] at hd
    have hunsigned : (Literal.double d).IsUnsigned := ⟨bits, hbits, hd⟩
    rw [hunsigned.spelling_eq]
    exact .plain hunsigned
  | true =>
    rw [hnegative] at hd
    have hpos : 0 < bits := by
      refine Nat.pos_of_ne_zero ?_
      rintro rfl
      exact hzero (hd.trans Binary64.ofMagnitude_true_zero)
    have hneg : d < 0.0 := hd ▸ Binary64.ofMagnitude_lt_zero hbits hpos
    have htext : (Literal.double d).sourceText = "(" ++ (Literal.double 0.0).sourceText ++ " - " ++
        (Literal.double (Binary64.ofMagnitude false bits)).sourceText ++ ")" := by
      rw [hd]
      exact sourceText_of_negative hbits hpos
    have hinf : ¬(0.0 < d ∧ d.isInf = true) := by
      rw [hd, Binary64.isInf_ofMagnitude hbits]
      exact fun h ↦ Bool.false_ne_true h.2
    rw [Literal.spelling, if_neg hinf, if_pos hneg, hmagnitude]
    refine .difference ⟨0, by decide, by decide⟩ ⟨bits, hbits, rfl⟩ htext ?_
    rw [foldBinary?, foldDouble?, Binary64.zero_sub_ofMagnitude hbits hpos, ← hd]

end

theorem Literal.IsLegible.spelledAs {v : Literal} (h : v.IsLegible) : v.SpelledAs v.spelling := by
  cases v with
  | int n => exact spelledAs_int n
  | double d => exact spelledAs_double h.1 h.2
  | bool | str | null => exact .plain trivial

theorem Literal.IsLegible.isWritten {v : Literal} (h : v.IsLegible) : v.IsWritten :=
  .spelled h.spelledAs

/-- Infinity is written as one by zero. -/
theorem isWritten_infinity :
    (Literal.double (Binary64.ofMagnitude false Binary64.infinityBits)).IsWritten := by
  have hinf : 0.0 < Binary64.ofMagnitude false Binary64.infinityBits ∧
      (Binary64.ofMagnitude false Binary64.infinityBits).isInf = true := by decide
  rw [Literal.IsWritten, Literal.spelling, if_pos hinf]
  exact .quotient ⟨0x3ff0000000000000, by decide, by decide⟩ ⟨0, by decide, by decide⟩ (by decide)

end Pebble
