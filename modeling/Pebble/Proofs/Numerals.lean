import Mathlib.Data.List.Basic
import Mathlib.Tactic.Common
import Mathlib.Tactic.Ring
import Pebble.Proofs.Doubles
import Pebble.Proofs.Rounding
import Pebble.Proofs.Scanning

/-!
# Numerals are scanned back

The text of a finite double that is not negative is a run of digits, a point and another run of
digits, and what the scanner makes of it is that double. The digits shown are those of the shortest
decimal without the zeros at its end; padding them to the point multiplies by a power of ten and
moves the exponent by as much, which rounding does not see.

A run of characters is read up to the first one that does not belong to it, so each statement says
what may follow.
-/

namespace Pebble

namespace Decimal

theorem natOfDigits_eq (ds : List Char) : natOfDigits ds = Nat.ofDigitChars 10 ds 0 :=
  Nat.ofDigitChars_eq_foldl.symm

@[simp] theorem natOfDigits_toDigits (n : Nat) : natOfDigits (Nat.toDigits 10 n) = n := by
  rw [natOfDigits_eq, Nat.ofDigitChars_ten_toDigits]

/-- Zeros behind digits multiply by a power of ten. -/
theorem natOfDigits_append_zeros (ds : List Char) (k : Nat) :
    natOfDigits (ds ++ List.replicate k '0') = natOfDigits ds * 10 ^ k := by
  simp only [natOfDigits_eq, Nat.ofDigitChars_append, Nat.ofDigitChars_replicate_zero]
  rw [Nat.mul_comm]

/-- Zeros in front of digits do not count. -/
theorem natOfDigits_zeros_append (k : Nat) (ds : List Char) :
    natOfDigits (List.replicate k '0' ++ ds) = natOfDigits ds := by
  simp only [natOfDigits_eq, Nat.ofDigitChars_append, Nat.ofDigitChars_replicate_zero, Nat.mul_zero]

theorem all_isDigit_toDigits (n : Nat) : ∀ c ∈ Nat.toDigits 10 n, c.isDigit = true :=
  fun _ hc ↦ Nat.isDigit_of_mem_toDigits (by decide) (by decide) hc

/-- The digits of a number that is not zero do not begin with a zero. -/
theorem head?_toDigits_ne {n : Nat} (hn : 0 < n) : (Nat.toDigits 10 n).head? ≠ some '0' := by
  have hsmall : ∀ d < 10, 0 < d → [Nat.digitChar d].head? ≠ some '0' := by decide
  induction n using Nat.strongRecOn with
  | ind n ih =>
    rcases Nat.lt_or_ge n 10 with hlt | hge
    · rw [Nat.toDigits_of_lt_base hlt]
      exact hsmall n hlt hn
    · rw [Nat.toDigits_of_base_le (by decide) hge,
        List.head?_append_of_ne_nil _ Nat.toDigits_ne_nil]
      exact ih _ (Nat.div_lt_self hn (by decide)) (Nat.div_pos hge (by decide))

end Decimal

/-! ## What the scanner takes for a number -/

/-- A run of digits in which a zero does not lead other digits. -/
structure Unpadded (whole : List Char) : Prop where
  ne_nil : whole ≠ []
  digits : ∀ c ∈ whole, c.isDigit = true
  head : whole = ['0'] ∨ whole.head? ≠ some '0'

section
variable {whole fraction rest : List Char}

theorem scanNumber_eq_unsigned (h : Unpadded whole) (hrest : ∀ c ∈ rest.head?, c.isDigit = false) :
    scanNumber (whole ++ rest) = scanNumber.unsigned (whole ++ rest) := by
  unfold scanNumber
  split
  · next d tail heq =>
    rcases h.head with rfl | hhead
    · obtain ⟨-, rfl⟩ := List.cons.inj heq
      rw [hrest d rfl, if_neg Bool.false_ne_true]
    · rw [← List.head?_append_of_ne_nil _ h.ne_nil, heq] at hhead
      exact absurd rfl hhead
  · rfl

theorem scanNumber_integer (h : Unpadded whole)
    (hrest : ∀ c ∈ rest.head?, c.isDigit = false ∧ c ≠ '.') :
    scanNumber (whole ++ rest) = scanInteger whole := by
  have hstop : ∀ c ∈ rest.head?, c.isDigit = false := fun c hc ↦ (hrest c hc).1
  rw [scanNumber_eq_unsigned h hstop, scanNumber.unsigned, takeWhile_append h.digits hstop,
    dropWhile_append h.digits hstop]
  split
  · exact absurd rfl (hrest '.' rfl).2
  · rfl

theorem scanNumber_double (h : Unpadded whole) (hne : fraction ≠ [])
    (hdigits : ∀ c ∈ fraction, c.isDigit = true) (hrest : ∀ c ∈ rest.head?, c.isDigit = false) :
    scanNumber (whole ++ '.' :: (fraction ++ rest)) =
      .token (whole.length + 1 + fraction.length) (.lit (.double (Binary64.ofDecimal false
        (Decimal.natOfDigits (whole ++ fraction)) (-(fraction.length : Int))))) := by
  have hpoint : ∀ c ∈ ('.' :: (fraction ++ rest)).head?, c.isDigit = false := by simp
  rw [scanNumber_eq_unsigned h hpoint, scanNumber.unsigned, takeWhile_append h.digits hpoint,
    dropWhile_append h.digits hpoint]
  simp only [takeWhile_append hdigits hrest]

end

/-! ## Integers -/

theorem unpadded_toDigits (n : Nat) : Unpadded (Nat.toDigits 10 n) where
  ne_nil := Nat.toDigits_ne_nil
  digits := Decimal.all_isDigit_toDigits n
  head := by
    rcases Nat.eq_zero_or_pos n with rfl | hn
    · exact .inl (Nat.toDigits_zero 10)
    · exact .inr (Decimal.head?_toDigits_ne hn)

namespace Decimal

/-- A minus sign, if there is one. -/
def signText (negative : Bool) : List Char := if negative then ['-'] else []

theorem splitSign_signText {negative : Bool} {cs : List Char}
    (h : ∀ c ∈ cs.head?, c ≠ '-' ∧ c ≠ '+') :
    splitSign (signText negative ++ cs) = (negative, cs) := by
  cases negative with
  | true => rfl
  | false =>
    rw [signText, if_neg Bool.false_ne_true, List.nil_append]
    unfold splitSign
    split
    · exact absurd rfl (h '-' rfl).1
    · exact absurd rfl (h '+' rfl).2
    · rfl

theorem not_sign_of_isDigit {c : Char} (h : c.isDigit = true) : c ≠ '-' ∧ c ≠ '+' := by
  constructor <;> rintro rfl <;> exact absurd h (by decide)

theorem readInt?_signed (negative : Bool) {ds : List Char} (hne : ds ≠ [])
    (hdigits : ∀ c ∈ ds, c.isDigit = true) :
    readInt? (signText negative ++ ds) =
      some (if negative then -(natOfDigits ds : Int) else natOfDigits ds) := by
  have hsign : splitSign (signText negative ++ ds) = (negative, ds) :=
    splitSign_signText fun c hc ↦ not_sign_of_isDigit (hdigits c (List.mem_of_mem_head? hc))
  have hnat : readNat? ds = some (natOfDigits ds) := by
    rw [readNat?, if_neg (by simpa [hne] using hdigits)]
  simp [readInt?, hsign, hnat]

theorem readInt?_of_digits {ds : List Char} (hne : ds ≠ [])
    (hdigits : ∀ c ∈ ds, c.isDigit = true) : readInt? ds = some (natOfDigits ds : Int) :=
  readInt?_signed false hne hdigits

theorem toList_toString (e : Int) :
    (toString e).toList = signText (decide (e < 0)) ++ Nat.toDigits 10 e.natAbs := by
  rw [Int.toString_eq_repr, Int.repr_eq_if, Nat.repr_eq_ofList_toDigits,
    Nat.repr_eq_ofList_toDigits, signText]
  rcases Int.lt_or_le e 0 with hneg | hnonneg
  · have habs : (-e).toNat = e.natAbs := by omega
    rw [if_neg (Int.not_le.mpr hneg), decide_eq_true hneg, if_pos rfl, habs, String.toList_append]
    exact congrArg ('-' :: ·) String.toList_ofList
  · have habs : e.toNat = e.natAbs := by omega
    rw [if_pos hnonneg, decide_eq_false (Int.not_lt.mpr hnonneg), if_neg Bool.false_ne_true, habs,
      String.toList_ofList, List.nil_append]

theorem toList_toString_of_nonneg {e : Int} (h : 0 ≤ e) :
    (toString e).toList = Nat.toDigits 10 e.toNat := by
  have habs : e.natAbs = e.toNat := by omega
  rw [toList_toString, decide_eq_false (Int.not_lt.mpr h), habs]
  rfl

theorem readInt?_toString (e : Int) : readInt? (toString e).toList = some e := by
  rw [toList_toString, readInt?_signed _ Nat.toDigits_ne_nil (all_isDigit_toDigits _),
    natOfDigits_toDigits]
  simp only [decide_eq_true_eq]
  split <;> congr 1 <;> omega

/-- The text of a word is read as that word. -/
theorem readInt32?_toString (n : Int32) : readInt32? (toString n.toInt).toList = some n := by
  rw [readInt32?, readInt?_toString, Option.bind_some, decide_eq_true n.minValue_le_toInt,
    decide_eq_true n.toInt_le, Bool.and_self, if_pos rfl, Int32.ofInt_toInt]

end Decimal

theorem scanInteger_toDigits {n : Int32} (h : 0 ≤ n) :
    scanInteger (Nat.toDigits 10 n.toInt.toNat) =
      .token (Nat.toDigits 10 n.toInt.toNat).length (.lit (.int n)) := by
  rw [← Decimal.toList_toString_of_nonneg (Int32.le_iff_toInt_le.mp h), scanInteger,
    Decimal.readInt32?_toString]

theorem toList_sourceText_int {n : Int32} (h : 0 ≤ n) :
    (Literal.int n).sourceText.toList = Nat.toDigits 10 n.toInt.toNat := by
  have hneg : ¬n < 0 := Int32.not_lt.mpr h
  have hmin : n ≠ Int32.minValue := by
    rintro rfl
    exact absurd h (by decide)
  rw [Literal.sourceText, if_neg hmin, if_neg hneg,
    Decimal.toList_toString_of_nonneg (Int32.le_iff_toInt_le.mp h)]

/-! ## Doubles -/

/-- Dropping the zeros at the end of a list leaves what they were appended to. -/
theorem exists_eq_append_zeros (l : List Char) :
    ∃ k, l = (l.reverse.dropWhile (· == '0')).reverse ++ List.replicate k '0' := by
  have hzeros : ∀ c ∈ (l.reverse.takeWhile (· == '0')).reverse, c = '0' := by
    intro c hc
    exact beq_iff_eq.mp (List.all_eq_true.mp List.all_takeWhile c (List.mem_reverse.mp hc))
  refine ⟨(l.reverse.takeWhile (· == '0')).reverse.length, ?_⟩
  rw [← List.eq_replicate_of_mem hzeros, ← List.reverse_append, List.takeWhile_append_dropWhile,
    List.reverse_reverse]

namespace NumeralStyle

section
variable {ds : List Char} {e : Int}

/-- The digits after the point that are shown, one at least. -/
def shownFraction (ds : List Char) (e : Int) : List Char :=
  if fraction ds e = [] then ['0'] else fraction ds e

theorem plain_eq_of_wholePoint {style : NumeralStyle} (hpoint : style.wholePoint = true) :
    style.plain ds e = wholePart ds e ++ '.' :: shownFraction ds e := by
  rw [plain, shownFraction, hpoint]
  split
  · next h => rw [if_pos h]; rfl
  · next h => rw [if_neg h]

theorem shownFraction_ne_nil : shownFraction ds e ≠ [] := by
  rw [shownFraction]
  split
  · exact List.cons_ne_nil _ _
  · assumption

theorem shownFraction_digits (h : ∀ c ∈ ds, c.isDigit = true) :
    ∀ c ∈ shownFraction ds e, c.isDigit = true := by
  have hfraction : ∀ c ∈ fraction ds e, c.isDigit = true := by
    intro c hc
    rw [fraction] at hc
    split at hc
    · rcases List.mem_append.mp hc with hc | hc
      · rw [List.eq_of_mem_replicate hc]
        rfl
      · exact h c hc
    · exact h c (List.mem_of_mem_drop hc)
  rw [shownFraction]
  split
  · exact List.forall_mem_singleton.mpr rfl
  · exact hfraction

theorem wholePart_ne_nil (hne : ds ≠ []) : wholePart ds e ≠ [] := by
  rw [wholePart]
  split
  · exact List.cons_ne_nil _ _
  · obtain ⟨d, ds, rfl⟩ := List.exists_cons_of_ne_nil hne
    exact List.cons_ne_nil _ _

theorem wholePart_digits (h : ∀ c ∈ ds, c.isDigit = true) :
    ∀ c ∈ wholePart ds e, c.isDigit = true := by
  intro c hc
  rw [wholePart] at hc
  split at hc
  · rw [List.mem_singleton.mp hc]
    rfl
  · rcases List.mem_append.mp hc with hc | hc
    · exact h c (List.mem_of_mem_take hc)
    · rw [List.eq_of_mem_replicate hc]
      rfl

theorem unpadded_wholePart (hne : ds ≠ []) (hdigits : ∀ c ∈ ds, c.isDigit = true)
    (hhead : ds.head? ≠ some '0') : Unpadded (wholePart ds e) := by
  refine ⟨wholePart_ne_nil hne, wholePart_digits hdigits, ?_⟩
  rcases lt_or_ge e 0 with hneg | hpos
  · exact .inl (if_pos hneg)
  · obtain ⟨d, ds, rfl⟩ := List.exists_cons_of_ne_nil hne
    rw [wholePart, if_neg hpos.not_gt]
    exact .inr hhead

/-- Writing digits out to the point multiplies them by a power of ten. -/
theorem natOfDigits_shown (hne : ds ≠ []) :
    ∃ k : Nat, Decimal.natOfDigits (wholePart ds e ++ shownFraction ds e) =
        Decimal.natOfDigits ds * 10 ^ k ∧
      -((shownFraction ds e).length : Int) = e + 1 - ds.length - k := by
  rcases lt_or_ge e 0 with hneg | hpos
  · have hfraction : fraction ds e = List.replicate ((-e).toNat - 1) '0' ++ ds := if_pos hneg
    have hwhole : wholePart ds e = List.replicate 1 '0' := if_pos hneg
    have hshown : shownFraction ds e = fraction ds e := if_neg (by simp [hfraction, hne])
    refine ⟨0, ?_, ?_⟩
    · rw [hshown, hfraction, hwhole, Decimal.natOfDigits_zeros_append,
        Decimal.natOfDigits_zeros_append, Nat.pow_zero, Nat.mul_one]
    · rw [hshown, hfraction, List.length_append, List.length_replicate]
      omega
  · have hfraction : fraction ds e = ds.drop (e.toNat + 1) := if_neg hpos.not_gt
    have hwhole : wholePart ds e =
        ds.take (e.toNat + 1) ++ List.replicate (e.toNat + 1 - ds.length) '0' := if_neg hpos.not_gt
    rcases Nat.lt_or_ge (e.toNat + 1) ds.length with hlt | hge
    · have hshown : shownFraction ds e = fraction ds e := if_neg (by simp [hfraction, hlt])
      refine ⟨0, ?_, ?_⟩
      · have hnone : e.toNat + 1 - ds.length = 0 := by omega
        rw [hshown, hfraction, hwhole, hnone, List.replicate_zero, List.append_nil,
          List.take_append_drop, Nat.pow_zero, Nat.mul_one]
      · rw [hshown, hfraction, List.length_drop]
        omega
    · have hshown : shownFraction ds e = ['0'] := if_pos (by simp [hfraction, hge])
      refine ⟨e.toNat + 1 - ds.length + 1, ?_, ?_⟩
      · rw [hshown, hwhole, List.take_of_length_le hge, List.append_assoc,
          ← List.replicate_succ', Decimal.natOfDigits_append_zeros]
      · rw [hshown, List.length_singleton]
        omega

/-- The power of ten is taken back by the exponent, whatever is added to that. -/
theorem decimalBits_shown (hne : ds ≠ []) (x : Int) :
    Binary64.decimalBits (Decimal.natOfDigits (wholePart ds e ++ shownFraction ds e))
        (x - (shownFraction ds e).length) =
      Binary64.decimalBits (Decimal.natOfDigits ds) (x + e + 1 - ds.length) := by
  obtain ⟨k, hdigits, hexponent⟩ := natOfDigits_shown (e := e) hne
  have hsum : x - ((shownFraction ds e).length : Int) = x + e + 1 - ds.length - k := by omega
  rw [hdigits, hsum, Binary64.decimalBits_mul_pow]

end

section
variable {tie : Tie} {d : Float}

/-- The significant digits of a double that is not zero are digits of a decimal that reads back. -/
theorem significant_spec (hpos : 0 < Binary64.magnitude d)
    (hfin : Binary64.magnitude d < Binary64.infinityBits) {ds : List Char} {e : Int}
    (h : significant tie d = (ds, e)) :
    ds ≠ [] ∧ (∀ c ∈ ds, c.isDigit = true) ∧ ds.head? ≠ some '0' ∧
      Binary64.decimalBits (Decimal.natOfDigits ds) (e + 1 - ds.length) = Binary64.magnitude d := by
  have hreads := beq_iff_eq.mp (Decimal.shortest_readsBackTo tie hpos hfin)
  rw [significant, if_neg hpos.ne'] at h
  generalize Decimal.shortest tie d = x at h hreads
  have hx : 0 < x.digits := by
    refine Nat.pos_of_ne_zero fun hzero ↦ ?_
    rw [hzero] at hreads
    exact hpos.ne hreads
  obtain ⟨k, hk⟩ := exists_eq_append_zeros (Nat.toDigits 10 x.digits)
  have hds := congrArg Prod.fst h
  have he := congrArg Prod.snd h
  simp only at hds he
  rw [hds] at hk
  have hhead := Decimal.head?_toDigits_ne hx
  have hne : ds ≠ [] := by
    rintro rfl
    rw [hk, List.nil_append] at hhead
    cases k with
    | zero => exact Nat.toDigits_ne_nil hk
    | succ k => exact hhead rfl
  refine ⟨hne, ?_, ?_, ?_⟩
  · intro c hc
    exact Decimal.all_isDigit_toDigits x.digits c (hk ▸ List.mem_append_left _ hc)
  · rwa [hk, List.head?_append_of_ne_nil _ hne] at hhead
  · have hdigits : x.digits = Decimal.natOfDigits ds * 10 ^ k := by
      rw [← Decimal.natOfDigits_append_zeros, ← hk, Decimal.natOfDigits_toDigits]
    have hexponent : x.exponent = e + 1 - ds.length - k := by
      rw [← he, hk, List.length_append, List.length_replicate]
      omega
    rw [← hreads, hdigits, hexponent, Binary64.decimalBits_mul_pow]

end

end NumeralStyle

/-- The text of a finite double that is not negative: digits, a point, digits, and their decimal is
rounded to the double. -/
theorem exists_sourceText_double {bits : Nat} (h : bits < Binary64.infinityBits) :
    ∃ whole fraction,
      (Literal.double (Binary64.ofMagnitude false bits)).sourceText.toList =
        whole ++ '.' :: fraction ∧
      Unpadded whole ∧ fraction ≠ [] ∧ (∀ c ∈ fraction, c.isDigit = true) ∧
      Binary64.decimalBits (Decimal.natOfDigits (whole ++ fraction)) (-(fraction.length : Int)) =
        bits := by
  have htext : (Literal.double (Binary64.ofMagnitude false bits)).sourceText.toList =
      NumeralStyle.source.magnitudeText (Binary64.ofMagnitude false bits) := by
    rw [Literal.sourceText, Binary64.isNaN_ofMagnitude h, Binary64.isInf_ofMagnitude h,
      if_neg Bool.false_ne_true, if_neg Bool.false_ne_true,
      if_neg (Binary64.not_ofMagnitude_lt_zero h), sourceMagnitude, String.toList_ofList]
  have hmagnitude : Binary64.magnitude (Binary64.ofMagnitude false bits) = bits :=
    Binary64.magnitude_ofMagnitude h
  rw [htext, NumeralStyle.magnitudeText, Binary64.isInf_ofMagnitude h, if_neg Bool.false_ne_true]
  generalize Binary64.ofMagnitude false bits = d at hmagnitude ⊢
  rcases Nat.eq_zero_or_pos bits with rfl | hpos
  · rw [NumeralStyle.significant, if_pos hmagnitude]
    exact ⟨['0'], ['0'], rfl, unpadded_toDigits 0, List.cons_ne_nil _ _,
      List.forall_mem_singleton.mpr rfl, rfl⟩
  · obtain ⟨ds, e, hsignificant⟩ : ∃ ds e, NumeralStyle.significant NumeralStyle.source.tie d =
        (ds, e) := ⟨_, _, rfl⟩
    obtain ⟨hne, hdigits, hhead, hbits⟩ :=
      NumeralStyle.significant_spec (hmagnitude ▸ hpos) (hmagnitude ▸ h) hsignificant
    rw [hsignificant]
    refine ⟨_, _, NumeralStyle.plain_eq_of_wholePoint rfl,
      NumeralStyle.unpadded_wholePart hne hdigits hhead, NumeralStyle.shownFraction_ne_nil,
      NumeralStyle.shownFraction_digits hdigits, ?_⟩
    rw [← Int.zero_sub, NumeralStyle.decimalBits_shown hne, Int.zero_add, hbits, hmagnitude]

/-! ## Numbers among tokens -/

section
variable {rest : List Char}

theorem EndsOperand.isDigit (h : EndsOperand rest) :
    ∀ c ∈ rest.head?, c.isDigit = false ∧ c ≠ '.' := by
  intro c hc
  refine ⟨Bool.eq_false_iff.mpr fun hdigit ↦ ?_, (h c hc).2⟩
  have hword := (isDigit_facts hdigit).2.2.1
  rw [(h c hc).1] at hword
  exact Bool.false_ne_true hword

/-- What begins with a digit is scanned as a number. -/
theorem Unpadded.scannedAs {whole more : List Char} {t : Token} (h : Unpadded whole)
    (hscan : scanNumber (whole ++ more ++ rest) = .token (whole ++ more).length t) :
    ScannedAs (whole ++ more) t rest := by
  obtain ⟨c, cs, rfl⟩ := List.exists_cons_of_ne_nil h.ne_nil
  have hdigit := h.digits c List.mem_cons_self
  obtain ⟨hblank, -, -, hcomment, hquote⟩ := isDigit_facts hdigit
  refine ⟨c, cs ++ more, rfl, hblank, ?_⟩
  rw [scanToken, if_neg hcomment, if_neg hquote, if_pos hdigit, ← hscan]
  rfl

theorem scannedAs_int {n : Int32} (h : 0 ≤ n) (hrest : EndsOperand rest) :
    ScannedAs (Literal.int n).sourceText.toList (.lit (.int n)) rest := by
  have hdigits := unpadded_toDigits n.toInt.toNat
  rw [toList_sourceText_int h, ← List.append_nil (Nat.toDigits 10 n.toInt.toNat)]
  refine hdigits.scannedAs ?_
  rw [List.append_nil, scanNumber_integer hdigits hrest.isDigit, scanInteger_toDigits h]

theorem scannedAs_double {bits : Nat} (h : bits < Binary64.infinityBits)
    (hrest : EndsOperand rest) :
    ScannedAs (Literal.double (Binary64.ofMagnitude false bits)).sourceText.toList
      (.lit (.double (Binary64.ofMagnitude false bits))) rest := by
  obtain ⟨whole, fraction, htext, hwhole, hne, hdigits, hbits⟩ := exists_sourceText_double h
  rw [htext]
  refine hwhole.scannedAs ?_
  rw [List.append_assoc, List.cons_append,
    scanNumber_double hwhole hne hdigits fun c hc ↦ (hrest.isDigit c hc).1, Binary64.ofDecimal,
    hbits, List.length_append, List.length_cons, Nat.add_assoc, Nat.add_comm 1]

end

end Pebble
