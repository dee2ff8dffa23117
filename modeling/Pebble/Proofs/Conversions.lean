import Mathlib.Tactic.Common
import Pebble.Proofs.Acting
import Pebble.Proofs.Numerals

/-!
# Numbers as text and back

A number that is turned into text and read again is the same number. An int is written with its
sign and its digits. The text of a double has one of four forms: a word for infinity and for what is
no number, digits around a point, and digits around a point with an exponent behind them. The first
digits of the last form are those of the one before it with the point behind the first digit, so
that both are read by one statement, with an exponent that may be missing.

What the digits denote is rounded to the double they were made from
(`NumeralStyle.significant_reads`), and the sign is read apart from them, also that of zero.
-/

namespace Pebble

namespace Decimal

/-! ## Digits around a point -/

/-- Behind the digits stands nothing but an exponent. -/
theorem readUnsigned?_point {negative : Bool} {whole fraction rest : List Char} (hne : whole ≠ [])
    (hwhole : ∀ c ∈ whole, c.isDigit = true) (hfraction : ∀ c ∈ fraction, c.isDigit = true)
    (hrest : ∀ c ∈ rest.head?, c.isDigit = false) :
    readUnsigned? negative (whole ++ '.' :: (fraction ++ rest)) =
      (readExponent? rest).map fun e ↦
        Binary64.ofDecimal negative (natOfDigits (whole ++ fraction)) (e - fraction.length) := by
  have hpoint : ∀ c ∈ ('.' :: (fraction ++ rest)).head?, c.isDigit = false := by simp
  rw [readUnsigned?, takeWhile_append hwhole hpoint, dropWhile_append hwhole hpoint]
  simp only [takeWhile_append hfraction hrest, dropWhile_append hfraction hrest]
  rw [if_neg (by simp [hne])]

end Decimal

namespace NumeralStyle

/-- The significant digits of a finite double denote a decimal that is rounded to it. -/
theorem significant_reads {tie : Tie} {d : Float} (h : d.isFinite = true) {ds : List Char} {e : Int}
    (hds : significant tie d = (ds, e)) :
    ds ≠ [] ∧ (∀ c ∈ ds, c.isDigit = true) ∧
      Binary64.decimalBits (Decimal.natOfDigits ds) (e + 1 - ds.length) = Binary64.magnitude d := by
  rcases Nat.eq_zero_or_pos (Binary64.magnitude d) with hzero | hpos
  · rw [significant, if_pos hzero] at hds
    cases hds
    exact ⟨List.cons_ne_nil _ _, List.forall_mem_singleton.mpr rfl, hzero ▸ rfl⟩
  · obtain ⟨hne, hdigits, -, hbits⟩ :=
      significant_spec hpos (Binary64.magnitude_lt_infinityBits h) hds
    exact ⟨hne, hdigits, hbits⟩

/-- In scientific form the digits stand as they do positionally for the exponent zero. -/
theorem scientific_printed {ds : List Char} (hne : ds ≠ []) (e : Int) :
    printed.scientific ds e = printed.plain ds 0 ++ 'E' :: (toString e).toList := by
  have hmark : (if e < 0 then printed.markMinus else printed.mark).toList ++
      Nat.toDigits 10 e.natAbs = 'E' :: (toString e).toList := by
    rw [Decimal.toList_toString, Decimal.signText]
    rcases Int.lt_or_le e 0 with hneg | hnonneg
    · rw [if_pos hneg, decide_eq_true hneg, if_pos rfl]
      rfl
    · rw [if_neg (Int.not_lt.mpr hnonneg), decide_eq_false (Int.not_lt.mpr hnonneg),
        if_neg Bool.false_ne_true]
      rfl
  have hdigits : printed.scientific ds e = printed.plain ds 0 ++
      ((if e < 0 then printed.markMinus else printed.mark).toList ++ Nat.toDigits 10 e.natAbs) := by
    obtain ⟨d, ds, rfl⟩ := List.exists_cons_of_ne_nil hne
    cases ds with
    | nil => rfl
    | cons d' ds =>
      have hplain : printed.plain (d :: d' :: ds) 0 = d :: '.' :: d' :: ds := by
        simp [plain, fraction, wholePart]
      rw [hplain]
      exact List.append_assoc ..
  rw [hdigits, hmark]

/-- Digits around a point that are rounded to the magnitude of a double are read as that double. -/
theorem readUnsigned?_plain {d : Float} (hfin : d.isFinite = true) {ds rest : List Char} {e x : Int}
    (hne : ds ≠ []) (hdigits : ∀ c ∈ ds, c.isDigit = true)
    (hbits : Binary64.decimalBits (Decimal.natOfDigits ds) (x + e + 1 - ds.length) =
      Binary64.magnitude d)
    (hrest : ∀ c ∈ rest.head?, c.isDigit = false) (hread : Decimal.readExponent? rest = some x) :
    Decimal.readUnsigned? (Binary64.isNegative d) (printed.plain ds e ++ rest) = some d := by
  rw [plain_eq_of_wholePoint rfl, List.append_assoc, List.cons_append,
    Decimal.readUnsigned?_point (wholePart_ne_nil hne) (wholePart_digits hdigits)
      (shownFraction_digits hdigits) hrest,
    hread, Option.map_some, Binary64.ofDecimal, decimalBits_shown hne, hbits,
    ← Binary64.eq_ofMagnitude hfin]

theorem isDigit_of_mem_head?_plain {ds rest : List Char} {e : Int} (hne : ds ≠ [])
    (hdigits : ∀ c ∈ ds, c.isDigit = true) :
    ∀ c ∈ (printed.plain ds e ++ rest).head?, c.isDigit = true := by
  intro c hc
  rw [plain_eq_of_wholePoint rfl, List.append_assoc,
    List.head?_append_of_ne_nil _ (wholePart_ne_nil hne)] at hc
  exact wholePart_digits hdigits c (List.mem_of_mem_head? hc)

/-- The text of a finite double without its sign begins with a digit, and with the sign given apart
it is read as the double. -/
theorem magnitudeText_reads {d : Float} (h : d.isFinite = true) (hinf : d.isInf = false) :
    (∀ c ∈ (printed.magnitudeText d).head?, c.isDigit = true) ∧
      Decimal.readUnsigned? (Binary64.isNegative d) (printed.magnitudeText d) = some d := by
  obtain ⟨ds, e, hds⟩ : ∃ ds e, significant printed.tie d = (ds, e) := ⟨_, _, rfl⟩
  obtain ⟨hne, hdigits, hbits⟩ := significant_reads h hds
  rw [magnitudeText, hinf, if_neg Bool.false_ne_true, hds]
  simp only
  split
  · rw [← List.append_nil (printed.plain ds e)]
    refine ⟨isDigit_of_mem_head?_plain hne hdigits, ?_⟩
    exact readUnsigned?_plain (x := 0) h hne hdigits (by rwa [Int.zero_add]) (by simp) rfl
  · rw [scientific_printed hne]
    refine ⟨isDigit_of_mem_head?_plain hne hdigits, ?_⟩
    exact readUnsigned?_plain (x := e) h hne hdigits (by rwa [Int.add_zero]) (by simp)
      (Decimal.readInt?_toString e)

end NumeralStyle

/-! ## All doubles -/

namespace Binary64

open Float.Model UnpackedFloat

theorem isFinite_of_not {d : Float} (hnan : d.isNaN = false) (hinf : d.isInf = false) :
    d.isFinite = true := by
  rw [Float.isNaN, Float.Model.isNaN] at hnan
  rw [Float.isInf, Float.Model.isInf] at hinf
  rw [Float.isFinite, Float.Model.isFinite]
  cases hunpack : d.toModel.unpack with
  | notANumber =>
    rw [hunpack] at hnan
    cases hnan
  | infinity sign =>
    rw [hunpack] at hinf
    cases hinf
  | zero sign | finite sign m e hm => rfl

theorem magnitude_of_isInf {d : Float} (h : d.isInf = true) : magnitude d = infinityBits := by
  obtain ⟨b, hmagnitude, hinf⟩ : ∃ b : BitVec Format.binary64.numBits,
      magnitude d = b.toNat % 2 ^ 63 ∧ (UnpackedFloat.unpack Format.binary64 b).isInf = true :=
    ⟨d.toBits.toBitVec, rfl, h⟩
  rw [hmagnitude]
  by_cases hfin : b.toNat % 2 ^ 63 < infinityBits
  · rcases unpack_cases hfin with ⟨-, -, heq⟩ | ⟨-, hm, heq⟩ | ⟨hm, heq⟩ <;>
      rw [heq] at hinf <;> cases hinf
  · have hones := not_not.mp (unpackExponent_ne_iff.not.mpr hfin)
    simp only [UnpackedFloat.unpack, hones, if_true] at hinf
    split_ifs at hinf with hzero
    · have hmantissa : (unpackMantissa b).toNat = 0 := congrArg BitVec.toNat hzero
      have hexponent : (unpackExponent b).toNat = 2047 := congrArg BitVec.toNat hones
      have hinfinity : infinityBits = 2047 * 2 ^ 52 := rfl
      rw [unpackMantissa_toNat] at hmantissa
      rw [unpackExponent_toNat] at hexponent
      omega
    · cases hinf

/-- An infinite double is infinity with its sign. -/
theorem eq_ofMagnitude_of_isInf {d : Float} (h : d.isInf = true) :
    d = ofMagnitude (isNegative d) infinityBits := by
  have hbits : ∀ negative, (ofMagnitude negative infinityBits).toBits.toNat =
      (if negative then 2 ^ 63 else 0) + infinityBits := by decide
  have hbound : d.toBits.toNat < 2 ^ 64 := d.toBits.toNat_lt
  have hsign : (1 : Nat) <<< 63 = 2 ^ 63 := rfl
  refine eq_of_toBits_toNat ?_
  rw [hbits, ← magnitude_of_isInf h, magnitude, isNegative, hsign]
  simp only [decide_eq_true_eq]
  split <;> omega

end Binary64

namespace Decimal

theorem readDouble?_signed {negative : Bool} {cs : List Char}
    (h : ∀ c ∈ cs.head?, c ≠ '-' ∧ c ≠ '+') :
    readDouble? (signText negative ++ cs) =
      match readUnsigned? negative cs with
      | some d => some d
      | none => (readWord? cs).map fun d ↦ if negative then -d else d := by
  rewrite [readDouble?, splitSign_signText h]
  rfl

/-- The text of a double that is a number is read as that double. -/
theorem readDouble?_printed {d : Float} (hnan : d.isNaN = false) :
    readDouble? (NumeralStyle.printed.text d).toList = some d := by
  have htext : (NumeralStyle.printed.text d).toList =
      signText (Binary64.isNegative d) ++ NumeralStyle.printed.magnitudeText d := by
    rw [NumeralStyle.text, hnan, if_neg Bool.false_ne_true, String.toList_ofList]
    rfl
  rw [htext]
  cases hinf : d.isInf with
  | false =>
    obtain ⟨hhead, hread⟩ :=
      NumeralStyle.magnitudeText_reads (Binary64.isFinite_of_not hnan hinf) hinf
    rw [readDouble?_signed fun c hc ↦ not_sign_of_isDigit (hhead c hc), hread]
  | true =>
    have hword : ∀ negative,
        readDouble? (signText negative ++ NumeralStyle.printed.infinity.toList) =
          some (Binary64.ofMagnitude negative Binary64.infinityBits) := by decide
    rw [NumeralStyle.magnitudeText, hinf, if_pos rfl, hword, ← Binary64.eq_ofMagnitude_of_isInf hinf]

end Decimal

/-! ## The machine -/

theorem Op.convert_exec {c : Conversion} {v u : Value} (h : c.apply v = .ok u) (m : Machine)
    (vs : List Value) :
    (Op.convert c).exec (m.withOperands (v :: vs)) = .ok () (m.withOperands (u :: vs)) := by
  have hact : (do return [← Act.lift (c.apply v)] : Act (List Value)) m.world =
      .ok [u] m.world := by
    rw [h]
    rfl
  exact (Op.Does.convert c v).exec_of_ok vs hact

/-- **Numbers survive as text.** An int that is converted to a string and back is the same int. A
double that is converted to a string and back is the same double, bit for bit, unless it is no
number; then it comes back as one that is none. -/
theorem Machine.conversion_roundTrip (m : Machine) (vs : List Value) :
    (∀ n : Int32, ∃ s,
      (Op.convert .string).exec (m.withOperands (.int n :: vs)) =
        .ok () (m.withOperands (.str s :: vs)) ∧
      (Op.convert .int).exec (m.withOperands (.str s :: vs)) =
        .ok () (m.withOperands (.int n :: vs))) ∧
    ∀ d : Float, ∃ s d',
      (Op.convert .string).exec (m.withOperands (.double d :: vs)) =
        .ok () (m.withOperands (.str s :: vs)) ∧
      (Op.convert .double).exec (m.withOperands (.str s :: vs)) =
        .ok () (m.withOperands (.double d' :: vs)) ∧
      if d.isNaN then d'.isNaN = true else d'.toBits = d.toBits := by
  refine ⟨fun n ↦ ⟨_, Op.convert_exec rfl m vs, Op.convert_exec ?_ m vs⟩, fun d ↦ ?_⟩
  · rw [Conversion.apply, Value.text, Decimal.readInt32?_toString]
    rfl
  · cases hnan : d.isNaN with
    | false =>
      refine ⟨_, d, Op.convert_exec rfl m vs, Op.convert_exec ?_ m vs, rfl⟩
      rw [Conversion.apply, Value.text, Decimal.readDouble?_printed hnan]
      rfl
    | true =>
      have htext : (Value.double d).text = "NaN" := if_pos hnan
      have hread : (0.0 / 0.0 : Float).isNaN = true := by decide
      refine ⟨_, 0.0 / 0.0, Op.convert_exec rfl m vs, Op.convert_exec ?_ m vs, hread⟩
      rw [Conversion.apply, htext]
      decide

end Pebble
