import Mathlib
import Pebble.Decimal.Binary64

/-!
# Doubles and their bit patterns

A double made from a sign and a magnitude that stays below infinity has that pattern and is finite,
and every finite double is made so. Doubles are packed from a value and unpacked into it, so the
patterns are followed through both: the fields of a pattern determine it, and what is unpacked from
it has just those fields.

Taking a double away from zero changes its sign and nothing else, which is how numbers below zero
are written.
-/

namespace Pebble.Binary64

open Float.Model UnpackedFloat

/-! ## The fields of a pattern -/

section
variable {b : BitVec Format.binary64.numBits}

theorem unpackMantissa_toNat : (unpackMantissa b).toNat = b.toNat % 2 ^ 52 := by
  simp [unpackMantissa]

theorem unpackExponent_toNat : (unpackExponent b).toNat = b.toNat / 2 ^ 52 % 2 ^ 11 := by
  simp [unpackExponent, Nat.shiftRight_eq_div_pow]

theorem unpackSign_toNat : (unpackSign b).toNat = b.toNat / 2 ^ 63 % 2 := by
  simp [unpackSign, Nat.shiftRight_eq_div_pow]

theorem toBitVec_ofBitVec : ∀ s : BitVec 1, (Sign.ofBitVec s).toBitVec = s := by
  decide

theorem packComponents_toNat (s : Sign) (e : BitVec 11) (m : BitVec 52) :
    (packComponents Format.binary64 s e m).toNat =
      s.toBitVec.toNat * 2 ^ 63 + e.toNat * 2 ^ 52 + m.toNat := by
  rw [packComponents, BitVec.toNat_append, ← Nat.shiftLeft_add_eq_or_of_lt m.isLt,
    BitVec.toNat_append, ← Nat.shiftLeft_add_eq_or_of_lt e.isLt]
  simp only [Nat.shiftLeft_eq]
  omega

/-- Packing the fields of a pattern gives the pattern. -/
theorem packComponents_unpack :
    packComponents Format.binary64 (Sign.ofBitVec (unpackSign b)) (unpackExponent b)
      (unpackMantissa b) = b := by
  have hbound : b.toNat < 2 ^ 64 := b.isLt
  refine BitVec.eq_of_toNat_eq ?_
  rw [packComponents_toNat, toBitVec_ofBitVec, unpackSign_toNat, unpackExponent_toNat,
    unpackMantissa_toNat]
  omega

theorem unpackExponent_ne_iff :
    unpackExponent b ≠ -BitVec.ofNat Format.binary64.exponentBits 1 ↔
      b.toNat % 2 ^ 63 < infinityBits := by
  have hones : unpackExponent b = -BitVec.ofNat Format.binary64.exponentBits 1 ↔
      (unpackExponent b).toNat = 2047 := by
    rw [BitVec.toNat_eq]
    rfl
  have hinfinity : infinityBits = 2047 * 2 ^ 52 := rfl
  rw [Ne, hones, unpackExponent_toNat, hinfinity]
  omega

/-- What a finite pattern stands for: zero, a number below the normal ones, or a normal one, whose
significand has a hidden bit. -/
theorem unpack_cases (h : b.toNat % 2 ^ 63 < infinityBits) :
    (unpackExponent b = 0#11 ∧ unpackMantissa b = 0#52 ∧
      UnpackedFloat.unpack Format.binary64 b = .zero (Sign.ofBitVec (unpackSign b))) ∨
    (unpackExponent b = 0#11 ∧ ∃ hm, UnpackedFloat.unpack Format.binary64 b =
      .finite (Sign.ofBitVec (unpackSign b)) (unpackMantissa b).toNat (-1074) hm) ∨
    ∃ hm, UnpackedFloat.unpack Format.binary64 b =
      .finite (Sign.ofBitVec (unpackSign b)) (2 ^ 52 + (unpackMantissa b).toNat)
        ((unpackExponent b).toNat - 1075) hm := by
  simp only [UnpackedFloat.unpack, unpackExponent_ne_iff.mpr h, if_false]
  split_ifs with hzero hmantissa
  · exact .inl ⟨hzero, hmantissa, rfl⟩
  · refine .inr (.inl ⟨hzero, Nat.pos_of_ne_zero (by simpa [BitVec.toNat_eq] using hmantissa), ?_⟩)
    simp only [hzero]
    rfl
  · refine .inr (.inr ⟨by omega, ?_⟩)
    have hsum : (1#1 ++ unpackMantissa b).toNat = 2 ^ 52 + (unpackMantissa b).toNat := by
      rw [BitVec.toNat_append, ← Nat.shiftLeft_add_eq_or_of_lt (unpackMantissa b).isLt]
      rfl
    simp only [hsum]
    rfl

theorem pack_unpack (h : b.toNat % 2 ^ 63 < infinityBits) :
    UnpackedFloat.pack Format.binary64 (UnpackedFloat.unpack Format.binary64 b) = b := by
  have hcomponents := packComponents_unpack (b := b)
  have hmantissa : (unpackMantissa b).toNat < 2 ^ 52 := (unpackMantissa b).isLt
  have hbits : Format.binary64.mantissaBits = 53 := rfl
  -- Zero, subnormal and normal numbers are packed each in their own way.
  rcases unpack_cases h with ⟨hexponent, hzero, heq⟩ | ⟨hexponent, hm, heq⟩ | ⟨hm, heq⟩
  · rw [heq, UnpackedFloat.pack, packedZero]
    rw [hexponent, hzero] at hcomponents
    exact hcomponents
  · have hlog : ¬ (unpackMantissa b).toNat.log2 + 1 = Format.binary64.mantissaBits := by
      have := (Nat.log2_lt (Nat.ne_of_gt hm)).mpr hmantissa
      omega
    rw [heq]
    simp only [UnpackedFloat.pack]
    rw [if_neg (by decide), if_neg hlog, BitVec.ofNat_toNat, BitVec.setWidth_eq, ← hexponent]
    exact hcomponents
  · have hlog : (2 ^ 52 + (unpackMantissa b).toNat).log2 + 1 = Format.binary64.mantissaBits := by
      have hlt : (2 ^ 52 + (unpackMantissa b).toNat).log2 < 53 :=
        (Nat.log2_lt (Nat.ne_of_gt hm)).mpr (by omega)
      have hge : 52 ≤ (2 ^ 52 + (unpackMantissa b).toNat).log2 :=
        (Nat.le_log2 (Nat.ne_of_gt hm)).mpr (by omega)
      omega
    have hbiased : (((unpackExponent b).toNat : Int) - 1075 + Format.binary64.exponentBias +
        Format.binary64.mantissaBitsWithoutImplicit).toNat = (unpackExponent b).toNat := by
      have hbias : Format.binary64.exponentBias = 1023 := rfl
      simp only [hbias]
      omega
    have hexponent : (unpackExponent b).toNat < 2047 := by
      have hbound : b.toNat % 2 ^ 63 < 2047 * 2 ^ 52 := h
      rw [unpackExponent_toNat]
      omega
    have hfraction : BitVec.ofNat 52 (2 ^ 52 + (unpackMantissa b).toNat) = unpackMantissa b := by
      refine BitVec.eq_of_toNat_eq ?_
      rw [BitVec.toNat_ofNat]
      omega
    rw [heq]
    simp only [UnpackedFloat.pack, hbiased]
    rw [if_neg (by omega), if_pos hlog, BitVec.ofNat_toNat, BitVec.setWidth_eq, hfraction]
    exact hcomponents

end

/-- The sign of a number is a bit of its own. -/
theorem pack_negative_toNat (m : Nat) (e : Int) (hm : 0 < m) :
    (UnpackedFloat.pack Format.binary64 (.finite .negative m e hm)).toNat =
      (UnpackedFloat.pack Format.binary64 (.finite .positive m e hm)).toNat + 2 ^ 63 := by
  have hsign (e : BitVec 11) (m : BitVec 52) :
      (packComponents Format.binary64 .negative e m).toNat =
        (packComponents Format.binary64 .positive e m).toNat + 2 ^ 63 := by
    rw [packComponents_toNat, packComponents_toNat]
    simp only [Sign.toBitVec, BitVec.toNat_ofNat]
    omega
  simp only [UnpackedFloat.pack, packedInfinity]
  split
  · exact hsign _ _
  · split
    · exact hsign _ _
    · exact hsign _ _

/-! ## Doubles with a given sign and magnitude -/

/-- Doubles with the same bits are the same. -/
theorem eq_of_toBits_toNat {d d' : Float} (h : d.toBits.toNat = d'.toBits.toNat) : d = d' := by
  obtain ⟨bits, valid⟩ := d
  obtain ⟨bits', valid'⟩ := d'
  obtain rfl : bits = bits' := UInt64.toNat_inj.mp h
  rfl

/-- The sign of a pattern. -/
def signOf (negative : Bool) : Sign := if negative then .negative else .positive

/-- The pattern with a sign and a magnitude. -/
def pattern (negative : Bool) (bits : Nat) : BitVec Format.binary64.numBits :=
  (UInt64.ofNat (if negative then bits + 1 <<< 63 else bits)).toBitVec

section
variable {negative : Bool} {bits : Nat} (h : bits < infinityBits)
include h

theorem toNat_pattern :
    (pattern negative bits).toNat = (if negative then 2 ^ 63 else 0) + bits := by
  have hbound : bits < 2047 * 2 ^ 52 := h
  have hsign : (1 : Nat) <<< 63 = 2 ^ 63 := rfl
  have hpattern : (pattern negative bits).toNat =
      (UInt64.ofNat (if negative then bits + 1 <<< 63 else bits)).toBitVec.toNat := rfl
  rw [hpattern, hsign]
  simp only [UInt64.toBitVec_ofNat', BitVec.toNat_ofNat]
  split <;> omega

theorem toNat_pattern_mod : (pattern negative bits).toNat % 2 ^ 63 = bits := by
  have hbound : bits < 2047 * 2 ^ 52 := h
  rw [toNat_pattern h]
  split <;> omega

theorem ofBitVec_pattern : Sign.ofBitVec (unpackSign (pattern negative bits)) = signOf negative := by
  have hbound : bits < 2047 * 2 ^ 52 := h
  have hsign : unpackSign (pattern negative bits) = if negative then 1#1 else 0#1 := by
    refine BitVec.eq_of_toNat_eq ?_
    rw [unpackSign_toNat, toNat_pattern h]
    split
    · rw [BitVec.toNat_ofNat]
      omega
    · rw [BitVec.toNat_ofNat]
      omega
  rw [hsign]
  cases negative <;> rfl

/-- A double keeps a finite pattern. -/
theorem toBitVec_ofMagnitude :
    (ofMagnitude negative bits).toBits.toBitVec = pattern negative bits :=
  pack_unpack ((toNat_pattern_mod h).trans_lt h)

theorem toNat_toBits_ofMagnitude :
    (ofMagnitude negative bits).toBits.toNat = (if negative then 2 ^ 63 else 0) + bits := by
  rw [← UInt64.toNat_toBitVec, toBitVec_ofMagnitude h]
  exact toNat_pattern h

theorem magnitude_ofMagnitude : magnitude (ofMagnitude negative bits) = bits := by
  have hbound : bits < 2047 * 2 ^ 52 := h
  have hsign : (1 : Nat) <<< 63 = 2 ^ 63 := rfl
  rw [magnitude, toNat_toBits_ofMagnitude h, hsign]
  split <;> omega

omit h in
theorem unpack_ofMagnitude (negative : Bool) (h : bits < infinityBits) :
    (bits = 0 ∧ (ofMagnitude negative bits).toModel.unpack = .zero (signOf negative)) ∨
      ∃ m e hm, (ofMagnitude negative bits).toModel.unpack = .finite (signOf negative) m e hm := by
  have hmodel : (ofMagnitude negative bits).toModel.unpack =
      UnpackedFloat.unpack Format.binary64 (pattern negative bits) :=
    congrArg (UnpackedFloat.unpack Format.binary64) (toBitVec_ofMagnitude h)
  have hmod : (pattern negative bits).toNat % 2 ^ 63 = bits := toNat_pattern_mod h
  have hcases := unpack_cases (hmod.trans_lt h)
  rw [hmodel]
  rw [ofBitVec_pattern h] at hcases
  rcases hcases with ⟨hexponent, hmantissa, heq⟩ | ⟨-, hm, heq⟩ | ⟨hm, heq⟩
  · refine .inl ⟨?_, heq⟩
    have hexponent : (unpackExponent (pattern negative bits)).toNat = 0 := congrArg _ hexponent
    have hmantissa : (unpackMantissa (pattern negative bits)).toNat = 0 := congrArg _ hmantissa
    rw [unpackExponent_toNat] at hexponent
    rw [unpackMantissa_toNat] at hmantissa
    omega
  · exact .inr ⟨_, _, _, heq⟩
  · exact .inr ⟨_, _, _, heq⟩

theorem isNaN_ofMagnitude : (ofMagnitude negative bits).isNaN = false := by
  rw [Float.isNaN, Float.Model.isNaN]
  rcases unpack_ofMagnitude negative h with ⟨-, heq⟩ | ⟨m, e, hm, heq⟩ <;> rw [heq] <;> rfl

theorem isInf_ofMagnitude : (ofMagnitude negative bits).isInf = false := by
  rw [Float.isInf, Float.Model.isInf]
  rcases unpack_ofMagnitude negative h with ⟨-, heq⟩ | ⟨m, e, hm, heq⟩ <;> rw [heq] <;> rfl

theorem isFinite_ofMagnitude : (ofMagnitude negative bits).isFinite = true := by
  rw [Float.isFinite, Float.Model.isFinite]
  rcases unpack_ofMagnitude negative h with ⟨-, heq⟩ | ⟨m, e, hm, heq⟩ <;> rw [heq] <;> rfl

theorem not_ofMagnitude_lt_zero : ¬ofMagnitude false bits < 0.0 := by
  have hzero : (0.0 : Float).toModel.unpack = .zero .positive := rfl
  have hlt : (ofMagnitude false bits).toModel.lt (0.0 : Float).toModel = false := by
    rw [Float.Model.lt, hzero]
    rcases unpack_ofMagnitude false h with ⟨-, heq⟩ | ⟨m, e, hm, heq⟩ <;> rw [heq] <;> rfl
  intro hneg
  exact Bool.noConfusion (hlt.symm.trans (of_decide_eq_true hneg))

section
variable (hpos : 0 < bits)
include hpos

/-- What a pattern with a sign and without it stand for, if it is not that of zero. -/
theorem exists_unpack_ofMagnitude (negative : Bool) :
    ∃ m e hm, (ofMagnitude negative bits).toModel.unpack = .finite (signOf negative) m e hm := by
  rcases unpack_ofMagnitude negative h with ⟨hzero, -⟩ | hfinite
  · exact absurd hzero (Nat.ne_of_gt hpos)
  · exact hfinite

theorem ofMagnitude_lt_zero : ofMagnitude true bits < 0.0 := by
  have hzero : (0.0 : Float).toModel.unpack = .zero .positive := rfl
  obtain ⟨m, e, hm, heq⟩ := exists_unpack_ofMagnitude h hpos true
  have hlt : (ofMagnitude true bits).toModel.lt (0.0 : Float).toModel = true := by
    rw [Float.Model.lt, hzero, heq]
    rfl
  exact decide_eq_true hlt

/-- Zero less a number is the number with the other sign. -/
theorem zero_sub_ofMagnitude : 0.0 - ofMagnitude false bits = ofMagnitude true bits := by
  have hzero : (0.0 : Float).toModel.unpack = .zero .positive := rfl
  obtain ⟨m, e, hm, heq⟩ := exists_unpack_ofMagnitude h hpos false
  have hsub : (0.0 - ofMagnitude false bits).toBits.toBitVec =
      UnpackedFloat.pack Format.binary64 (UnpackedFloat.sub Format.binary64
        (0.0 : Float).toModel.unpack (ofMagnitude false bits).toModel.unpack) := rfl
  have hpack : UnpackedFloat.pack Format.binary64 (.finite .positive m e hm) =
      pattern false bits := by
    have hunpack : UnpackedFloat.unpack Format.binary64 (pattern false bits) =
        .finite .positive m e hm :=
      (congrArg (UnpackedFloat.unpack Format.binary64) (toBitVec_ofMagnitude h)).symm.trans heq
    rw [← hunpack]
    exact pack_unpack ((toNat_pattern_mod h).trans_lt h)
  refine eq_of_toBits_toNat ?_
  rw [hzero, heq] at hsub
  rw [toNat_toBits_ofMagnitude h, ← UInt64.toNat_toBitVec, hsub]
  refine (pack_negative_toNat m e hm).trans ?_
  rw [hpack, toNat_pattern h]
  simp only [Bool.false_eq_true, if_false, if_true]
  omega

end

end

theorem lt_infinityBits_of_isFinite {bits : Nat} (hle : bits ≤ infinityBits)
    (h : (ofMagnitude false bits).isFinite = true) : bits < infinityBits := by
  refine Nat.lt_of_le_of_ne hle ?_
  rintro rfl
  exact absurd h (by decide)

theorem magnitude_lt_infinityBits {d : Float} (h : d.isFinite = true) :
    magnitude d < infinityBits := by
  refine unpackExponent_ne_iff.mp fun hones ↦ ?_
  have hunpack : d.isFinite =
      (UnpackedFloat.unpack Format.binary64 d.toBits.toBitVec).isFinite := rfl
  rw [hunpack] at h
  simp only [UnpackedFloat.unpack, hones, if_true] at h
  split_ifs at h <;> cases h

/-- A finite double is made from its sign and its magnitude. -/
theorem eq_ofMagnitude {d : Float} (h : d.isFinite = true) :
    d = ofMagnitude (isNegative d) (magnitude d) := by
  have hbound : d.toBits.toNat < 2 ^ 64 := d.toBits.toNat_lt
  have hsign : (1 : Nat) <<< 63 = 2 ^ 63 := rfl
  refine eq_of_toBits_toNat ?_
  rw [toNat_toBits_ofMagnitude (magnitude_lt_infinityBits h), magnitude, isNegative, hsign]
  simp only [decide_eq_true_eq]
  split <;> omega

theorem ofMagnitude_true_zero : ofMagnitude true 0 = -0.0 := by
  decide

theorem ofMagnitude_false_ne {bits : Nat} (h : bits < infinityBits) :
    ofMagnitude false bits ≠ -0.0 := by
  have hbound : bits < 2047 * 2 ^ 52 := h
  have hzero : 0 < infinityBits := by decide
  rw [← ofMagnitude_true_zero]
  intro heq
  have hbits := congrArg (fun d ↦ d.toBits.toNat) heq
  simp only [toNat_toBits_ofMagnitude h, toNat_toBits_ofMagnitude hzero, Bool.false_eq_true,
    if_false, if_true] at hbits
  omega

end Pebble.Binary64
