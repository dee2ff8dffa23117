import Mathlib.Data.Int.Log
import Mathlib.Data.Rat.Floor
import Mathlib.Tactic.Common
import Mathlib.Tactic.FieldSimp
import Mathlib.Tactic.Ring
import Mathlib.Tactic.Positivity
import Pebble.Decimal.Shortest

/-!
# Decimals read back

The shortest decimal of a finite double is rounded to that double. The search for it only answers
decimals that read back, so what is left to prove is that the exact expansion, which stands behind
the search, is rounded to where it came from.

Two facts about rounding carry this. It depends on the value of a ratio alone, because the binary
logarithm and the nearest integer do; so zeros at the end of the digits do not matter, which is what
printing a decimal relies on. And a ratio that is a double keeps its significand.
-/

namespace Pebble.Binary64

/-! ## Rounding depends on the value -/

theorem powDown_pos {b : Nat} (h : 0 < b) (e : Int) : 0 < powDown b e :=
  Nat.pow_pos h

theorem powUp_pos {b : Nat} (h : 0 < b) (e : Int) : 0 < powUp b e :=
  Nat.pow_pos h

/-- The two parts of a power make up the power. -/
theorem powUp_div_powDown {b : Nat} (h : 0 < b) (e : Int) :
    (powUp b e : ℚ) / powDown b e = (b : ℚ) ^ e := by
  have hb : (b : ℚ) ≠ 0 := by exact_mod_cast h.ne'
  have hpowUp : (powUp b e : ℚ) = (b : ℚ) ^ e.toNat := by
    rw [← Nat.cast_pow]; rfl
  have hpowDown : (powDown b e : ℚ) = (b : ℚ) ^ (-e).toNat := by
    rw [← Nat.cast_pow]; rfl
  rw [hpowUp, hpowDown, ← zpow_natCast, ← zpow_natCast, ← zpow_sub₀ hb]
  congr 1
  omega

theorem floorLog2_eq {num den : Nat} (hnum : 0 < num) (hden : 0 < den) :
    floorLog2 num den = Int.log 2 ((num : ℚ) / den) := by
  have hnumQ : (0 : ℚ) < num := by exact_mod_cast hnum
  have hdenQ : (0 : ℚ) < den := by exact_mod_cast hden
  have hratio : (0 : ℚ) < num / den := by positivity
  have hnumLo : (2 : ℚ) ^ num.log2 ≤ num := by exact_mod_cast Nat.log2_self_le hnum.ne'
  have hnumHi : (num : ℚ) < 2 ^ (num.log2 + 1) := by exact_mod_cast Nat.lt_log2_self
  have hdenLo : (2 : ℚ) ^ den.log2 ≤ den := by exact_mod_cast Nat.log2_self_le hden.ne'
  have hdenHi : (den : ℚ) < 2 ^ (den.log2 + 1) := by exact_mod_cast Nat.lt_log2_self
  rw [floorLog2]
  -- The difference of the logarithms is right or one too large, and the test tells which.
  generalize hk : (num.log2 : Int) - den.log2 = k
  have htest : den * powUp 2 k ≤ num * powDown 2 k ↔ k ≤ Int.log 2 ((num : ℚ) / den) := by
    have hdown : (0 : ℚ) < powDown 2 k := by exact_mod_cast powDown_pos (by decide) k
    rw [← Int.zpow_le_iff_le_log (by decide) hratio, ← powUp_div_powDown (by decide),
      div_le_div_iff₀ hdown hdenQ]
    norm_cast
    rw [Nat.mul_comm den]
  have hlow : k - 1 ≤ Int.log 2 ((num : ℚ) / den) := by
    rw [← Int.zpow_le_iff_le_log (by decide) hratio]
    calc ((2 : Nat) : ℚ) ^ (k - 1) = 2 ^ num.log2 / 2 ^ (den.log2 + 1) := by
          rw [← zpow_natCast, ← zpow_natCast, ← zpow_sub₀ two_ne_zero]
          push_cast
          congr 1
          omega
      _ ≤ num / den := div_le_div₀ hnumQ.le hnumLo hdenQ hdenHi.le
  have hhigh : Int.log 2 ((num : ℚ) / den) < k + 1 := by
    rw [← Int.lt_zpow_iff_log_lt (by decide) hratio]
    calc (num : ℚ) / den < 2 ^ (num.log2 + 1) / 2 ^ den.log2 :=
          div_lt_div₀ hnumHi hdenLo (by positivity) (by positivity)
      _ = ((2 : Nat) : ℚ) ^ (k + 1) := by
          rw [← zpow_natCast, ← zpow_natCast, ← zpow_sub₀ two_ne_zero]
          push_cast
          congr 1
          omega
  split_ifs with h
  · have := htest.mp h
    omega
  · have := mt htest.mpr h
    omega

theorem roundHalfEven_mul (num den : Nat) {c : Nat} (hc : 0 < c) :
    roundHalfEven (num * c) (den * c) = roundHalfEven num den := by
  have hlt : 2 * (num % den * c) < den * c ↔ 2 * (num % den) < den := by
    rw [← Nat.mul_assoc, Nat.mul_lt_mul_right hc]
  have heq : 2 * (num % den * c) = den * c ↔ 2 * (num % den) = den := by
    rw [← Nat.mul_assoc, Nat.mul_left_inj hc.ne']
  simp only [roundHalfEven, Nat.mul_div_mul_right _ _ hc, Nat.mul_mod_mul_right, Bool.or_eq_true,
    decide_eq_true_eq, Bool.and_eq_true, beq_iff_eq, hlt, heq]

theorem roundHalfEven_mul_self (n : Nat) {den : Nat} (hden : 0 < den) :
    roundHalfEven (n * den) den = n := by
  simp [roundHalfEven, Nat.mul_div_cancel _ hden, hden]

theorem ratioBits_mul (num : Nat) {den c : Nat} (hden : 0 < den) (hc : 0 < c) :
    ratioBits (num * c) (den * c) = ratioBits num den := by
  rcases Nat.eq_zero_or_pos num with rfl | hnum
  · simp [ratioBits]
  have hlog : floorLog2 (num * c) (den * c) = floorLog2 num den := by
    have hcQ : (c : ℚ) ≠ 0 := by exact_mod_cast hc.ne'
    rw [floorLog2_eq (Nat.mul_pos hnum hc) (Nat.mul_pos hden hc), floorLog2_eq hnum hden]
    push_cast
    rw [mul_div_mul_right _ _ hcQ]
  rw [ratioBits, ratioBits, if_neg (Nat.mul_pos hnum hc).ne', if_neg hnum.ne', hlog]
  simp only [Nat.mul_right_comm _ c, roundHalfEven_mul _ _ hc]

/-- The double nearest to a ratio depends on the value of the ratio alone. -/
theorem ratioBits_congr {a b c d : Nat} (hb : 0 < b) (hd : 0 < d) (h : a * d = c * b) :
    ratioBits a b = ratioBits c d :=
  calc ratioBits a b = ratioBits (a * d) (b * d) := (ratioBits_mul a hb hd).symm
    _ = ratioBits (c * b) (d * b) := by rw [h, Nat.mul_comm b]
    _ = ratioBits c d := ratioBits_mul c hd hb

theorem length_toDigits_mul_pow {n : Nat} (hn : 0 < n) (k : Nat) :
    (Nat.toDigits 10 (n * 10 ^ k)).length = (Nat.toDigits 10 n).length + k := by
  induction k with
  | zero => rw [Nat.pow_zero, Nat.mul_one, Nat.add_zero]
  | succ k ih =>
    have hpos : 0 < n * 10 ^ k := Nat.mul_pos hn (Nat.pow_pos (by decide))
    have hdigits : Nat.toDigits 10 (n * 10 ^ (k + 1)) = Nat.toDigits 10 (n * 10 ^ k) ++ ['0'] := by
      have := Nat.toDigits_append_toDigits (b := 10) (d := 0) (by decide) hpos (by decide)
      rw [Nat.toDigits_zero] at this
      rw [this]
      ring_nf
    rw [hdigits, List.length_append, ih]
    rfl

/-- Zeros at the end of the digits do not change what a decimal is rounded to. -/
theorem decimalBits_mul_pow (n k : Nat) (e : Int) :
    decimalBits (n * 10 ^ k) (e - k) = decimalBits n e := by
  rcases Nat.eq_zero_or_pos n with rfl | hn
  · simp [decimalBits]
  have hpos : 0 < n * 10 ^ k := Nat.mul_pos hn (Nat.pow_pos (by decide))
  have htop : e - k + ((Nat.toDigits 10 n).length + k : Nat) = e + (Nat.toDigits 10 n).length := by
    omega
  have hratio : ratioBits (n * 10 ^ k * powUp 10 (e - k)) (powDown 10 (e - k)) =
      ratioBits (n * powUp 10 e) (powDown 10 e) := by
    refine ratioBits_congr (powDown_pos (by decide) _) (powDown_pos (by decide) _) ?_
    simp only [powUp, powDown, Nat.mul_assoc, Nat.pow_eq, ← Nat.pow_add]
    congr 2
    omega
  simp only [decimalBits, length_toDigits_mul_pow hn, htop, hratio, hpos.ne', hn.ne']


theorem decimalBits_le (n : Nat) (e : Int) : decimalBits n e ≤ infinityBits := by
  simp only [decimalBits]
  split_ifs
  · exact Nat.zero_le _
  · exact Nat.le_refl _
  · rw [ratioBits]
    split_ifs
    · exact Nat.zero_le _
    · exact Nat.min_le_right _ _

/-! ## Exact doubles -/

theorem floorLog2_mul_pow {m : Nat} (hm : 0 < m) (q : Int) :
    floorLog2 (m * powUp 2 q) (powDown 2 q) = m.log2 + q := by
  have hmQ : (0 : ℚ) < m := by exact_mod_cast hm
  have hlo : (2 : ℚ) ^ m.log2 ≤ m := by exact_mod_cast Nat.log2_self_le hm.ne'
  have hhi : (m : ℚ) < 2 ^ (m.log2 + 1) := by exact_mod_cast Nat.lt_log2_self
  have hq : (0 : ℚ) < 2 ^ q := zpow_pos two_pos q
  have hpos : (0 : ℚ) < m * 2 ^ q := mul_pos hmQ hq
  have hvalue : ((m * powUp 2 q : Nat) : ℚ) / powDown 2 q = m * 2 ^ q := by
    rw [Nat.cast_mul, mul_div_assoc, powUp_div_powDown (by decide)]
    rfl
  rw [floorLog2_eq (Nat.mul_pos hm (powUp_pos (by decide) q)) (powDown_pos (by decide) q), hvalue]
  have hge : (m.log2 : Int) + q ≤ Int.log 2 (m * (2 : ℚ) ^ q) := by
    rw [← Int.zpow_le_iff_le_log (by decide) hpos, Nat.cast_two, zpow_add₀ two_ne_zero,
      zpow_natCast]
    exact mul_le_mul_of_nonneg_right hlo hq.le
  have hlt : Int.log 2 (m * (2 : ℚ) ^ q) < (m.log2 + 1 : Nat) + q := by
    rw [← Int.lt_zpow_iff_log_lt (by decide) hpos, Nat.cast_two, zpow_add₀ two_ne_zero,
      zpow_natCast]
    exact mul_lt_mul_of_pos_right hhi hq
  omega

/-- What a finite double that is not zero says about its significand and exponent: the significand
has all 53 bits unless the exponent is the least one, and together they make up the pattern. -/
structure IsScaled (m : Nat) (q : Int) (bits : Nat) : Prop where
  pos : 0 < m
  lt : m < 2 ^ 53
  normal : 2 ^ 52 ≤ m ∨ q = -1074
  least : -1074 ≤ q
  greatest : q ≤ 971
  bits_eq : (q + 1074).toNat * 2 ^ 52 + m = bits

theorem isScaled {d : Float} (hpos : 0 < magnitude d) (hfin : magnitude d < infinityBits) :
    IsScaled (significand d) (exponent d) (magnitude d) := by
  unfold significand exponent
  generalize magnitude d = n at *
  have hsplit : n < 2 ^ 52 ↔ n / 2 ^ 52 = 0 := by omega
  have hshift : (1 : Nat) <<< 52 = 2 ^ 52 := rfl
  have hfin : n < 2047 * 2 ^ 52 := hfin
  simp only [hshift, ← hsplit]
  split_ifs with h <;> constructor <;> omega

theorem ratioBits_of_isScaled {m : Nat} {q : Int} {bits : Nat} (h : IsScaled m q bits)
    (hfin : bits < infinityBits) : ratioBits (m * powUp 2 q) (powDown 2 q) = bits := by
  have hup : 0 < powUp 2 q := powUp_pos (by decide) q
  have hdown : 0 < powDown 2 q := powDown_pos (by decide) q
  have hlog : m.log2 < 53 := (Nat.log2_lt h.pos.ne').mpr h.lt
  have hlast : max ((m.log2 : Int) + q - 52) (-1074) = q := by
    rcases h.normal with hnormal | hleast
    · have := (Nat.le_log2 h.pos.ne').mpr hnormal
      have := h.least
      omega
    · omega
  have hround : roundHalfEven (m * powUp 2 q * powDown 2 q) (powDown 2 q * powUp 2 q) = m := by
    rw [Nat.mul_assoc, Nat.mul_comm (powDown 2 q)]
    exact roundHalfEven_mul_self m (Nat.mul_pos hup hdown)
  rw [ratioBits, if_neg (Nat.mul_pos h.pos hup).ne', floorLog2_mul_pow h.pos, hlast]
  simp only [hround]
  have hshift : (1 : Nat) <<< 52 = 2 ^ 52 := rfl
  rw [hshift, h.bits_eq, Nat.min_eq_left hfin.le]


theorem decimalBits_eq_ratioBits {n : Nat} {e : Int} (hn : 0 < n)
    (hlow : -330 ≤ e + (Nat.toDigits 10 n).length) (hhigh : e + (Nat.toDigits 10 n).length ≤ 310) :
    decimalBits n e = ratioBits (n * powUp 10 e) (powDown 10 e) := by
  simp only [decimalBits]
  rw [if_neg (by simp; omega), if_neg (by omega)]

end Pebble.Binary64

namespace Pebble.Decimal
open Binary64

theorem two_pow_le_ten_pow {p r k n : Nat} (h : 2 ^ p ≤ 10 ^ r) (hk : k ≤ p * n) :
    2 ^ k ≤ 10 ^ (r * n) :=
  calc 2 ^ k ≤ 2 ^ (p * n) := Nat.pow_le_pow_right (by decide) hk
    _ = (2 ^ p) ^ n := Nat.pow_mul ..
    _ ≤ (10 ^ r) ^ n := Nat.pow_le_pow_left h n
    _ = 10 ^ (r * n) := (Nat.pow_mul ..).symm

theorem lt_of_ten_pow_lt_two_pow {p r k n j : Nat} (h : 2 ^ p ≤ 10 ^ r) (hk : k ≤ p * n)
    (hj : 10 ^ j < 2 ^ k) : j < r * n :=
  (Nat.pow_lt_pow_iff_right (by decide)).mp (hj.trans_le (two_pow_le_ten_pow h hk))

section
variable {m : Nat} {q : Int} {bits : Nat}

theorem exact_digits_pos (h : IsScaled m q bits) : 0 < (exact m q).digits :=
  Nat.mul_pos (Nat.mul_pos h.pos (powUp_pos (by decide) _)) (powDown_pos (by decide) _)

/-- No double is so small that its decimal would be taken for zero. -/
theorem le_exact_top (h : IsScaled m q bits) :
    -330 ≤ (exact m q).exponent + (Nat.toDigits 10 (exact m q).digits).length := by
  by_contra hsmall
  generalize hlength : (Nat.toDigits 10 (exact m q).digits).length = length at hsmall
  have hexponent : (exact m q).exponent = min q 0 := rfl
  obtain ⟨r, hr⟩ : ∃ r, (-q).toNat = length + r := Nat.exists_eq_add_of_le (by omega)
  have hdigits : (exact m q).digits < 10 ^ length :=
    (Nat.length_toDigits_le_iff (by decide) (hlength ▸ Nat.length_toDigits_pos)).mp hlength.le
  have hfive : 5 ^ (-q).toNat ≤ (exact m q).digits :=
    Nat.le_mul_of_pos_left _ (Nat.mul_pos h.pos (powUp_pos (by decide) _))
  have hshort : 5 ^ (-q).toNat * 10 ^ r < 5 ^ (-q).toNat * 2 ^ (-q).toNat :=
    calc 5 ^ (-q).toNat * 10 ^ r < 10 ^ length * 10 ^ r :=
          Nat.mul_lt_mul_of_pos_right (hfive.trans_lt hdigits) (Nat.pow_pos (by decide))
      _ = 10 ^ (-q).toNat := by rw [← Nat.pow_add, ← hr]
      _ = 5 ^ (-q).toNat * 2 ^ (-q).toNat := by rw [← Nat.mul_pow]
  have hplaces : r < 54 * 6 := by
    have := h.least
    refine lt_of_ten_pow_lt_two_pow (p := 179) (by decide) ?_ (Nat.lt_of_mul_lt_mul_left hshort)
    omega
  omega

/-- No double is so large that its decimal would be taken for infinite. -/
theorem exact_top_le (h : IsScaled m q bits) :
    (exact m q).exponent + (Nat.toDigits 10 (exact m q).digits).length ≤ 310 := by
  have hexponent : (exact m q).exponent = min q 0 := rfl
  have htwo : 2 ^ (53 + q.toNat) ≤ 10 ^ (62 * 5) := by
    have := h.greatest
    exact two_pow_le_ten_pow (p := 205) (by decide) (by omega)
  have hdigits : (exact m q).digits < 10 ^ (62 * 5 + (-q).toNat) :=
    calc (exact m q).digits = m * 2 ^ q.toNat * 5 ^ (-q).toNat := rfl
      _ < 2 ^ 53 * 2 ^ q.toNat * 5 ^ (-q).toNat :=
          Nat.mul_lt_mul_of_pos_right (Nat.mul_lt_mul_of_pos_right h.lt (Nat.pow_pos (by decide)))
            (Nat.pow_pos (by decide))
      _ = 2 ^ (53 + q.toNat) * 5 ^ (-q).toNat := by rw [Nat.pow_add]
      _ ≤ 10 ^ (62 * 5) * 10 ^ (-q).toNat :=
          Nat.mul_le_mul htwo (Nat.pow_le_pow_left (by decide) _)
      _ = 10 ^ (62 * 5 + (-q).toNat) := by rw [Nat.pow_add]
  have hlength := (Nat.length_toDigits_le_iff (by decide) (by omega)).mpr hdigits
  omega

theorem exact_readsBackTo (h : IsScaled m q bits) (hfin : bits < infinityBits) :
    (exact m q).readsBackTo bits = true := by
  have hten : powDown 10 (min q 0) = powDown 2 q * powDown 5 q := by
    have : (-min q 0).toNat = (-q).toNat := by omega
    simp only [powDown, Nat.pow_eq, this, ← Nat.mul_pow]
  have hone : powUp 10 (min q 0) = 1 := by
    have : (min q 0).toNat = 0 := by omega
    simp only [powUp, Nat.pow_eq, this, Nat.pow_zero]
  have hratio : ratioBits ((exact m q).digits * powUp 10 (exact m q).exponent)
      (powDown 10 (exact m q).exponent) = bits := by
    rw [← ratioBits_of_isScaled h hfin]
    refine ratioBits_congr (powDown_pos (by decide) _) (powDown_pos (by decide) _) ?_
    simp only [exact, hten, hone]
    ring
  rw [readsBackTo, beq_iff_eq,
    decimalBits_eq_ratioBits (exact_digits_pos h) (le_exact_top h) (exact_top_le h), hratio]

end

theorem neighbour?_readsBackTo {tie : Tie} {bits num den n : Nat} {x : Decimal}
    (h : neighbour? tie bits num den n = some x) : x.readsBackTo bits = true := by
  simp only [neighbour?] at h
  split at h
  · next hbelow habove =>
    cases h
    split
    · exact habove
    · exact hbelow
  · next hbelow _ =>
    cases h
    exact hbelow
  · next _ habove =>
    cases h
    exact habove
  · cases h

/-- The shortest decimal of a finite double reads back to it. -/
theorem shortest_readsBackTo (tie : Tie) {d : Float} (hpos : 0 < magnitude d)
    (hfin : magnitude d < infinityBits) : (shortest tie d).readsBackTo (magnitude d) = true := by
  simp only [shortest]
  cases hfind : (List.range 17).findSome? fun n ↦ neighbour? tie (magnitude d)
      (significand d * powUp 2 (Binary64.exponent d)) (powDown 2 (Binary64.exponent d)) (n + 1) with
  | none => exact exact_readsBackTo (isScaled hpos hfin) hfin
  | some x =>
    obtain ⟨n, -, hn⟩ := List.exists_of_findSome?_eq_some hfind
    exact neighbour?_readsBackTo hn

end Pebble.Decimal
