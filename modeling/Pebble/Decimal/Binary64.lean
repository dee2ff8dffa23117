/-!
# Doubles as exact numbers

A finite double is `m * 2 ^ q` for a natural significand `m` and an integer `q`. This file takes
a double apart into those two numbers, and goes the other way: it rounds an exact ratio, or an
exact decimal, to the nearest double, a tie going to the even significand.

## The construction

Rounding is done on the bit pattern. With `q` the exponent of the last bit kept (never below
`-1074`) and `s` the rounded significand, the pattern of the result is `(q + 1074) * 2 ^ 52 + s`:
the hidden bit of `s` carries into the exponent field, a significand that rounds up to `2 ^ 53`
moves to the next exponent by itself, and whatever reaches the pattern of infinity stays there.
-/

namespace Pebble.Binary64

/-- The bit pattern of positive infinity. -/
def infinityBits : Nat := 0x7ff <<< 52

/-- Whether the sign bit is set. -/
def isNegative (d : Float) : Bool :=
  1 <<< 63 ≤ d.toBits.toNat

/-- The bit pattern without its sign. -/
def magnitude (d : Float) : Nat :=
  d.toBits.toNat % 1 <<< 63

/-- The significand `m` of a finite double `m * 2 ^ q`. -/
def significand (d : Float) : Nat :=
  let n := magnitude d
  if n < 1 <<< 52 then n else n % 1 <<< 52 + 1 <<< 52

/-- The exponent `q` of a finite double `m * 2 ^ q`. -/
def exponent (d : Float) : Int :=
  let e := magnitude d / 1 <<< 52
  (if e = 0 then 1 else e : Nat) - 1075

/-- `b ^ e` in the numerator, for a non-negative `e`. -/
def powUp (b : Nat) (e : Int) : Nat :=
  b.pow e.toNat

/-- `b ^ (-e)`, which a negative `e` puts in the denominator. -/
def powDown (b : Nat) (e : Int) : Nat :=
  b.pow (-e).toNat

/-- The integer nearest to `num / den`, a tie going to the even one. -/
def roundHalfEven (num den : Nat) : Nat :=
  let n := num / den
  let r := num % den
  if 2 * r < den || (2 * r == den && n % 2 == 0) then n else n + 1

/-- The largest `k` with `2 ^ k ≤ num / den`. -/
def floorLog2 (num den : Nat) : Int :=
  let k : Int := (Nat.log2 num : Int) - (Nat.log2 den : Int)
  if den * powUp 2 k ≤ num * powDown 2 k then k else k - 1

/-- The bit pattern of the double nearest to `num / den`. -/
def ratioBits (num den : Nat) : Nat :=
  if num = 0 then 0
  else
    let q := max (floorLog2 num den - 52) (-1074)
    let s := roundHalfEven (num * powDown 2 q) (den * powUp 2 q)
    min ((q + 1074).toNat * 1 <<< 52 + s) infinityBits

/-- The bit pattern of the double nearest to `digits * 10 ^ e`. Exponents that are certain to
overflow or to vanish are decided without computing the power. -/
def decimalBits (digits : Nat) (e : Int) : Nat :=
  let top : Int := e + (Nat.toDigits 10 digits).length
  if digits = 0 || top < -330 then 0
  else if 310 < top then infinityBits
  else ratioBits (digits * powUp 10 e) (powDown 10 e)

/-- The double with the given sign and magnitude. -/
def ofMagnitude (negative : Bool) (bits : Nat) : Float :=
  Float.ofBits (UInt64.ofNat (if negative then bits + 1 <<< 63 else bits))

/-- The double nearest to `± digits * 10 ^ e`. -/
def ofDecimal (negative : Bool) (digits : Nat) (e : Int) : Float :=
  ofMagnitude negative (decimalBits digits e)

/-- The largest integer not above a finite double. -/
def floorInt (d : Float) : Int :=
  let m : Int := significand d * powUp 2 (exponent d)
  let v := if isNegative d then -m else m
  v / (powDown 2 (exponent d) : Int)

/-- The floor of a double as a 32-bit integer: what is out of range goes to the nearer end, and
what is no number goes to zero. -/
def floorInt32 (d : Float) : Int32 :=
  if d.isNaN then 0
  else if d.isInf then if isNegative d then Int32.minValue else Int32.maxValue
  else Int32.ofInt (max Int32.minValue.toInt (min (floorInt d) Int32.maxValue.toInt))

end Pebble.Binary64
