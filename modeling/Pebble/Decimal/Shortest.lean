import Pebble.Decimal.Binary64

/-!
# The shortest decimal of a double

A finite positive double is written with the fewest digits that read back to it; among the
decimals of that length the nearest one is taken. Two can be equally near, as 17 digits of
`3.45706939697265625e-6` show, and which of them is taken is for the one who asks to say.

## The construction

For a given number of digits only two decimals matter: the two neighbours of the double on the
grid of that many digits. They are tried for one digit, two digits and so on, and the first grid
with a neighbour that reads back decides. Seventeen digits are always enough; the exact expansion
of the double stands behind them, so the search has an answer by construction.
-/

namespace Pebble

/-- The number `digits * 10 ^ exponent`. -/
structure Decimal where
  digits : Nat
  exponent : Int
deriving DecidableEq, Repr

/-- Which of two neighbouring decimals is taken for a number halfway between them. -/
inductive Tie where
  | up
  | even
deriving DecidableEq, Repr

/-- Whether the upper neighbour of `below` is taken. -/
def Tie.takesUpper (tie : Tie) (below : Nat) : Bool :=
  match tie with
  | up => true
  | even => below % 2 == 1

namespace Decimal

open Binary64

/-- Whether `x` is the decimal of the double with bit pattern `bits`. -/
def readsBackTo (x : Decimal) (bits : Nat) : Bool :=
  decimalBits x.digits x.exponent == bits

/-- The exponent of the leading decimal digit of `num / den`, for a ratio that is no negative
power of ten. -/
def leadingExponent (num den : Nat) : Int :=
  if den ≤ num then (Nat.toDigits 10 (num / den)).length - 1
  else -((Nat.toDigits 10 (den / num)).length : Int)

/-- The better of the two neighbours of `num / den` with `n` digits, of those that read back. -/
def neighbour? (tie : Tie) (bits num den n : Nat) : Option Decimal :=
  let shift : Int := n - 1 - leadingExponent num den
  let scaledNum := num * powUp 10 shift
  let scaledDen := den * powDown 10 shift
  let below : Decimal := ⟨scaledNum / scaledDen, -shift⟩
  let above : Decimal := ⟨scaledNum / scaledDen + 1, -shift⟩
  let twice := 2 * (scaledNum % scaledDen)
  let takesAbove := scaledDen < twice || (scaledDen == twice && tie.takesUpper below.digits)
  match below.readsBackTo bits, above.readsBackTo bits with
  | true, true => some (if takesAbove then above else below)
  | true, false => some below
  | false, true => some above
  | false, false => none

/-- Every digit of `m * 2 ^ q`. -/
def exact (m : Nat) (q : Int) : Decimal :=
  ⟨m * powUp 2 q * powDown 5 q, min q 0⟩

/-- The shortest decimal of the magnitude of a finite double. -/
def shortest (tie : Tie) (d : Float) : Decimal :=
  let m := significand d
  let q := Binary64.exponent d
  ((List.range 17).findSome? fun n ↦
    neighbour? tie (magnitude d) (m * powUp 2 q) (powDown 2 q) (n + 1)).getD (exact m q)

end Decimal

end Pebble
