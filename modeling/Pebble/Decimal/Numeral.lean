import Pebble.Decimal.Shortest

/-!
# Numerals for doubles

The texts of a double all show the fewest digits that read back. They differ in the last digit of
a double halfway between two decimals, and in layout: for which magnitudes the digits are written
positionally, what a whole number ends in, and how an exponent is marked. A `NumeralStyle` holds
one such choice.
-/

namespace Pebble

/-- One way of writing a double. -/
structure NumeralStyle where
  /-- Which of two equally near decimals is written. -/
  tie : Tie
  /-- Whether a number whose leading digit has this exponent is written without an exponent. -/
  positional : Int → Bool
  /-- Whether a whole number written positionally ends in `.0`. -/
  wholePoint : Bool
  /-- Whether a single digit before an exponent is followed by `.0`. -/
  digitPoint : Bool
  /-- What stands between the digits and a non-negative exponent. -/
  mark : String
  /-- What stands between the digits and the minus of a negative exponent. -/
  markMinus : String
  infinity : String
  nan : String

namespace NumeralStyle

/-- The digits of the whole part, padded with zeros up to the point. -/
def wholePart (ds : List Char) (e : Int) : List Char :=
  if e < 0 then ['0'] else ds.take (e.toNat + 1) ++ List.replicate (e.toNat + 1 - ds.length) '0'

/-- The digits after the point. -/
def fraction (ds : List Char) (e : Int) : List Char :=
  if e < 0 then List.replicate ((-e).toNat - 1) '0' ++ ds else ds.drop (e.toNat + 1)

/-- `ds` written positionally, its first digit having exponent `e`. -/
def plain (style : NumeralStyle) (ds : List Char) (e : Int) : List Char :=
  match fraction ds e with
  | [] => wholePart ds e ++ (if style.wholePoint then ['.', '0'] else [])
  | fs => wholePart ds e ++ '.' :: fs

/-- `ds` written with one digit before the point and the exponent `e` behind. -/
def scientific (style : NumeralStyle) (ds : List Char) (e : Int) : List Char :=
  let digits := match ds with
    | [] => []
    | [d] => d :: (if style.digitPoint then ['.', '0'] else [])
    | d :: ds => d :: '.' :: ds
  digits ++ (if e < 0 then style.markMinus else style.mark).toList ++ Nat.toDigits 10 e.natAbs

/-- The significant digits of a finite double, without zeros at their end, and the exponent of
the first of them. -/
def significant (tie : Tie) (d : Float) : List Char × Int :=
  if Binary64.magnitude d = 0 then (['0'], 0)
  else
    let x := Decimal.shortest tie d
    let ds := Nat.toDigits 10 x.digits
    ((ds.reverse.dropWhile (· == '0')).reverse, x.exponent + ds.length - 1)

/-- The text of a double without its sign. -/
def magnitudeText (style : NumeralStyle) (d : Float) : List Char :=
  if d.isInf then style.infinity.toList
  else
    let (ds, e) := significant style.tie d
    if style.positional e then style.plain ds e else style.scientific ds e

/-- The text of a double. -/
def text (style : NumeralStyle) (d : Float) : String :=
  if d.isNaN then style.nan
  else String.ofList ((if Binary64.isNegative d then ['-'] else []) ++ style.magnitudeText d)

end NumeralStyle

/-- Positional always, and no more than the digits. -/
def NumeralStyle.bare : NumeralStyle where
  tie := .up
  positional _ := true
  wholePoint := false
  digitPoint := false
  mark := "e"
  markMinus := "e-"
  infinity := "inf"
  nan := "NaN"

/-- Doubles in structural texts: positional from `1e-4` up to `1e16`. -/
def NumeralStyle.structural : NumeralStyle :=
  { bare with positional := fun e ↦ -4 ≤ e && e < 16, wholePoint := true }

end Pebble
