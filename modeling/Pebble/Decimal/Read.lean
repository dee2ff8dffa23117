import Pebble.Decimal.Binary64

/-!
# Reading numbers

The two conversions from text to a number. Neither allows blanks around the number; both allow
one sign in front of it.

- A 32-bit integer is a non-empty run of digits whose value is in range.
- A double is a run of digits with at most one point in it and at least one digit, then
  optionally `e` or `E` and a signed exponent; or one of the words `inf`, `infinity` and `nan`
  in any case. It is rounded to the nearest double.
-/

namespace Pebble.Decimal

/-- The value of a run of digits. -/
def natOfDigits (ds : List Char) : Nat :=
  ds.foldl (fun n d ↦ 10 * n + (d.toNat - '0'.toNat)) 0

/-- Splits off a sign; `true` means minus. -/
def splitSign : List Char → Bool × List Char
  | '-' :: cs => (true, cs)
  | '+' :: cs => (false, cs)
  | cs => (false, cs)

/-- A non-empty run of digits and nothing else. -/
def readNat? (cs : List Char) : Option Nat :=
  if cs.isEmpty || !cs.all Char.isDigit then none else some (natOfDigits cs)

/-- A digit run with an optional sign. -/
def readInt? (cs : List Char) : Option Int :=
  let (negative, ds) := splitSign cs
  (readNat? ds).map fun n ↦ if negative then -(n : Int) else n

/-- A 32-bit integer. -/
def readInt32? (cs : List Char) : Option Int32 :=
  (readInt? cs).bind fun n ↦
    if Int32.minValue.toInt ≤ n && n ≤ Int32.maxValue.toInt then some (Int32.ofInt n) else none

/-- The exponent part of a double, which may be absent. -/
def readExponent? : List Char → Option Int
  | [] => some 0
  | c :: cs => if c == 'e' || c == 'E' then readInt? cs else none

/-- The words for the doubles that no digits denote. -/
def readWord? (cs : List Char) : Option Float :=
  let word := cs.map Char.toLower
  if word == "inf".toList || word == "infinity".toList then
    some (Binary64.ofMagnitude false Binary64.infinityBits)
  else if word == "nan".toList then some (0.0 / 0.0)
  else none

/-- A double without a sign. -/
def readUnsigned? (negative : Bool) (cs : List Char) : Option Float :=
  let whole := cs.takeWhile Char.isDigit
  let afterWhole := cs.dropWhile Char.isDigit
  let (point, rest) := match afterWhole with
    | '.' :: more => (more.takeWhile Char.isDigit, more.dropWhile Char.isDigit)
    | more => ([], more)
  let ds := whole ++ point
  if ds.isEmpty then none
  else (readExponent? rest).map fun e ↦
    Binary64.ofDecimal negative (natOfDigits ds) (e - point.length)

/-- A double. -/
def readDouble? (cs : List Char) : Option Float :=
  let (negative, body) := splitSign cs
  match readUnsigned? negative body with
  | some d => some d
  | none => (readWord? body).map fun d ↦ if negative then -d else d

end Pebble.Decimal
