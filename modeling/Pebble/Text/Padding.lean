/-!
# Columns

Numbers and words padded to a least width, for lines that stand under each other.
-/

namespace Pebble.Text

/-- The decimal digits of `n`, padded with zeros to `width`. -/
def padZeros (width n : Nat) : String :=
  let ds := Nat.toDigits 10 n
  String.ofList (List.replicate (width - ds.length) '0' ++ ds)

/-- `s`, padded with blanks to `width`. -/
def padBlanks (width : Nat) (s : String) : String :=
  s ++ String.ofList (List.replicate (width - s.length) ' ')

end Pebble.Text
