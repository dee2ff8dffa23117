import Pebble.Text.Visible

/-!
# Quoted text

Two ways of writing a text between double quotes on one line. The *escaped* form is meant for a
reader: whatever is not visible on its own is spelled by its code point. The *JSON* form escapes
only what JSON forbids inside a string.
-/

namespace Pebble.Text

/-- The digits of `n` in base sixteen, lower case, without leading zeros. -/
def hex (n : Nat) : String :=
  String.ofList (Nat.toDigits 16 n)

/-- How a character is written in the escaped form. -/
def escapeChar (c : Char) : String :=
  if c == '\x00' then "\\0"
  else if c == '\t' then "\\t"
  else if c == '\r' then "\\r"
  else if c == '\n' then "\\n"
  else if c == '"' then "\\\""
  else if c == '\\' then "\\\\"
  else if isVisible c then c.toString
  else "\\u\x7b" ++ hex c.toNat ++ "\x7d"

/-- `s` between quotes, with everything that is not visible spelled out. -/
def escaped (s : String) : String :=
  "\"" ++ String.join (s.toList.map escapeChar) ++ "\""

/-- How a character is written in a JSON string. -/
def jsonChar (c : Char) : String :=
  if c == '"' then "\\\""
  else if c == '\\' then "\\\\"
  else if c == '\x08' then "\\b"
  else if c == '\x0c' then "\\f"
  else if c == '\n' then "\\n"
  else if c == '\r' then "\\r"
  else if c == '\t' then "\\t"
  else if c.toNat < 0x20 then "\\u00" ++ (if c.toNat < 0x10 then "0" else "") ++ hex c.toNat
  else c.toString

/-- `s` as a JSON string. -/
def jsonQuoted (s : String) : String :=
  "\"" ++ String.join (s.toList.map jsonChar) ++ "\""

end Pebble.Text
