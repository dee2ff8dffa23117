import Pebble.Decimal.Read
import Pebble.Text.Blank
import Pebble.Text.Letter
import Pebble.Token

/-!
# Scanning a text into tokens

A scanner holds the characters still to be read and the position of the first of them. One step
skips blanks and reads one token; at the end of the text it reads the end mark, again and again.

## The construction

What a token is depends on the characters alone, not on the position: `scanToken` looks at the
characters that remain and answers how many of them are taken and either the token they form or
what is wrong with them, and at which character. Positions follow from the number of characters
taken. After a failure the scanner stands behind what was taken, so a caller may go on.
-/

namespace Pebble

/-- What can be wrong with the characters of a token. -/
inductive ScanFault where
  | unknownEscape (c : Char)
  | escapeAtEnd
  | newlineInString
  | unclosedString
  | leadingZero
  | missingFraction
  | integerRange (digits : String)
  | loneBang
  | unexpectedChar (c : Char)
deriving DecidableEq

/-- A scanning failure and where it is. -/
structure ScanError where
  pos : Pos
  fault : ScanFault
deriving DecidableEq

/-- What a look at the remaining characters says: how many are taken, and the token they form or
the fault and the offset of the character it is reported at. -/
structure Scan where
  taken : Nat
  outcome : Except (ScanFault × Nat) Token

def ScanFault.message : ScanFault → String
  | unknownEscape c => "unknown escape sequence: \\" ++ c.toString
  | escapeAtEnd => "unexpected EOF in escape sequence"
  | newlineInString => "unterminated string (newline before closing quote)"
  | unclosedString => "unterminated string literal"
  | leadingZero => "leading zero in number"
  | missingFraction => "missing digit after decimal point"
  | integerRange digits => "integer literal out of range: " ++ digits
  | loneBang => "expected '=' after '!'"
  | unexpectedChar c => "unexpected character: '" ++ c.toString ++ "'"

def ScanError.message (e : ScanError) : String :=
  e.pos.text ++ ": " ++ e.fault.message

namespace Scan

/-- The token `t`, formed by the next `n` characters. -/
def token (n : Nat) (t : Token) : Scan :=
  ⟨n, .ok t⟩

/-- A fault at offset `offset`, with `n` characters taken. -/
def fault (n : Nat) (f : ScanFault) (offset : Nat) : Scan :=
  ⟨n, .error (f, offset)⟩

end Scan

/-! ## The kinds of tokens -/

/-- The character an escape stands for. -/
def unescape? : Char → Option Char
  | 'n' => some '\n'
  | 't' => some '\t'
  | 'r' => some '\r'
  | '\\' => some '\\'
  | '"' => some '"'
  | _ => none

/-- The rest of a string after `n` characters of it, whose content so far is `acc` backwards. -/
def scanString (acc : List Char) (n : Nat) : List Char → Scan
  | [] => .fault n .unclosedString 0
  | '"' :: _ => .token (n + 1) (.lit (.str (String.ofList acc.reverse)))
  | ['\\'] => .fault (n + 1) .escapeAtEnd n
  | '\\' :: e :: cs =>
    match unescape? e with
    | some c => scanString (c :: acc) (n + 2) cs
    | none => .fault (n + 1) (.unknownEscape e) n
  | c :: cs =>
    if c = '\n' || c = '\r' then .fault n .newlineInString 0 else scanString (c :: acc) (n + 1) cs

/-- A run of digits as an integer literal. -/
def scanInteger (whole : List Char) : Scan :=
  match Decimal.readInt32? whole with
  | some n => .token whole.length (.lit (.int n))
  | none => .fault whole.length (.integerRange (String.ofList whole)) 0

/-- A number: digits, then a point and digits for a double. Zero does not lead other digits. -/
def scanNumber (cs : List Char) : Scan :=
  match cs with
  | '0' :: d :: _ => if d.isDigit then .fault 0 .leadingZero 0 else unsigned
  | _ => unsigned
where
  unsigned : Scan :=
    let whole := cs.takeWhile Char.isDigit
    match cs.dropWhile Char.isDigit with
    | '.' :: more =>
      match more.takeWhile Char.isDigit with
      | [] => .fault whole.length .missingFraction (whole.length + 1)
      | fraction =>
        let value := Binary64.ofDecimal false (Decimal.natOfDigits (whole ++ fraction))
          (-(fraction.length : Int))
        .token (whole.length + 1 + fraction.length) (.lit (.double value))
    | _ => scanInteger whole

/-- A reserved word or a name. -/
def scanWord (cs : List Char) : Scan :=
  let word := cs.takeWhile Text.isWordChar
  .token word.length (.ofWord (String.ofList word))

/-- A comment runs to the end of its line; its text is trimmed. -/
def scanComment (cs : List Char) : Scan :=
  let line := cs.takeWhile fun c ↦ c ≠ '\n' && c ≠ '\r'
  .token line.length (.comment (String.ofList (Text.trim (line.drop 1))))

/-- Punctuation of one character. -/
def single? : Char → Option Punct
  | '.' => some .dot
  | ',' => some .comma
  | ':' => some .colon
  | '(' => some .lparen
  | ')' => some .rparen
  | '[' => some .lbracket
  | ']' => some .rbracket
  | '\x7b' => some .lbrace
  | '\x7d' => some .rbrace
  | '+' => some .plus
  | '-' => some .minus
  | '*' => some .star
  | '/' => some .slash
  | '=' => some .assign
  | '<' => some .lt
  | '>' => some .gt
  | _ => none

/-- Punctuation of two characters, the second of which is `=`. -/
def double? : Char → Option Punct
  | '=' => some .eq
  | '!' => some .notEq
  | '<' => some .ltEq
  | '>' => some .gtEq
  | _ => none

/-- Punctuation beginning with `c`, the longer sign first. -/
def scanPunct (c : Char) (next : Option Char) : Scan :=
  match (if next = some '=' then double? c else none), single? c with
  | some p, _ => .token 2 (.punct p)
  | none, some p => .token 1 (.punct p)
  | none, none => .fault 1 (if c = '!' then .loneBang else .unexpectedChar c) 0

/-- The token at the front of a text that starts with `c`. -/
def scanToken (c : Char) (cs : List Char) : Scan :=
  if c = '#' then scanComment (c :: cs)
  else if c = '"' then scanString [] 1 cs
  else if c.isDigit then scanNumber (c :: cs)
  else if Text.isLetter c then scanWord (c :: cs)
  else scanPunct c cs.head?

/-! ## The scanner -/

/-- The characters still to be read, and the position of the first of them. -/
structure Scanner where
  rest : List Char
  pos : Pos

namespace Scanner

def ofString (source : String) : Scanner :=
  ⟨source.toList, .start⟩

/-- Moves over the next `n` characters. -/
def skip (s : Scanner) (n : Nat) : Scanner :=
  ⟨s.rest.drop n, s.pos.afterAll (s.rest.take n)⟩

/-- Moves over blanks. -/
def skipBlanks (s : Scanner) : Scanner :=
  s.skip (s.rest.takeWhile Text.isBlank).length

/-- Reads one token, comments included. -/
def next (s : Scanner) : Except ScanError Lexeme × Scanner :=
  let s := s.skipBlanks
  match s.rest with
  | [] => (.ok ⟨.eof, s.pos⟩, s)
  | c :: cs =>
    let scan := scanToken c cs
    let outcome := match scan.outcome with
      | .ok t => .ok ⟨t, s.pos⟩
      | .error (f, offset) => .error ⟨(s.skip offset).pos, f⟩
    (outcome, s.skip scan.taken)

/-- Reads tokens up to the end mark or the first failure, at most `fuel` of them. -/
def lexemesFor : Nat → Scanner → List Lexeme × Option ScanError
  | 0, _ => ([], none)
  | fuel + 1, s =>
    match s.next with
    | (.error e, _) => ([], some e)
    | (.ok l, s') =>
      if l.token = .eof then ([l], none)
      else
        let (ls, e) := lexemesFor fuel s'
        (l :: ls, e)

/-- Reads tokens up to the end mark or the first failure. Every token but the end mark takes a
character, so the length of the text bounds their number. -/
def lexemes (s : Scanner) : List Lexeme × Option ScanError :=
  lexemesFor (s.rest.length + 1) s

/-- The outcomes of the next `n` steps, failures included. -/
def steps : Nat → Scanner → List (Except ScanError Lexeme)
  | 0, _ => []
  | n + 1, s => s.next.1 :: steps n s.next.2

end Scanner

/-! ## Streams of tokens -/

/-- A scanner that is asked for one token after the other, and whether it has stopped. -/
structure TokenStream where
  scanner : Scanner
  done : Bool

namespace TokenStream

def ofString (source : String) : TokenStream :=
  ⟨.ofString source, false⟩

/-- Whether nothing is read behind this outcome: it is a failure or the end mark. -/
def isLast : Except ScanError Lexeme → Bool
  | .error _ => true
  | .ok l => l.token = .eof

/-- The next token or failure, unless the stream has stopped. -/
def next (s : TokenStream) : Option (Except ScanError Lexeme) × TokenStream :=
  if s.done then (none, s)
  else (some s.scanner.next.1, ⟨s.scanner.next.2, isLast s.scanner.next.1⟩)

/-- What a stream answers the next `n` times it is asked. -/
def answers : Nat → TokenStream → List (Option (Except ScanError Lexeme))
  | 0, _ => []
  | n + 1, s => s.next.1 :: answers n s.next.2

end TokenStream

/-- All tokens of a text, ending with the end mark. -/
def tokenize (source : String) : Except ScanError (List Lexeme) :=
  match (Scanner.ofString source).lexemes with
  | (ls, none) => .ok ls
  | (_, some e) => .error e

end Pebble
