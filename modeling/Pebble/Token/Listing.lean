import Pebble.Text.Padding
import Pebble.Text.Quoted
import Pebble.Token

/-!
# Listing tokens

One line per token: its position, its kind in a column of its own, and its text, which is either
its structure (`Ident("x")`) or its spelling. Lines may be coloured by kind.
-/

namespace Pebble

/-- How a listing is laid out. -/
structure ListingStyle where
  /-- Whether lines are coloured. -/
  color : Bool
  /-- Whether spellings are shown in place of structures. -/
  pretty : Bool

def Punct.structureName : Punct → String
  | .dot => "Dot"
  | .comma => "Comma"
  | .colon => "Colon"
  | .lparen => "LParen"
  | .rparen => "RParen"
  | .lbracket => "LBracket"
  | .rbracket => "RBracket"
  | .lbrace => "LBrace"
  | .rbrace => "RBrace"
  | .plus => "Plus"
  | .minus => "Minus"
  | .star => "Star"
  | .slash => "Slash"
  | .assign => "Assign"
  | .eq => "Eq"
  | .notEq => "NotEq"
  | .lt => "Lt"
  | .gt => "Gt"
  | .ltEq => "LtEq"
  | .gtEq => "GtEq"

def Keyword.structureName : Keyword → String
  | .andKw => "And"
  | .orKw => "Or"
  | .notKw => "Not"
  | .structKw => "Struct"
  | .varKw => "Var"
  | .newKw => "New"
  | .returnKw => "Return"
  | .ifKw => "If"
  | .elseKw => "Else"
  | .whileKw => "While"
  | .forKw => "For"
  | .fromKw => "From"
  | .toKw => "To"
  | .voidKw => "Void"
  | .intKw => "IntType"
  | .doubleKw => "DoubleType"
  | .boolKw => "BoolType"
  | .stringKw => "StringType"

namespace Token

/-- The structure of a token. -/
def structureText : Token → String
  | lit (.int n) => "Int(" ++ toString n.toInt ++ ")"
  | lit (.double d) => "Double(" ++ NumeralStyle.structural.text d ++ ")"
  | lit (.str s) => "String(" ++ Text.escaped s ++ ")"
  | lit (.bool b) => "Bool(" ++ boolText b ++ ")"
  | lit .null => "Null"
  | ident name => "Ident(" ++ Text.escaped name ++ ")"
  | punct p => p.structureName
  | keyword k => k.structureName
  | comment text => "Comment(" ++ Text.escaped text ++ ")"
  | eof => "Eof"

/-- The kind of a token, as listings name it. -/
def kind : Token → String
  | comment _ => "COMMENT"
  | eof => "EOF"
  | lit (.int _) => "INT"
  | lit (.double _) => "DOUBLE"
  | lit (.str _) => "STRING"
  | lit (.bool _) => "BOOL"
  | lit .null => "NULL"
  | ident _ => "IDENT"
  | punct p =>
    match p with
    | .lparen | .rparen => "PAREN"
    | .lbracket | .rbracket => "BRACKET"
    | .lbrace | .rbrace => "BRACE"
    | .dot | .comma | .colon => "PUNCT"
    | .plus | .minus | .star | .slash | .assign => "OP"
    | .eq | .notEq | .lt | .gt | .ltEq | .gtEq => "CMP"
  | keyword k =>
    match k with
    | .andKw | .orKw | .notKw => "LOGIC"
    | .voidKw | .intKw | .doubleKw | .boolKw | .stringKw => "TYPE"
    | _ => "KEYWORD"

/-- The terminal code of a token's colour, by its kind. -/
def colorCode (t : Token) : String :=
  match t.kind with
  | "COMMENT" | "EOF" => "\x1b[2m"
  | "STRING" => "\x1b[32m"
  | "INT" | "DOUBLE" | "BOOL" | "NULL" => "\x1b[36m"
  | "IDENT" => "\x1b[33m"
  | "OP" | "CMP" | "LOGIC" => "\x1b[35m"
  | "TYPE" => "\x1b[34m"
  | _ => "\x1b[0m"

/-- The spelling of a token, comments with their mark. -/
def prettyText : Token → String
  | comment text => "# " ++ text
  | t => t.describe

end Token

/-- The line of one token. -/
def Lexeme.line (style : ListingStyle) (l : Lexeme) : String :=
  let color := if style.color then l.token.colorCode else ""
  let reset := if style.color then "\x1b[0m" else ""
  let text := if style.pretty then l.token.prettyText else l.token.structureText
  "[" ++ Text.padZeros 2 l.pos.line ++ ":" ++ Text.padZeros 2 l.pos.col ++ "] " ++ color ++
    Text.padBlanks 8 l.token.kind ++ " " ++ text ++ reset ++ "\n"

/-- A listing of tokens. -/
def listTokens (style : ListingStyle) (ls : List Lexeme) : String :=
  String.join (ls.map (Lexeme.line style))

end Pebble
