import Pebble.Decimal.Numeral
import Pebble.Literal
import Pebble.Pos

/-!
# Tokens

The words of the language: literals, names, punctuation, keywords, comments, and a mark for the
end of the text. Keywords and punctuation have one spelling each, given by a table; reading a
keyword is looking its spelling up.
-/

namespace Pebble

/-- Punctuation and operator signs. -/
inductive Punct where
  | dot | comma | colon
  | lparen | rparen | lbracket | rbracket | lbrace | rbrace
  | plus | minus | star | slash | assign
  | eq | notEq | lt | gt | ltEq | gtEq
deriving DecidableEq, Repr

/-- Reserved words other than the literals `true`, `false` and `null`. -/
inductive Keyword where
  | andKw | orKw | notKw
  | structKw | varKw | newKw | returnKw | ifKw | elseKw | whileKw | forKw | fromKw | toKw
  | voidKw | intKw | doubleKw | boolKw | stringKw
deriving DecidableEq, Repr

/-- A word of the language. -/
inductive Token where
  | lit (value : Literal)
  | ident (name : String)
  | punct (p : Punct)
  | keyword (k : Keyword)
  | comment (text : String)
  | eof
deriving DecidableEq

/-- A token and where it starts. -/
structure Lexeme where
  token : Token
  pos : Pos
deriving DecidableEq

def Punct.spelling : Punct → String
  | .dot => "."
  | .comma => ","
  | .colon => ":"
  | .lparen => "("
  | .rparen => ")"
  | .lbracket => "["
  | .rbracket => "]"
  | .lbrace => "\x7b"
  | .rbrace => "\x7d"
  | .plus => "+"
  | .minus => "-"
  | .star => "*"
  | .slash => "/"
  | .assign => "="
  | .eq => "=="
  | .notEq => "!="
  | .lt => "<"
  | .gt => ">"
  | .ltEq => "<="
  | .gtEq => ">="

namespace Keyword

def all : List Keyword :=
  [.andKw, .orKw, .notKw, .structKw, .varKw, .newKw, .returnKw, .ifKw, .elseKw, .whileKw, .forKw,
    .fromKw, .toKw, .voidKw, .intKw, .doubleKw, .boolKw, .stringKw]

def spelling : Keyword → String
  | andKw => "and"
  | orKw => "or"
  | notKw => "not"
  | structKw => "struct"
  | varKw => "var"
  | newKw => "new"
  | returnKw => "return"
  | ifKw => "if"
  | elseKw => "else"
  | whileKw => "while"
  | forKw => "for"
  | fromKw => "from"
  | toKw => "to"
  | voidKw => "void"
  | intKw => "int"
  | doubleKw => "double"
  | boolKw => "bool"
  | stringKw => "string"

/-- The keyword with this spelling. -/
def ofSpelling? (word : String) : Option Keyword :=
  all.find? (·.spelling == word)

/-- The keywords that name a type of values. -/
def isBaseType : Keyword → Bool
  | intKw | doubleKw | boolKw | stringKw => true
  | _ => false

end Keyword

namespace Token

/-- The token a reserved word stands for. -/
def reserved? (word : String) : Option Token :=
  if word == "true" then some (lit (.bool true))
  else if word == "false" then some (lit (.bool false))
  else if word == "null" then some (lit .null)
  else (Keyword.ofSpelling? word).map keyword

/-- The token of a word: a reserved word, or else a name. -/
def ofWord (word : String) : Token :=
  (reserved? word).getD (ident word)

def isComment : Token → Bool
  | comment _ => true
  | _ => false

def isLiteral : Token → Bool
  | lit _ => true
  | _ => false

def isBaseType : Token → Bool
  | keyword k => k.isBaseType
  | _ => false

/-- The one spelling of a token that has only one, and nothing for the others. -/
def symbol : Token → String
  | punct p => p.spelling
  | keyword k => k.spelling
  | _ => ""

/-- How messages name a token. -/
def describe : Token → String
  | lit (.int n) => toString n.toInt
  | lit (.double d) => NumeralStyle.bare.text d
  | lit (.str s) => "\"" ++ s ++ "\""
  | lit (.bool b) => boolText b
  | lit .null => "null"
  | ident name => name
  | comment _ => "comment"
  | eof => "end of input"
  | t => t.symbol

end Token

/-- A list of tokens without its comments. -/
def dropComments (ls : List Lexeme) : List Lexeme :=
  ls.filter fun l ↦ !l.token.isComment

end Pebble
