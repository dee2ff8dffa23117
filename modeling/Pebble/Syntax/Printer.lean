import Pebble.Decimal.Numeral
import Pebble.Syntax

/-!
# Programs as text

Prints a tree as source text with two blanks of indentation per level. Operands get parentheses
only where the tree would otherwise be read differently. The language has no negative literals,
so a negative number, which only folding produces, is printed as a difference in parentheses.
-/

namespace Pebble

/-- Doubles in source text: always positional, with a digit after the point. -/
def NumeralStyle.source : NumeralStyle :=
  { bare with wholePoint := true }

/-- How a character is written inside a string literal. -/
def sourceChar : Char → String
  | '\n' => "\\n"
  | '\t' => "\\t"
  | '\r' => "\\r"
  | '\\' => "\\\\"
  | '"' => "\\\""
  | c => c.toString

/-- A double as source text, its sign apart. -/
def sourceMagnitude (d : Float) : String :=
  String.ofList (NumeralStyle.source.magnitudeText d)

/-- A literal as source text. -/
def Literal.sourceText : Literal → String
  | int n =>
    if n = Int32.minValue then "(0 - 2147483647 - 1)"
    else if n < 0 then "(0 - " ++ toString n.toInt.natAbs ++ ")"
    else toString n.toInt
  | double d =>
    if d.isNaN then "(0.0 / 0.0)"
    else if d.isInf then if 0.0 < d then "(1.0 / 0.0)" else "(0.0 - 1.0 / 0.0)"
    else if d < 0.0 then "(0.0 - " ++ sourceMagnitude d ++ ")"
    else sourceMagnitude d
  | bool b => boolText b
  | str s => "\"" ++ String.join (s.toList.map sourceChar) ++ "\""
  | null => "null"

/-- `s`, in parentheses if asked for. -/
def parenthesized (yes : Bool) (s : String) : String :=
  if yes then "(" ++ s ++ ")" else s

/-- Whether an operand must be parenthesized where only operators of at least this precedence
may stand bare. -/
def Expr.isLooserThan (minimum : Nat) : Expr → Bool
  | binary op _ _ _ => op.precedence < minimum
  | _ => false

mutual

/-- An expression as source text. -/
def Expr.text : Expr → String
  | .lit value _ => value.sourceText
  | .path p => p.text
  | .call callee args => callee.text ++ "(" ++ argsText args ++ ")"
  | .newStruct name args => "new " ++ name.text ++ "(" ++ argsText args ++ ")"
  | .newArray elem size => "new " ++ elem.name.text ++ "[" ++ size.text ++ "]"
  | .not _ operand => "not " ++ parenthesized operand.isOperation operand.text
  | .binary op _ lhs rhs =>
    parenthesized (lhs.isLooserThan op.precedence) lhs.text ++ " " ++ op.symbol ++ " " ++
      parenthesized (rhs.isLooserThan (op.precedence + 1)) rhs.text

/-- A path as source text. -/
def Path.text : Path → String
  | .root name index => name.text ++ indexText index
  | .field base name index => base.text ++ "." ++ name.text ++ indexText index

/-- An index in brackets, if there is one. -/
def indexText : Option Expr → String
  | none => ""
  | some index => "[" ++ index.text ++ "]"

/-- Arguments, with commas between them. -/
def argsText : List Expr → String
  | [] => ""
  | [arg] => arg.text
  | arg :: args => arg.text ++ ", " ++ argsText args

end

/-- A line at a depth of indentation. -/
def indentedLine (depth : Nat) (s : String) : String :=
  String.ofList (List.replicate (2 * depth) ' ') ++ s ++ "\n"

/-- The text of a `var` statement. -/
def varText (name : Name) (type : Option TypeRef) (init : Option Expr) : String :=
  let typePart := match type with
    | none => ""
    | some t => ": " ++ t.text
  let initPart := match init with
    | none => ""
    | some e => " = " ++ e.text
  "var " ++ name.text ++ typePart ++ initPart

mutual

/-- A statement as lines of source text. -/
def Stmt.textAt (depth : Nat) : Stmt → String
  | .var name type init => indentedLine depth (varText name type init)
  | .assign target value => indentedLine depth (target.text ++ " = " ++ value.text)
  | .ret _ value => indentedLine depth ("return " ++ value.text)
  | .whileLoop cond body =>
    indentedLine depth ("while " ++ cond.text ++ " \x7b") ++ blockTextAt (depth + 1) body ++
      indentedLine depth "\x7d"
  | .forLoop var first last body =>
    indentedLine depth
        ("for " ++ var.text ++ " from " ++ first.text ++ " to " ++ last.text ++ " \x7b") ++
      blockTextAt (depth + 1) body ++ indentedLine depth "\x7d"
  | .ifElse cond body other =>
    indentedLine depth ("if " ++ cond.text ++ " \x7b") ++ blockTextAt (depth + 1) body ++
      other.textAt depth
  | .call callee args => indentedLine depth (callee.text ++ "(" ++ argsText args ++ ")")

/-- The rest of an `if` after a branch, up to its closing brace. -/
def Else.textAt (depth : Nat) : Else → String
  | .none => indentedLine depth "\x7d"
  | .block body =>
    indentedLine depth "\x7d else \x7b" ++ blockTextAt (depth + 1) body ++
      indentedLine depth "\x7d"
  | .elseIf cond body other =>
    indentedLine depth ("\x7d else if " ++ cond.text ++ " \x7b") ++
      blockTextAt (depth + 1) body ++ other.textAt depth

/-- Statements one after the other. -/
def blockTextAt (depth : Nat) : List Stmt → String
  | [] => ""
  | stmt :: stmts => stmt.textAt depth ++ blockTextAt depth stmts

end

def VarDef.text (v : VarDef) : String :=
  v.name.text ++ ": " ++ v.type.text

/-- Fields one to a line, with commas between them. -/
def fieldsText : List VarDef → String
  | [] => ""
  | [field] => indentedLine 1 field.text
  | field :: fields => indentedLine 1 (field.text ++ ",") ++ fieldsText fields

def StructDef.text (s : StructDef) : String :=
  indentedLine 0 ("struct " ++ s.name.text ++ " \x7b") ++ fieldsText s.fields ++
    indentedLine 0 "\x7d"

def FunDef.text (f : FunDef) : String :=
  let params := ", ".intercalate (f.params.map VarDef.text)
  indentedLine 0 (f.returnType.text ++ " " ++ f.name.text ++ "(" ++ params ++ ") \x7b") ++
    blockTextAt 1 f.body ++ indentedLine 0 "\x7d"

/-- A program as source text, with an empty line between definitions. -/
def Program.text (p : Program) : String :=
  "\n".intercalate (p.structs.map StructDef.text ++ p.functions.map FunDef.text)

end Pebble
