import Pebble.Syntax
import Pebble.Token

/-!
# Reading programs from tokens

A recursive-descent reader over a list of tokens. A failure says what was expected where, and
what was found; at the end of the tokens it is reported at the last token that was read.

## The construction

Blocks and primary expressions may nest `maxNesting` deep, counted together. The reader for a
block or a primary takes the number of levels still allowed, and what it contains is read with
one level less: that number is what the recursion descends on. The repetitions (operands of an
operator, arguments, statements, fields, branches) go through one loop, `Parser.loop`, in which
every round consumes a token, so that the number of tokens left bounds the rounds.

Operators of one precedence chain to the left over operands of the next higher precedence, down
to primary expressions.
-/

namespace Pebble

/-- How deep blocks and primary expressions may nest. -/
def maxNesting : Nat := 128

/-- What a reader was looking for. -/
inductive Expectation where
  | token (t : Token)
  | structName
  | functionName
  | identifier
  | variableName
  | fieldName
  | loopVariable
  | type
  | definition
  | statement
  | initializer
  | elseBody
  | expression
  | newBrackets
  | newType
deriving DecidableEq

/-- Why tokens do not form a program. -/
inductive ParseFault where
  | unexpected (wanted : Expectation) (found : Option Token)
  | nestingTooDeep
deriving DecidableEq

/-- A parsing failure and where it is. -/
structure ParseError where
  pos : Pos
  fault : ParseFault
deriving DecidableEq

def Expectation.text : Expectation → String
  | token t => "'" ++ t.describe ++ "'"
  | structName => "struct name"
  | functionName => "function name"
  | identifier => "identifier"
  | variableName => "variable name"
  | fieldName => "field name"
  | loopVariable => "loop variable"
  | type => "a type"
  | definition => "'struct' or a function return type"
  | statement => "a statement"
  | initializer => "'=' or ':'"
  | elseBody => "'if' or '\x7b' after 'else'"
  | expression => "an expression"
  | newBrackets => "'(' or '['"
  | newType => "a type after 'new'"

def ParseFault.message : ParseFault → String
  | unexpected wanted found =>
    "expected " ++ wanted.text ++ ", found '" ++ (found.getD .eof).describe ++ "'"
  | nestingTooDeep => "nesting deeper than " ++ toString maxNesting ++ " levels"

def ParseError.message (e : ParseError) : String :=
  e.pos.text ++ ": " ++ e.fault.message

/-- The tokens still to be read, and where the last one read stands. -/
structure Cursor where
  rest : List Lexeme
  last : Option Pos

namespace Cursor

/-- A cursor before the first token. -/
def ofLexemes (ls : List Lexeme) : Cursor :=
  ⟨ls, none⟩

def token? (c : Cursor) : Option Token :=
  c.rest.head?.map (·.token)

/-- Where a failure at the cursor is reported: at the next token, else at the last one read. -/
def pos (c : Cursor) : Pos :=
  (c.rest.head?.map (·.pos)).getD (c.last.getD .start)

/-- Past the next token. -/
def next (c : Cursor) : Cursor :=
  match c.rest with
  | [] => c
  | l :: ls => ⟨ls, some l.pos⟩

end Cursor

/-- A reader of tokens. -/
abbrev Parser (α : Type) := StateT Cursor (Except ParseError) α

namespace Parser

def peek : Parser (Option Token) := do
  return (← get).token?

def here : Parser Pos := do
  return (← get).pos

def advance : Parser Unit :=
  modify Cursor.next

def fail {α : Type} (f : ParseFault) : Parser α := do
  throw ⟨← here, f⟩

/-- Fails at the next token, which is not what was wanted. -/
def unexpected {α : Type} (wanted : Expectation) : Parser α := do
  fail (.unexpected wanted (← peek))

/-- Whether the next token is `t`. -/
def sees (t : Token) : Parser Bool := do
  return (← peek) = some t

/-- Reads the token `t` and answers where it stood. -/
def expect (t : Token) : Parser Pos := do
  if ← sees t then
    let pos ← here
    advance
    return pos
  else unexpected (.token t)

def expectPunct (p : Punct) : Parser Unit := do
  let _ ← expect (.punct p)

/-- Reads a name. -/
def name (wanted : Expectation) : Parser Name := do
  match ← peek with
  | some (.ident text) =>
    let pos ← here
    advance
    return ⟨text, pos⟩
  | _ => unexpected wanted

/-- Repeats `step` while `more` holds of the state and the next token, at most `rounds` times. -/
def loopFor {σ : Type} (more : σ → Option Token → Bool) (step : σ → Parser σ) :
    Nat → σ → Parser σ
  | 0, s => pure s
  | rounds + 1, s => do
    if more s (← peek) then loopFor more step rounds (← step s) else pure s

/-- Repeats `step`, each round of which must consume a token, while `more` holds. -/
def loop {σ : Type} (more : σ → Option Token → Bool) (step : σ → Parser σ) (s : σ) :
    Parser σ := do
  loopFor more step ((← get).rest.length + 1) s

/-- Items with commas between them, up to `close`, which is read too. -/
def commaList {α : Type} (close : Punct) (item : Parser α) : Parser (List α) := do
  if ← sees (.punct close) then
    advance
    return []
  let first ← item
  let items ← loop (fun _ t ↦ t = some (.punct .comma))
    (fun items ↦ do
      advance
      return (← item) :: items)
    [first]
  expectPunct close
  return items.reverse

/-! ## Types -/

/-- The name of a type of values. -/
def typeName : Parser TypeName := do
  let found ← match ← peek with
    | some (.keyword .intKw) => pure TypeName.int
    | some (.keyword .doubleKw) => pure .double
    | some (.keyword .boolKw) => pure .bool
    | some (.keyword .stringKw) => pure .string
    | some (.ident name) => pure (.struct name)
    | _ => unexpected .type
  advance
  return found

/-- A type name, or one in brackets for an array. -/
def typeRef : Parser TypeRef := do
  let pos ← here
  if ← sees (.punct .lbracket) then
    advance
    let elem ← typeName
    expectPunct .rbracket
    return ⟨elem, true, pos⟩
  else
    return ⟨← typeName, false, pos⟩

/-- `name: type`. -/
def varDef : Parser VarDef := do
  let x ← name .identifier
  expectPunct .colon
  return ⟨x, ← typeRef⟩

/-! ## Expressions -/

/-- The operator a token stands for between two operands. -/
def binOp? : Token → Option BinOp
  | .punct .plus => some .add
  | .punct .minus => some .sub
  | .punct .star => some .mul
  | .punct .slash => some .div
  | .keyword .andKw => some .and
  | .keyword .orKw => some .or
  | .punct .eq => some .eq
  | .punct .notEq => some .ne
  | .punct .lt => some .lt
  | .punct .ltEq => some .le
  | .punct .gt => some .gt
  | .punct .gtEq => some .ge
  | _ => none

/-- The next token as an operator of precedence `p`. -/
def opAt? (p : Nat) (t : Option Token) : Option BinOp :=
  (t.bind binOp?).filter (·.precedence == p)

/-- Operands joined by operators of precedence `p`, from the left. -/
def chain (p : Nat) (operand : Parser Expr) : Parser Expr := do
  let first ← operand
  loop (fun _ t ↦ (opAt? p t).isSome)
    (fun lhs ↦ do
      match opAt? p (← peek) with
      | none => return lhs
      | some op =>
        let pos ← here
        advance
        return .binary op pos lhs (← operand))
    first

/-- An expression over the given primaries: one chain per precedence, the loosest outermost. -/
def expression (primary : Parser Expr) : Parser Expr :=
  (List.range (BinOp.maxPrecedence + 1)).foldr chain primary

/-- Arguments in parentheses. -/
def arguments (expr : Parser Expr) : Parser (List Expr) := do
  expectPunct .lparen
  commaList .rparen expr

/-- An expression in brackets. -/
def bracketed (expr : Parser Expr) : Parser Expr := do
  expectPunct .lbracket
  let e ← expr
  expectPunct .rbracket
  return e

/-- The index behind a name, if there is one. -/
def index? (expr : Parser Expr) : Parser (Option Expr) := do
  if ← sees (.punct .lbracket) then
    return some (← bracketed expr)
  else return none

/-- The rest of a path whose first name has been read. -/
def pathFrom (expr : Parser Expr) (x : Name) : Parser Path := do
  let root := Path.root x (← index? expr)
  loop (fun _ t ↦ t = some (.punct .dot))
    (fun base ↦ do
      advance
      let x ← name .fieldName
      return .field base x (← index? expr))
    root

/-- What follows `new`: a struct with its arguments, or an array with its size. -/
def newObject (expr : Parser Expr) : Parser Expr := do
  let pos ← here
  match ← peek with
  | some (.ident _) =>
    let x ← name .structName
    if ← sees (.punct .lparen) then
      return .newStruct x (← arguments expr)
    else if ← sees (.punct .lbracket) then
      return .newArray ⟨.struct x.text, false, pos⟩ (← bracketed expr)
    else unexpected .newBrackets
  | some t =>
    if t.isBaseType then
      let elem ← typeName
      return .newArray ⟨elem, false, pos⟩ (← bracketed expr)
    else unexpected .newType
  | none => unexpected .newType

/-- An expression without operators and parentheses at its root. -/
def basic (expr : Parser Expr) : Parser Expr := do
  let pos ← here
  match ← peek with
  | some (.lit value) =>
    advance
    return .lit value pos
  | some (.keyword .newKw) =>
    advance
    newObject expr
  | some (.ident _) =>
    let x ← name .identifier
    if ← sees (.punct .lparen) then
      return .call x (← arguments expr)
    else
      return .path (← pathFrom expr x)
  | _ => unexpected .expression

/-- A primary expression, with this many levels of nesting still allowed. -/
def primaryWithin : Nat → Parser Expr
  | 0 => fail .nestingTooDeep
  | levels + 1 => do
    match ← peek with
    | some (.punct .lparen) =>
      advance
      let e ← expression (primaryWithin levels)
      expectPunct .rparen
      return e
    | some (.keyword .notKw) =>
      let pos ← here
      advance
      return .not pos (← primaryWithin levels)
    | _ => basic (expression (primaryWithin levels))

/-- An expression, with this many levels of nesting still allowed. -/
def exprWithin (levels : Nat) : Parser Expr :=
  expression (primaryWithin levels)

/-! ## Statements -/

/-- `var` with a type, a value or both. -/
def varStmt (expr : Parser Expr) : Parser Stmt := do
  advance
  let x ← name .variableName
  if ← sees (.punct .assign) then
    advance
    return .var x none (some (← expr))
  else if ← sees (.punct .colon) then
    advance
    let type ← typeRef
    if ← sees (.punct .assign) then
      advance
      return .var x (some type) (some (← expr))
    else
      return .var x (some type) none
  else unexpected .initializer

def whileStmt (expr : Parser Expr) (block : Parser (List Stmt)) : Parser Stmt := do
  advance
  let cond ← expr
  return .whileLoop cond (← block)

def forStmt (expr : Parser Expr) (block : Parser (List Stmt)) : Parser Stmt := do
  advance
  let x ← name .loopVariable
  let _ ← expect (.keyword .fromKw)
  let first ← expr
  let _ ← expect (.keyword .toKw)
  let last ← expr
  return .forLoop x first last (← block)

/-- The branches read after the first one, backwards, and the last block. -/
abbrev Branches := List (Expr × List Stmt) × Option (List Stmt)

/-- `else` and what follows it. -/
def elseBranch (expr : Parser Expr) (block : Parser (List Stmt)) (read : Branches) :
    Parser Branches := do
  advance
  if ← sees (.punct .lbrace) then
    return (read.1, some (← block))
  else if ← sees (.keyword .ifKw) then
    advance
    let cond ← expr
    return ((cond, ← block) :: read.1, none)
  else unexpected .elseBody

def ifStmt (expr : Parser Expr) (block : Parser (List Stmt)) : Parser Stmt := do
  advance
  let cond ← expr
  let body ← block
  let others ← loop (fun read t ↦ read.2.isNone && t = some (.keyword .elseKw))
    (elseBranch expr block) ([], none)
  return .ifElse cond body (.ofBranches others.1.reverse others.2)

/-- A call, or an assignment to a path. -/
def nameStmt (expr : Parser Expr) : Parser Stmt := do
  let x ← name .variableName
  if ← sees (.punct .lparen) then
    return .call x (← arguments expr)
  else
    let target ← pathFrom expr x
    expectPunct .assign
    return .assign target (← expr)

def stmt (expr : Parser Expr) (block : Parser (List Stmt)) : Parser Stmt := do
  match ← peek with
  | some (.keyword .varKw) => varStmt expr
  | some (.keyword .whileKw) => whileStmt expr block
  | some (.keyword .ifKw) => ifStmt expr block
  | some (.keyword .forKw) => forStmt expr block
  | some (.keyword .returnKw) =>
    let pos ← here
    advance
    return .ret pos (← expr)
  | some (.ident _) => nameStmt expr
  | _ => unexpected .statement

/-- Statements in braces. -/
def braced (stmt : Parser Stmt) : Parser (List Stmt) := do
  expectPunct .lbrace
  let stmts ← loop (fun _ t ↦ t ≠ some (.punct .rbrace))
    (fun stmts ↦ do
      if (← peek).getD .eof = .eof then unexpected (.token (.punct .rbrace))
      else return (← stmt) :: stmts)
    []
  expectPunct .rbrace
  return stmts.reverse

/-- A block, with this many levels of nesting still allowed. -/
def blockWithin : Nat → Parser (List Stmt)
  | 0 => fail .nestingTooDeep
  | levels + 1 => braced (stmt (exprWithin levels) (blockWithin levels))

/-! ## Definitions -/

def structDef : Parser StructDef := do
  advance
  let x ← name .structName
  expectPunct .lbrace
  return ⟨x, ← commaList .rbrace varDef⟩

/-- The return type of a function. What is no type here could have been any definition. -/
def returnType : Parser TypeRef := do
  if ← sees (.keyword .voidKw) then
    let pos ← expect (.keyword .voidKw)
    return ⟨.void, false, pos⟩
  else
    try typeRef
    catch
      | ⟨pos, .unexpected _ found⟩ => throw ⟨pos, .unexpected .definition found⟩
      | e => throw e

def funDef : Parser FunDef := do
  let type ← returnType
  let x ← name .functionName
  expectPunct .lparen
  let params ← commaList .rparen varDef
  return ⟨x, type, params, ← blockWithin maxNesting⟩

/-- Definitions up to the end mark or the end of the tokens. -/
def program : Parser Program := do
  let read ← loop (fun _ t ↦ t.getD .eof ≠ .eof)
    (fun (read : List StructDef × List FunDef) ↦ do
      if ← sees (.keyword .structKw) then
        return ((← structDef) :: read.1, read.2)
      else
        return (read.1, (← funDef) :: read.2))
    ([], [])
  return ⟨read.1.reverse, read.2.reverse⟩

end Parser

/-- Reads a program from tokens; comments among them are ignored. -/
def parse (ls : List Lexeme) : Except ParseError Program :=
  (Parser.program.run (.ofLexemes (dropComments ls))).map (·.1)

/-- Reads an expression from the front of a list of tokens. -/
def parseExpr (ls : List Lexeme) : Except ParseError Expr :=
  ((Parser.exprWithin maxNesting).run (.ofLexemes (dropComments ls))).map (·.1)

end Pebble
