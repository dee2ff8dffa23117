import Mathlib.Tactic.Common
import Pebble.Syntax.Parser

/-!
# Derivations

The grammar of programs, one type of derivations per rule. A derivation holds the tokens it
derives as the names, literals and types they stand for and the positions of all others, so that
`tokens` can write them out again. Its `tree` is the tree it stands for, its `depth` how deep blocks
and primaries nest in it, counted together.

The two levels of the grammar that need care are these.

* An expression is indexed by the precedence its root operator must at least have. A binary
  operator takes operands of its own precedence on the left and of the next one on the right: that
  is what binding tighter and grouping from the left mean.
* What follows `else` is a block or another `if`, which is a derivation of its own; its tree is one
  more branch of the first `if`.
-/

namespace Pebble

/-- The token that names a type. -/
def TypeName.token : TypeName → Token
  | .int => .keyword .intKw
  | .double => .keyword .doubleKw
  | .bool => .keyword .boolKw
  | .string => .keyword .stringKw
  | .void => .keyword .voidKw
  | .struct name => .ident name

/-- The token an operator is written as. -/
def BinOp.token : BinOp → Token
  | .add => .punct .plus
  | .sub => .punct .minus
  | .mul => .punct .star
  | .div => .punct .slash
  | .and => .keyword .andKw
  | .or => .keyword .orKw
  | .eq => .punct .eq
  | .ne => .punct .notEq
  | .lt => .punct .lt
  | .le => .punct .ltEq
  | .gt => .punct .gt
  | .ge => .punct .gtEq

theorem Parser.binOp?_eq_some {t : Token} {op : BinOp} : binOp? t = some op ↔ t = op.token := by
  constructor
  · intro h
    unfold binOp? at h
    split at h <;> cases h <;> rfl
  · rintro rfl
    cases op <;> rfl

theorem Parser.opAt?_eq_some {p : Nat} {t : Option Token} {op : BinOp} :
    opAt? p t = some op ↔ t = some op.token ∧ op.precedence = p := by
  rw [opAt?, Option.filter_eq_some_iff, Option.bind_eq_some_iff, beq_iff_eq]
  simp [binOp?_eq_some]

theorem BinOp.precedence_le (op : BinOp) : op.precedence ≤ maxPrecedence := by
  cases op <;> decide

theorem Else.ofBranches_eq (branches : List (Expr × List Stmt)) (last : Option (List Stmt)) :
    Else.ofBranches branches last =
      branches.foldr (fun b other ↦ .elseIf b.1 b.2 other) (last.elim .none .block) := by
  induction branches with
  | nil => cases last <;> rfl
  | cons b branches ih => rw [Else.ofBranches, ih, List.foldr_cons]

/-- The token of a name. -/
def Name.lexeme (x : Name) : Lexeme :=
  ⟨.ident x.text, x.pos⟩

namespace Derivation

/-! ## Lists with commas -/

/-- What follows an item of a list: the closing sign, or a comma and another item. -/
inductive Items (δ : Type) where
  | close (pos : Pos)
  | comma (pos : Pos) (item : δ) (rest : Items δ)

/-- Items with commas between them and a closing sign. -/
inductive Listing (δ : Type) where
  | empty (close : Pos)
  | items (first : δ) (rest : Items δ)

section Lists
variable {δ : Type}

def Items.toList : Items δ → List δ
  | .close _ => []
  | .comma _ item rest => item :: rest.toList

/-- Where the closing sign stands. -/
def Items.last : Items δ → Pos
  | .close pos => pos
  | .comma _ _ rest => rest.last

def Listing.toList : Listing δ → List δ
  | .empty _ => []
  | .items first rest => first :: rest.toList

variable (close : Punct) (ofItem : δ → List Lexeme)

def Items.tokens : Items δ → List Lexeme
  | .close pos => [⟨.punct close, pos⟩]
  | .comma pos item rest => ⟨.punct .comma, pos⟩ :: (ofItem item ++ rest.tokens)

def Listing.tokens : Listing δ → List Lexeme
  | .empty pos => [⟨.punct close, pos⟩]
  | .items first rest => ofItem first ++ rest.tokens close ofItem

end Lists

/-! ## Types -/

/-- The name of a type that values have. -/
abbrev ValueType := {t : TypeName // t ≠ .void}

/-- A type name, or one in brackets for an array. -/
inductive DataType where
  | plain (name : ValueType) (pos : Pos)
  | array (lbracket : Pos) (elem : ValueType) (pos rbracket : Pos)

def DataType.tokens : DataType → List Lexeme
  | .plain name pos => [⟨name.val.token, pos⟩]
  | .array lbracket elem pos rbracket =>
    [⟨.punct .lbracket, lbracket⟩, ⟨elem.val.token, pos⟩, ⟨.punct .rbracket, rbracket⟩]

def DataType.tree : DataType → TypeRef
  | .plain name pos => ⟨name.val, false, pos⟩
  | .array lbracket elem _ _ => ⟨elem.val, true, lbracket⟩

/-- `name: type`. -/
structure Field where
  name : Name
  colon : Pos
  type : DataType

def Field.tokens (f : Field) : List Lexeme :=
  f.name.lexeme :: ⟨.punct .colon, f.colon⟩ :: f.type.tokens

def Field.tree (f : Field) : VarDef :=
  ⟨f.name, f.type.tree⟩

/-! ## Expressions -/

mutual

/-- A primary expression. -/
inductive Primary where
  | lit (value : Literal) (pos : Pos)
  | path (p : Path)
  | call (callee : Name) (lparen : Pos) (args : Listing (Expr 0))
  | newStruct (kw : Pos) (name : Name) (lparen : Pos) (args : Listing (Expr 0))
  | newArray (kw : Pos) (elem : ValueType) (pos lbracket : Pos) (size : Expr 0) (rbracket : Pos)
  | not (kw : Pos) (operand : Primary)
  | paren (lparen : Pos) (e : Expr 0) (rparen : Pos)

/-- An expression whose root operator, if it has one, binds at least as tightly as `n`. -/
inductive Expr : Nat → Type where
  | primary {n : Nat} (d : Primary) : Expr n
  | binary {n : Nat} (op : BinOp) (h : n ≤ op.precedence) (pos : Pos) (lhs : Expr op.precedence)
      (rhs : Expr (op.precedence + 1)) : Expr n

/-- A variable, or a field of a path, with at most one index. -/
inductive Path where
  | root (name : Name) (index : Index)
  | field (base : Path) (dot : Pos) (name : Name) (index : Index)

/-- An index in brackets, or none. -/
inductive Index where
  | none
  | some (lbracket : Pos) (e : Expr 0) (rbracket : Pos)

end

mutual

def Primary.tokens : Primary → List Lexeme
  | .lit value pos => [⟨.lit value, pos⟩]
  | .path p => p.tokens
  | .call callee lparen args => callee.lexeme :: ⟨.punct .lparen, lparen⟩ :: argsTokens args
  | .newStruct kw name lparen args =>
    ⟨.keyword .newKw, kw⟩ :: name.lexeme :: ⟨.punct .lparen, lparen⟩ :: argsTokens args
  | .newArray kw elem pos lbracket size rbracket =>
    ⟨.keyword .newKw, kw⟩ :: ⟨elem.val.token, pos⟩ :: ⟨.punct .lbracket, lbracket⟩ ::
      (size.tokens ++ [⟨.punct .rbracket, rbracket⟩])
  | .not kw operand => ⟨.keyword .notKw, kw⟩ :: operand.tokens
  | .paren lparen e rparen =>
    ⟨.punct .lparen, lparen⟩ :: (e.tokens ++ [⟨.punct .rparen, rparen⟩])

def Expr.tokens : {n : Nat} → Expr n → List Lexeme
  | _, .primary d => d.tokens
  | _, .binary op _ pos lhs rhs => lhs.tokens ++ ⟨op.token, pos⟩ :: rhs.tokens

def Path.tokens : Path → List Lexeme
  | .root name index => name.lexeme :: index.tokens
  | .field base dot name index =>
    base.tokens ++ ⟨.punct .dot, dot⟩ :: name.lexeme :: index.tokens

def Index.tokens : Index → List Lexeme
  | .none => []
  | .some lbracket e rbracket =>
    ⟨.punct .lbracket, lbracket⟩ :: (e.tokens ++ [⟨.punct .rbracket, rbracket⟩])

def argsTokens : Listing (Expr 0) → List Lexeme
  | .empty rparen => [⟨.punct .rparen, rparen⟩]
  | .items first rest => first.tokens ++ argsRestTokens rest

def argsRestTokens : Items (Expr 0) → List Lexeme
  | .close rparen => [⟨.punct .rparen, rparen⟩]
  | .comma pos e rest => ⟨.punct .comma, pos⟩ :: (e.tokens ++ argsRestTokens rest)

end

mutual

def Primary.tree : Primary → Pebble.Expr
  | .lit value pos => .lit value pos
  | .path p => .path p.tree
  | .call callee _ args => .call callee (argsTree args)
  | .newStruct _ name _ args => .newStruct name (argsTree args)
  | .newArray _ elem pos _ size _ => .newArray ⟨elem.val, false, pos⟩ size.tree
  | .not kw operand => .not kw operand.tree
  | .paren _ e _ => e.tree

def Expr.tree : {n : Nat} → Expr n → Pebble.Expr
  | _, .primary d => d.tree
  | _, .binary op _ pos lhs rhs => .binary op pos lhs.tree rhs.tree

def Path.tree : Path → Pebble.Path
  | .root name index => .root name index.tree
  | .field base _ name index => .field base.tree name index.tree

def Index.tree : Index → Option Pebble.Expr
  | .none => Option.none
  | .some _ e _ => Option.some e.tree

def argsTree : Listing (Expr 0) → List Pebble.Expr
  | .empty _ => []
  | .items first rest => first.tree :: argsRestTree rest

def argsRestTree : Items (Expr 0) → List Pebble.Expr
  | .close _ => []
  | .comma _ e rest => e.tree :: argsRestTree rest

end

mutual

def Primary.depth : Primary → Nat
  | .lit _ _ => 1
  | .path p => p.depth + 1
  | .call _ _ args => argsDepth args + 1
  | .newStruct _ _ _ args => argsDepth args + 1
  | .newArray _ _ _ _ size _ => size.depth + 1
  | .not _ operand => operand.depth + 1
  | .paren _ e _ => e.depth + 1

def Expr.depth : {n : Nat} → Expr n → Nat
  | _, .primary d => d.depth
  | _, .binary _ _ _ lhs rhs => max lhs.depth rhs.depth

def Path.depth : Path → Nat
  | .root _ index => index.depth
  | .field base _ _ index => max base.depth index.depth

def Index.depth : Index → Nat
  | .none => 0
  | .some _ e _ => e.depth

def argsDepth : Listing (Expr 0) → Nat
  | .empty _ => 0
  | .items first rest => max first.depth (argsRestDepth rest)

def argsRestDepth : Items (Expr 0) → Nat
  | .close _ => 0
  | .comma _ e rest => max e.depth (argsRestDepth rest)

end

namespace Expr

variable {m n : Nat}

/-- What binds tightly enough also binds tightly enough for less. -/
def weaken (h : n ≤ m) : Expr m → Expr n
  | .primary d => .primary d
  | .binary op hop pos lhs rhs => .binary op (Nat.le_trans h hop) pos lhs rhs

variable {h : n ≤ m} {e : Expr m}

@[simp] theorem tokens_weaken : (e.weaken h).tokens = e.tokens := by
  cases e <;> simp only [weaken, tokens]

@[simp] theorem tree_weaken : (e.weaken h).tree = e.tree := by
  cases e <;> simp only [weaken, tree]

@[simp] theorem depth_weaken : (e.weaken h).depth = e.depth := by
  cases e <;> simp only [weaken, depth]

end Expr

section
variable {n : Nat}

theorem argsRestTokens_eq : (rest : Items (Expr 0)) →
    argsRestTokens rest = rest.tokens .rparen Expr.tokens
  | .close _ => rfl
  | .comma _ e rest => by rw [argsRestTokens, argsRestTokens_eq rest, Items.tokens]

theorem argsTokens_eq (args : Listing (Expr 0)) :
    argsTokens args = args.tokens .rparen Expr.tokens := by
  cases args with
  | empty => rfl
  | items first rest => rw [argsTokens, argsRestTokens_eq, Listing.tokens]

theorem argsRestTree_eq : (rest : Items (Expr 0)) → argsRestTree rest = rest.toList.map Expr.tree
  | .close _ => rfl
  | .comma _ e rest => by rw [argsRestTree, argsRestTree_eq rest, Items.toList, List.map_cons]

theorem argsTree_eq (args : Listing (Expr 0)) : argsTree args = args.toList.map Expr.tree := by
  cases args with
  | empty => rfl
  | items first rest => rw [argsTree, argsRestTree_eq, Listing.toList, List.map_cons]

theorem argsRestDepth_le_iff : (rest : Items (Expr 0)) →
    (argsRestDepth rest ≤ n ↔ ∀ e ∈ rest.toList, e.depth ≤ n)
  | .close _ => by simp [argsRestDepth, Items.toList]
  | .comma _ e rest => by
    rw [argsRestDepth, Nat.max_le, argsRestDepth_le_iff rest, Items.toList, List.forall_mem_cons]

theorem argsRestDepth_eq : (rest : Items (Expr 0)) →
    argsRestDepth rest = (rest.toList.map Expr.depth).foldr max 0
  | .close _ => rfl
  | .comma _ e rest => by
    rw [argsRestDepth, argsRestDepth_eq rest, Items.toList, List.map_cons, List.foldr_cons]

theorem argsDepth_eq (args : Listing (Expr 0)) :
    argsDepth args = (args.toList.map Expr.depth).foldr max 0 := by
  cases args with
  | empty => rfl
  | items first rest =>
    rw [argsDepth, argsRestDepth_eq, Listing.toList, List.map_cons, List.foldr_cons]

theorem argsDepth_le_iff (args : Listing (Expr 0)) :
    argsDepth args ≤ n ↔ ∀ e ∈ args.toList, e.depth ≤ n := by
  cases args with
  | empty => simp [argsDepth, Listing.toList]
  | items first rest =>
    rw [argsDepth, Nat.max_le, argsRestDepth_le_iff, Listing.toList, List.forall_mem_cons]

end

/-! ## Statements -/

/-- What follows the name of a declared variable: a value, a type, or a type and a value. -/
inductive VarInit where
  | value (assign : Pos) (e : Expr 0)
  | typed (colon : Pos) (type : DataType)
  | both (colon : Pos) (type : DataType) (assign : Pos) (e : Expr 0)

mutual

/-- A statement. -/
inductive Stmt where
  | var (kw : Pos) (name : Name) (init : VarInit)
  | assign (target : Path) (sign : Pos) (value : Expr 0)
  | ret (kw : Pos) (value : Expr 0)
  | whileLoop (kw : Pos) (cond : Expr 0) (body : Block)
  | forLoop (kw : Pos) (var : Name) (fromKw : Pos) (first : Expr 0) (toKw : Pos) (last : Expr 0)
      (body : Block)
  | ifElse (branch : If)
  | call (callee : Name) (lparen : Pos) (args : Listing (Expr 0))

/-- An `if` with all that belongs to it. -/
inductive If where
  | mk (kw : Pos) (cond : Expr 0) (body : Block) (other : Else)

/-- What follows a branch of an `if`. -/
inductive Else where
  | none
  | block (kw : Pos) (body : Block)
  | elseIf (kw : Pos) (branch : If)

/-- Statements in braces. -/
inductive Block where
  | mk (lbrace : Pos) (stmts : List Stmt) (rbrace : Pos)

end

namespace VarInit

def tokens : VarInit → List Lexeme
  | .value assign e => ⟨.punct .assign, assign⟩ :: e.tokens
  | .typed colon type => ⟨.punct .colon, colon⟩ :: type.tokens
  | .both colon type assign e =>
    ⟨.punct .colon, colon⟩ :: (type.tokens ++ ⟨.punct .assign, assign⟩ :: e.tokens)

def tree (x : Name) : VarInit → Pebble.Stmt
  | .value _ e => .var x none (some e.tree)
  | .typed _ type => .var x (some type.tree) none
  | .both _ type _ e => .var x (some type.tree) (some e.tree)

def depth : VarInit → Nat
  | .value _ e => e.depth
  | .typed _ _ => 0
  | .both _ _ _ e => e.depth

end VarInit

mutual

def Stmt.tokens : Stmt → List Lexeme
  | .var kw name init => ⟨.keyword .varKw, kw⟩ :: name.lexeme :: init.tokens
  | .assign target sign value => target.tokens ++ ⟨.punct .assign, sign⟩ :: value.tokens
  | .ret kw value => ⟨.keyword .returnKw, kw⟩ :: value.tokens
  | .whileLoop kw cond body => ⟨.keyword .whileKw, kw⟩ :: (cond.tokens ++ body.tokens)
  | .forLoop kw var fromKw first toKw last body =>
    ⟨.keyword .forKw, kw⟩ :: var.lexeme :: ⟨.keyword .fromKw, fromKw⟩ ::
      (first.tokens ++ ⟨.keyword .toKw, toKw⟩ :: (last.tokens ++ body.tokens))
  | .ifElse branch => branch.tokens
  | .call callee lparen args => callee.lexeme :: ⟨.punct .lparen, lparen⟩ :: argsTokens args

def If.tokens : If → List Lexeme
  | .mk kw cond body other =>
    ⟨.keyword .ifKw, kw⟩ :: (cond.tokens ++ (body.tokens ++ other.tokens))

def Else.tokens : Else → List Lexeme
  | .none => []
  | .block kw body => ⟨.keyword .elseKw, kw⟩ :: body.tokens
  | .elseIf kw branch => ⟨.keyword .elseKw, kw⟩ :: branch.tokens

def Block.tokens : Block → List Lexeme
  | .mk lbrace stmts rbrace =>
    ⟨.punct .lbrace, lbrace⟩ :: (stmtsTokens stmts ++ [⟨.punct .rbrace, rbrace⟩])

def stmtsTokens : List Stmt → List Lexeme
  | [] => []
  | s :: ss => s.tokens ++ stmtsTokens ss

end

mutual

def Stmt.tree : Stmt → Pebble.Stmt
  | .var _ name init => init.tree name
  | .assign target _ value => .assign target.tree value.tree
  | .ret kw value => .ret kw value.tree
  | .whileLoop _ cond body => .whileLoop cond.tree body.tree
  | .forLoop _ var _ first _ last body => .forLoop var first.tree last.tree body.tree
  | .ifElse (.mk _ cond body other) => .ifElse cond.tree body.tree other.tree
  | .call callee _ args => .call callee (argsTree args)

/-- Further branches stand in one list, whatever `if` they were derived from. -/
def Else.tree : Else → Pebble.Else
  | .none => .none
  | .block _ body => .block body.tree
  | .elseIf _ (.mk _ cond body other) => .elseIf cond.tree body.tree other.tree

def Block.tree : Block → List Pebble.Stmt
  | .mk _ stmts _ => stmtsTree stmts

def stmtsTree : List Stmt → List Pebble.Stmt
  | [] => []
  | s :: ss => s.tree :: stmtsTree ss

end

mutual

def Stmt.depth : Stmt → Nat
  | .var _ _ init => init.depth
  | .assign target _ value => max target.depth value.depth
  | .ret _ value => value.depth
  | .whileLoop _ cond body => max cond.depth body.depth
  | .forLoop _ _ _ first _ last body => max first.depth (max last.depth body.depth)
  | .ifElse branch => branch.depth
  | .call _ _ args => argsDepth args

def If.depth : If → Nat
  | .mk _ cond body other => max cond.depth (max body.depth other.depth)

def Else.depth : Else → Nat
  | .none => 0
  | .block _ body => body.depth
  | .elseIf _ branch => branch.depth

def Block.depth : Block → Nat
  | .mk _ stmts _ => stmtsDepth stmts + 1

def stmtsDepth : List Stmt → Nat
  | [] => 0
  | s :: ss => max s.depth (stmtsDepth ss)

end

theorem stmtsTokens_eq : (ss : List Stmt) → stmtsTokens ss = ss.flatMap Stmt.tokens
  | [] => rfl
  | s :: ss => by rw [stmtsTokens, stmtsTokens_eq ss, List.flatMap_cons]

theorem stmtsTree_eq : (ss : List Stmt) → stmtsTree ss = ss.map Stmt.tree
  | [] => rfl
  | s :: ss => by rw [stmtsTree, stmtsTree_eq ss, List.map_cons]

theorem stmtsDepth_le_iff {n : Nat} : (ss : List Stmt) →
    (stmtsDepth ss ≤ n ↔ ∀ s ∈ ss, s.depth ≤ n)
  | [] => by simp [stmtsDepth]
  | s :: ss => by rw [stmtsDepth, Nat.max_le, stmtsDepth_le_iff ss, List.forall_mem_cons]

/-! ## Definitions -/

/-- `void`, or a type that values have. -/
inductive ReturnType where
  | void (kw : Pos)
  | value (type : DataType)

def ReturnType.tokens : ReturnType → List Lexeme
  | .void kw => [⟨.keyword .voidKw, kw⟩]
  | .value type => type.tokens

def ReturnType.tree : ReturnType → TypeRef
  | .void kw => ⟨.void, false, kw⟩
  | .value type => type.tree

/-- A struct with its fields. -/
structure Struct where
  kw : Pos
  name : Name
  lbrace : Pos
  fields : Listing Field

/-- A function with its parameters and its body. -/
structure Function where
  returnType : ReturnType
  name : Name
  lparen : Pos
  params : Listing Field
  body : Block

/-- A struct or a function. -/
inductive Definition where
  | struct (d : Struct)
  | function (d : Function)

def Struct.tokens (d : Struct) : List Lexeme :=
  ⟨.keyword .structKw, d.kw⟩ :: d.name.lexeme :: ⟨.punct .lbrace, d.lbrace⟩ ::
    d.fields.tokens .rbrace Field.tokens

def Struct.tree (d : Struct) : StructDef :=
  ⟨d.name, d.fields.toList.map Field.tree⟩

def Function.tokens (d : Function) : List Lexeme :=
  d.returnType.tokens ++ d.name.lexeme :: ⟨.punct .lparen, d.lparen⟩ ::
    (d.params.tokens .rparen Field.tokens ++ d.body.tokens)

def Function.tree (d : Function) : FunDef :=
  ⟨d.name, d.returnType.tree, d.params.toList.map Field.tree, d.body.tree⟩

namespace Definition

def tokens : Definition → List Lexeme
  | .struct d => d.tokens
  | .function d => d.tokens

def depth : Definition → Nat
  | .struct _ => 0
  | .function d => d.body.depth

def struct? : Definition → Option StructDef
  | .struct d => some d.tree
  | .function _ => none

def function? : Definition → Option FunDef
  | .struct _ => none
  | .function d => some d.tree

end Definition

/-- Definitions in any order. -/
structure Program where
  definitions : List Definition

namespace Program

def tokens (d : Program) : List Lexeme :=
  d.definitions.flatMap Definition.tokens

/-- Structs and functions are kept apart, each in the order in which they stand. -/
def tree (d : Program) : Pebble.Program :=
  ⟨d.definitions.filterMap Definition.struct?, d.definitions.filterMap Definition.function?⟩

def depth (d : Program) : Nat :=
  (d.definitions.map Definition.depth).foldr max 0

theorem depth_le_iff {n : Nat} {d : Program} :
    d.depth ≤ n ↔ ∀ x ∈ d.definitions, x.depth ≤ n := by
  obtain ⟨ds⟩ := d
  rw [depth]
  induction ds with
  | nil => simp
  | cons x ds ih => simp only [List.map_cons, List.foldr_cons, Nat.max_le, ih,
      List.forall_mem_cons]

end Program

/-! ## Where derivations begin and end -/

/-- The token at the front of a list. -/
def front (ls : List Lexeme) : Option Token :=
  ls.head?.map (·.token)

@[simp] theorem front_cons (l : Lexeme) (ls : List Lexeme) : front (l :: ls) = some l.token := rfl

/-- The tokens an expression can begin with. -/
def startsExpr : Token → Bool
  | .lit _ | .ident _ | .keyword .newKw | .keyword .notKw | .punct .lparen => true
  | _ => false

/-- The tokens a statement can begin with. -/
def startsStmt : Token → Bool
  | .ident _ | .keyword .varKw | .keyword .whileKw | .keyword .ifKw | .keyword .forKw
  | .keyword .returnKw => true
  | _ => false

/-- The tokens that can follow a part of an expression inside it, other than closing brackets. -/
def joins : Token → Bool
  | .punct .lparen | .punct .lbracket | .punct .dot => true
  | t => (Parser.binOp? t).isSome

/-- An expression whose operators bind at least as tightly as `n` goes no further than to these
tokens. -/
structure Ends (n : Nat) (rest : List Lexeme) : Prop where
  no_lparen : front rest ≠ some (.punct .lparen)
  no_lbracket : front rest ≠ some (.punct .lbracket)
  no_dot : front rest ≠ some (.punct .dot)
  looser : ∀ op : BinOp, front rest = some op.token → op.precedence < n

/-- A statement can end before these tokens. -/
def StmtEnds (rest : List Lexeme) : Prop :=
  ∃ t, front rest = some t ∧ (startsStmt t = true ∨ t = .punct .rbrace)

/-- The name a path begins with. -/
def Path.start : Path → Name
  | .root x _ => x
  | .field base _ _ _ => base.start

/-- The tokens of a path behind its first name. -/
def Path.tail : Path → List Lexeme
  | .root _ index => index.tokens
  | .field base dot name index => base.tail ++ ⟨.punct .dot, dot⟩ :: name.lexeme :: index.tokens

theorem Path.tokens_eq : (p : Path) → p.tokens = p.start.lexeme :: p.tail
  | .root x index => by rw [Path.tokens, Path.start, Path.tail]
  | .field base dot name index => by
    rw [Path.tokens, Path.tokens_eq base, Path.start, Path.tail, List.cons_append]

/-- A path is no call. -/
theorem Path.front_tail_ne : (p : Path) → {rest : List Lexeme} →
    front rest ≠ some (.punct .lparen) → front (p.tail ++ rest) ≠ some (.punct .lparen)
  | .root _ .none, _, h => h
  | .root _ (.some _ _ _), _, _ => nofun
  | .field base dot name index, rest, _ => by
    rw [Path.tail, List.append_assoc, List.cons_append]
    exact Path.front_tail_ne base nofun

theorem Primary.exists_tokens_eq (d : Primary) :
    ∃ l ls, d.tokens = l :: ls ∧ startsExpr l.token = true := by
  cases d with
  | path p =>
    exact ⟨p.start.lexeme, p.tail, by rw [Primary.tokens, p.tokens_eq], rfl⟩
  | lit | call | newStruct | newArray | not | paren => exact ⟨_, _, by rw [Primary.tokens], rfl⟩

theorem Expr.exists_tokens_eq : {n : Nat} → (e : Expr n) →
    ∃ l ls, e.tokens = l :: ls ∧ startsExpr l.token = true
  | _, .primary d => d.exists_tokens_eq
  | _, .binary op h pos lhs rhs => by
    obtain ⟨l, ls, hlhs, hl⟩ := lhs.exists_tokens_eq
    exact ⟨l, _, by rw [Expr.tokens, hlhs, List.cons_append], hl⟩

theorem Expr.front_tokens_ne {n : Nat} {t : Token} (ht : startsExpr t = false) (e : Expr n)
    (rest : List Lexeme) : front (e.tokens ++ rest) ≠ some t := by
  obtain ⟨l, ls, he, hl⟩ := e.exists_tokens_eq
  intro h
  rw [he, List.cons_append, front_cons, Option.some.injEq] at h
  rw [h, ht] at hl
  cases hl

theorem Stmt.exists_tokens_eq (s : Stmt) :
    ∃ l ls, s.tokens = l :: ls ∧ startsStmt l.token = true := by
  cases s with
  | assign target sign value =>
    exact ⟨target.start.lexeme, _, by rw [Stmt.tokens, target.tokens_eq, List.cons_append], rfl⟩
  | ifElse branch =>
    obtain ⟨kw, cond, body, other⟩ := branch
    exact ⟨_, _, by rw [Stmt.tokens, If.tokens], rfl⟩
  | var | ret | whileLoop | forLoop | call => exact ⟨_, _, by rw [Stmt.tokens], rfl⟩

theorem Stmt.front_tokens_ne {t : Token} (ht : startsStmt t = false) (s : Stmt)
    (rest : List Lexeme) : front (s.tokens ++ rest) ≠ some t := by
  obtain ⟨l, ls, hs, hl⟩ := s.exists_tokens_eq
  intro h
  rw [hs, List.cons_append, front_cons, Option.some.injEq] at h
  rw [h, ht] at hl
  cases hl

theorem DataType.exists_tokens_eq (d : DataType) :
    ∃ l ls, d.tokens = l :: ls ∧ l.token ≠ .eof ∧ ∀ k : Keyword, l.token = .keyword k →
      k.isBaseType = true := by
  cases d with
  | plain name pos =>
    obtain ⟨name, hname⟩ := name
    refine ⟨_, _, rfl, ?_⟩
    cases name with
    | void => exact absurd rfl hname
    | int | double | bool | string => exact ⟨nofun, by rintro _ ⟨⟩; rfl⟩
    | struct => exact ⟨nofun, nofun⟩
  | array => exact ⟨_, _, rfl, nofun, nofun⟩

theorem DataType.front_tokens_ne {k : Keyword} (hk : k.isBaseType = false) (d : DataType)
    (rest : List Lexeme) : front (d.tokens ++ rest) ≠ some (.keyword k) := by
  obtain ⟨l, ls, hd, -, hbase⟩ := d.exists_tokens_eq
  intro h
  rw [hd, List.cons_append, front_cons, Option.some.injEq] at h
  rw [hbase k h] at hk
  cases hk

/-- A definition begins with `struct` if it is one, and with no end mark. -/
theorem Definition.exists_tokens_eq (d : Definition) :
    ∃ l ls, d.tokens = l :: ls ∧ l.token ≠ .eof ∧
      (l.token = .keyword .structKw ↔ ∃ s, d = .struct s) := by
  cases d with
  | struct d => exact ⟨_, _, rfl, nofun, by simp⟩
  | function d =>
    obtain ⟨returnType, x, lparen, params, body⟩ := d
    cases returnType with
    | void kw => exact ⟨_, _, rfl, nofun, by simp⟩
    | value type =>
      obtain ⟨l, ls, htype, hne, hbase⟩ := type.exists_tokens_eq
      refine ⟨l, _, by rw [tokens, Function.tokens, ReturnType.tokens, htype]; rfl, hne, ?_⟩
      refine ⟨fun h ↦ absurd (hbase _ h) nofun, by simp⟩

section
variable {n : Nat} {rest : List Lexeme}

theorem Block.front_tokens (b : Block) : front (b.tokens ++ rest) = some (.punct .lbrace) := by
  obtain ⟨lbrace, stmts, rbrace⟩ := b
  rw [Block.tokens]
  rfl

theorem Ends.mono {m : Nat} (h : Ends n rest) (hnm : n ≤ m) : Ends m rest where
  no_lparen := h.no_lparen
  no_lbracket := h.no_lbracket
  no_dot := h.no_dot
  looser op hop := Nat.lt_of_lt_of_le (h.looser op hop) hnm

theorem Ends.of_front {t : Token} (hfront : front rest = some t) (ht : joins t = false) :
    Ends n rest := by
  have hne : ∀ u, joins u = true → front rest ≠ some u := by
    intro u hu heq
    rw [hfront, Option.some.injEq] at heq
    rw [← heq, ht] at hu
    cases hu
  refine ⟨hne _ rfl, hne _ rfl, hne _ rfl, fun op hop ↦ absurd hop (hne op.token ?_)⟩
  cases op <;> rfl

theorem ends_op {op : BinOp} {pos : Pos} (h : op.precedence < n) :
    Ends n (⟨op.token, pos⟩ :: rest) := by
  refine ⟨?_, ?_, ?_, fun op' hop ↦ ?_⟩
  iterate 3 cases op <;> nofun
  rw [front_cons, Option.some.injEq] at hop
  obtain rfl : op = op' :=
    Option.some.inj ((Parser.binOp?_eq_some.mpr rfl).symm.trans (Parser.binOp?_eq_some.mpr hop))
  exact h

namespace StmtEnds

theorem front_ne {u : Token} (h : StmtEnds rest) (hstart : startsStmt u = false)
    (hbrace : u ≠ .punct .rbrace) : front rest ≠ some u := by
  obtain ⟨t, hfront, ht⟩ := h
  rw [hfront]
  rintro ⟨⟩
  rcases ht with ht | ht
  · rw [hstart] at ht
    cases ht
  · exact hbrace ht

theorem ends (h : StmtEnds rest) : Ends n rest := by
  refine ⟨h.front_ne rfl nofun, h.front_ne rfl nofun, h.front_ne rfl nofun, fun op hop ↦ ?_⟩
  exact absurd hop (h.front_ne (by cases op <;> rfl) (by cases op <;> nofun))

end StmtEnds

/-- A statement of a block ends before the next one and before the closing brace. -/
theorem stmtEnds_stmts (ss : List Stmt) (rbrace : Pos) :
    StmtEnds (ss.flatMap Stmt.tokens ++ ⟨.punct .rbrace, rbrace⟩ :: rest) := by
  cases ss with
  | nil => exact ⟨_, rfl, .inr rfl⟩
  | cons s ss =>
    obtain ⟨l, ls, hs, hl⟩ := s.exists_tokens_eq
    exact ⟨l.token, by rw [List.flatMap_cons, hs]; rfl, .inl hl⟩

end

end Derivation

end Pebble
