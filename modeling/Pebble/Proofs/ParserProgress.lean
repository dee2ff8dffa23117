import Mathlib.Tactic.Common
import Pebble.Proofs.Climbing
import Pebble.Proofs.CountedReaders

/-!
# The parser makes progress and keeps its counters

The whole parser as a counting reader, with `while` loops that nothing bounds and a depth that is
counted up and down. Expressions are read by climbing over precedences, in one such loop.

## The construction

A block reads blocks, and a primary expression reads primary expressions. So that this is a
recursion at all, a reader is told how much room there is, for how many of them to be open at a
time; without room it has no end. As the depth is limited there is always enough room if there is
more than the limit, and how much more makes no difference.

A reader that begins with a keyword looks for it itself, also if its caller has seen it.
-/

namespace Pebble

namespace Counting

variable {α : Type}

noncomputable section

/-! ## Lists and types -/

/-- Reads a name. -/
def name (wanted : Expectation) : Counting Name := do
  match ← peek with
  | some (.ident text) =>
    let pos ← here
    advance
    return ⟨text, pos⟩
  | _ => unexpected wanted

/-- Items with commas between them, up to `close`, which is read too. -/
def commaList (close : Punct) (item : Counting α) : Counting (List α) := do
  if ← sees (.punct close) then
    advance
    return []
  let first ← item
  let items ← loop (fun _ t ↦ t = some (.punct .comma))
    (fun items ↦ do
      advance
      return (← item) :: items)
    [first]
  expectPunct close
  return items.reverse

def typeName : Counting TypeName := do
  let found ← match ← peek with
    | some (.keyword .intKw) => pure TypeName.int
    | some (.keyword .doubleKw) => pure .double
    | some (.keyword .boolKw) => pure .bool
    | some (.keyword .stringKw) => pure .string
    | some (.ident name) => pure (.struct name)
    | _ => unexpected .type
  advance
  return found

def typeRef : Counting TypeRef := do
  let pos ← here
  if ← sees (.punct .lbracket) then
    advance
    let elem ← typeName
    expectPunct .rbracket
    return ⟨elem, true, pos⟩
  else
    return ⟨← typeName, false, pos⟩

/-- `name: type`. -/
def varDef : Counting VarDef := do
  let x ← name .identifier
  expectPunct .colon
  return ⟨x, ← typeRef⟩

/-! ## Expressions -/

/-- Operands joined by operators of precedence `least` or higher ones, from the left. The right
operand of an operator is read by the same loop, for operators that bind tighter. -/
def climb (primary : Counting Expr) (least : Nat) : Counting Expr := do
  let first ← primary
  loop (fun _ t ↦ (Parser.opFrom? least t).isSome)
    (fun lhs ↦ do
      let t ← peek
      match hop : Parser.opFrom? least t with
      | none => return lhs
      | some op =>
        let pos ← here
        advance
        return .binary op pos lhs (← climb primary (op.precedence + 1)))
    first
termination_by BinOp.maxPrecedence + 1 - least
decreasing_by
  have hleast := (Parser.opFrom?_eq_some.mp hop).2
  have hmax := op.precedence_le
  omega

def expression (primary : Counting Expr) : Counting Expr :=
  climb primary 0

/-- Arguments in parentheses. -/
def arguments (expr : Counting Expr) : Counting (List Expr) := do
  expectPunct .lparen
  commaList .rparen expr

/-- An expression in brackets. -/
def bracketed (expr : Counting Expr) : Counting Expr := do
  expectPunct .lbracket
  let e ← expr
  expectPunct .rbracket
  return e

/-- The index behind a name, if there is one. -/
def index? (expr : Counting Expr) : Counting (Option Expr) := do
  if ← sees (.punct .lbracket) then
    return some (← bracketed expr)
  else return none

/-- The rest of a path whose first name has been read. -/
def pathFrom (expr : Counting Expr) (x : Name) : Counting Path := do
  let root := Path.root x (← index? expr)
  loop (fun _ t ↦ t = some (.punct .dot))
    (fun base ↦ do
      advance
      let x ← name .fieldName
      return .field base x (← index? expr))
    root

/-- `new` and what follows it. -/
def newObject (expr : Counting Expr) : Counting Expr := do
  let _ ← expect (.keyword .newKw)
  let pos ← here
  match ← peek with
  | some (.ident _) =>
    let x ← name .structName
    if ← sees (.punct .lparen) then
      return .newStruct x (← arguments expr)
    else if ← sees (.punct .lbracket) then
      return .newArray ⟨.struct x.text, false, pos⟩ (← bracketed expr)
    else unexpected .newBrackets
  | some t =>
    if t.isBaseType then
      let elem ← typeName
      return .newArray ⟨elem, false, pos⟩ (← bracketed expr)
    else unexpected .newType
  | none => unexpected .newType

/-- An expression without operators and parentheses at its root. -/
def basic (expr : Counting Expr) : Counting Expr := do
  let pos ← here
  match ← peek with
  | some (.lit value) =>
    advance
    return .lit value pos
  | some (.keyword .newKw) => newObject expr
  | some (.ident _) =>
    let x ← name .identifier
    if ← sees (.punct .lparen) then
      return .call x (← arguments expr)
    else
      return .path (← pathFrom expr x)
  | _ => unexpected .expression

/-- A primary expression, with room for this many of them in each other. -/
def primary : Nat → Counting Expr
  | 0 => endless
  | room + 1 => nested do
    match ← peek with
    | some (.punct .lparen) =>
      advance
      let e ← expression (primary room)
      expectPunct .rparen
      return e
    | some (.keyword .notKw) =>
      let pos ← expect (.keyword .notKw)
      return .not pos (← primary room)
    | _ => basic (expression (primary room))

def expr (room : Nat) : Counting Expr :=
  expression (primary room)

/-! ## Statements -/

def varStmt (expr : Counting Expr) : Counting Stmt := do
  let _ ← expect (.keyword .varKw)
  let x ← name .variableName
  if ← sees (.punct .assign) then
    advance
    return .var x none (some (← expr))
  else if ← sees (.punct .colon) then
    advance
    let type ← typeRef
    if ← sees (.punct .assign) then
      advance
      return .var x (some type) (some (← expr))
    else
      return .var x (some type) none
  else unexpected .initializer

def whileStmt (expr : Counting Expr) (block : Counting (List Stmt)) : Counting Stmt := do
  let _ ← expect (.keyword .whileKw)
  let cond ← expr
  return .whileLoop cond (← block)

def forStmt (expr : Counting Expr) (block : Counting (List Stmt)) : Counting Stmt := do
  let _ ← expect (.keyword .forKw)
  let x ← name .loopVariable
  let _ ← expect (.keyword .fromKw)
  let first ← expr
  let _ ← expect (.keyword .toKw)
  let last ← expr
  return .forLoop x first last (← block)

/-- `else` and what follows it. -/
def elseBranch (expr : Counting Expr) (block : Counting (List Stmt)) (read : Parser.Branches) :
    Counting Parser.Branches := do
  advance
  if ← sees (.punct .lbrace) then
    return (read.1, some (← block))
  else if ← sees (.keyword .ifKw) then
    advance
    let cond ← expr
    return ((cond, ← block) :: read.1, none)
  else unexpected .elseBody

def ifStmt (expr : Counting Expr) (block : Counting (List Stmt)) : Counting Stmt := do
  let _ ← expect (.keyword .ifKw)
  let cond ← expr
  let body ← block
  let others ← loop (fun read t ↦ read.2.isNone && t = some (.keyword .elseKw))
    (elseBranch expr block) ([], none)
  return .ifElse cond body (.ofBranches others.1.reverse others.2)

def returnStmt (expr : Counting Expr) : Counting Stmt := do
  let pos ← expect (.keyword .returnKw)
  return .ret pos (← expr)

/-- A call, or an assignment to a path. -/
def nameStmt (expr : Counting Expr) : Counting Stmt := do
  let x ← name .variableName
  if ← sees (.punct .lparen) then
    return .call x (← arguments expr)
  else
    let target ← pathFrom expr x
    expectPunct .assign
    return .assign target (← expr)

def stmt (expr : Counting Expr) (block : Counting (List Stmt)) : Counting Stmt := do
  match ← peek with
  | some (.keyword .varKw) => varStmt expr
  | some (.keyword .whileKw) => whileStmt expr block
  | some (.keyword .ifKw) => ifStmt expr block
  | some (.keyword .forKw) => forStmt expr block
  | some (.keyword .returnKw) => returnStmt expr
  | some (.ident _) => nameStmt expr
  | _ => unexpected .statement

/-- Statements in braces. -/
def braced (stmt : Counting Stmt) : Counting (List Stmt) := do
  expectPunct .lbrace
  let stmts ← loop (fun _ t ↦ t ≠ some (.punct .rbrace))
    (fun stmts ↦ do
      if (← peek).getD .eof = .eof then unexpected (.token (.punct .rbrace))
      else return (← stmt) :: stmts)
    []
  expectPunct .rbrace
  return stmts.reverse

/-- A block, with room for this many blocks and primary expressions in each other. -/
def block : Nat → Counting (List Stmt)
  | 0 => endless
  | room + 1 => nested (braced (stmt (expr room) (block room)))

/-! ## Definitions -/

def structDef : Counting StructDef := do
  let _ ← expect (.keyword .structKw)
  let x ← name .structName
  expectPunct .lbrace
  return ⟨x, ← commaList .rbrace varDef⟩

/-- The return type of a function. -/
def returnType : Counting TypeRef := do
  if ← sees (.keyword .voidKw) then
    let pos ← expect (.keyword .voidKw)
    return ⟨.void, false, pos⟩
  else
    try typeRef
    catch
      | ⟨_, .unexpected _ _⟩ => unexpected .definition
      | e => throw e

def funDef (room : Nat) : Counting FunDef := do
  let type ← returnType
  let x ← name .functionName
  expectPunct .lparen
  let params ← commaList .rparen varDef
  return ⟨x, type, params, ← block room⟩

/-- Definitions up to the end mark or the end of the tokens. -/
def program (room : Nat) : Counting Program := do
  let read ← loop (fun _ t ↦ t.getD .eof ≠ .eof)
    (fun (read : List StructDef × List FunDef) ↦ do
      if ← sees (.keyword .structKw) then
        return ((← structDef) :: read.1, read.2)
      else
        return (read.1, (← funDef room) :: read.2))
    ([], [])
  return ⟨read.1.reverse, read.2.reverse⟩

end

/-! ## Following the parser -/

section
variable {d : Nat} {t : Option Token}

theorem follows_expect {t₀ : Token} : Follows d t 1 (expect t₀) (Parser.expect t₀) := by
  refine .ifSees (fun _ ↦ ?_) fun _ ↦ .unexpected
  exact .here fun _ ↦ .advance fun _ ↦ .pure _

theorem follows_expectPunct {p : Punct} : Follows d t 1 (expectPunct p) (Parser.expectPunct p) :=
  follows_expect.bind fun _ _ ↦ .pure _

theorem follows_name {wanted : Expectation} :
    Follows d t 1 (name wanted) (Parser.name wanted) := by
  refine .peek ?_
  cases t with
  | none => exact .unexpected
  | some t₀ =>
    cases t₀ with
    | ident x => exact .here fun _ ↦ .advance fun _ ↦ .pure _
    | _ => exact .unexpected

theorem follows_commaList {close : Punct} {item : Counting α} {item' : Parser α}
    (hitem : ∀ t, Follows d t 0 item item') :
    Follows d t 0 (commaList close item) (Parser.commaList close item') := by
  refine .ifSees (fun _ ↦ ?_) fun _ ↦ ?_
  · exact .weaken (.advance fun _ ↦ .pure _)
  · refine (hitem t).bind (j := 0) fun first _ ↦
      .bind (j := 1) (.loop (fun items t hcomma ↦ ?_) _) fun items _ ↦ ?_
    · obtain rfl := of_decide_eq_true hcomma
      exact .advance fun _ ↦ (hitem _).bind fun _ _ ↦ .pure _
    · exact follows_expectPunct.bind fun _ _ ↦ .pure _

theorem follows_typeName : Follows d t 1 typeName Parser.typeName := by
  have hword : ∀ (t₀ : Token) (found : TypeName), Follows d (some t₀) 1
      (advance >>= fun _ ↦ pure found) (Parser.advance >>= fun _ ↦ pure found) :=
    fun _ _ ↦ .advance fun _ ↦ .pure _
  refine .peek ?_
  cases t with
  | none => exact .unexpected_bind
  | some t₀ =>
    cases t₀ with
    | ident x => exact hword _ (.struct x)
    | keyword word =>
      cases word with
      | intKw => exact hword _ .int
      | doubleKw => exact hword _ .double
      | boolKw => exact hword _ .bool
      | stringKw => exact hword _ .string
      | _ => exact .unexpected_bind
    | _ => exact .unexpected_bind

theorem follows_typeRef : Follows d t 1 typeRef Parser.typeRef := by
  refine .here fun pos ↦ .ifSees ?_ fun _ ↦ ?_
  · rintro rfl
    exact .advance fun _ ↦ follows_typeName.bind fun _ _ ↦
      follows_expectPunct.bind fun _ _ ↦ .pure _
  · exact follows_typeName.bind fun _ _ ↦ .pure _

theorem follows_varDef : Follows d t 1 varDef Parser.varDef :=
  follows_name.bind fun _ _ ↦ follows_expectPunct.bind fun _ _ ↦
    follows_typeRef.bind fun _ _ ↦ .pure _

/-! ### Expressions -/

theorem follows_climb {operand : Counting Expr} {operand' : Parser Expr}
    (hoperand : ∀ t, Follows d t 1 operand operand') (least : Nat) :
    Follows d t 1 (climb operand least) (Parser.climb operand' least) := by
  induction least using climb.induct generalizing t with
  | case1 least ih =>
    rw [climb, Parser.climb_eq]
    refine (hoperand t).bind fun first _ ↦ .loop (fun lhs t hop ↦ .peek ?_) _
    split
    · next hnone =>
      rw [hnone] at hop
      cases hop
    · next op hfound =>
      obtain ⟨rfl, -⟩ := Parser.opFrom?_eq_some.mp hfound
      rw [hfound]
      exact .here fun _ ↦ .advance fun _ ↦ (ih _ op hfound).bind fun _ _ ↦ .pure _

/-- Climbing reads what the chains of the parser read. -/
theorem follows_expression {operand : Counting Expr} {operand' : Parser Expr}
    (hconsumes : ∀ c, Parser.Consumes c operand' fun _ _ ↦ True)
    (hoperand : ∀ t, Follows d t 1 operand operand') :
    Follows d t 1 (expression operand) (Parser.expression operand') := by
  rw [expression, ← Parser.climb_zero hconsumes]
  exact follows_climb hoperand 0

section
variable {expr : Counting Expr} {expr' : Parser Expr} (hexpr : ∀ t, Follows d t 1 expr expr')
include hexpr

theorem follows_arguments : Follows d t 1 (arguments expr) (Parser.arguments expr') :=
  follows_expectPunct.bind fun _ _ ↦ follows_commaList fun _ ↦ (hexpr _).weaken

theorem follows_bracketed : Follows d t 1 (bracketed expr) (Parser.bracketed expr') :=
  follows_expectPunct.bind fun _ _ ↦ (hexpr _).bind fun _ _ ↦
    follows_expectPunct.bind fun _ _ ↦ .pure _

theorem follows_index? : Follows d t 0 (index? expr) (Parser.index? expr') := by
  refine .ifSees (fun _ ↦ ?_) fun _ ↦ .pure _
  exact .weaken ((follows_bracketed hexpr).bind fun _ _ ↦ .pure _)

theorem follows_pathFrom {x : Name} :
    Follows d t 0 (pathFrom expr x) (Parser.pathFrom expr' x) := by
  refine (follows_index? hexpr).bind fun index _ ↦ .loop (fun base t hdot ↦ ?_) _
  obtain rfl := of_decide_eq_true hdot
  exact .advance fun _ ↦ follows_name.bind fun _ _ ↦ (follows_index? hexpr).bind fun _ _ ↦ .pure _

/-- The caller has seen `new`. -/
theorem follows_newObject :
    Follows d (some (.keyword .newKw)) 1 (newObject expr)
      (Parser.advance >>= fun _ ↦ Parser.newObject expr') := by
  refine .expectSeen (j := 1) fun _ t ↦ .here fun pos ↦ .peek ?_
  cases t with
  | none => exact .unexpected
  | some t₀ =>
    cases t₀ with
    | ident =>
      refine follows_name.bind (j := 1) fun x _ ↦
        .ifSees (fun _ ↦ ?_) fun _ ↦ .ifSees (fun _ ↦ ?_) fun _ ↦ .unexpected
      · exact (follows_arguments hexpr).bind fun _ _ ↦ .pure _
      · exact (follows_bracketed hexpr).bind fun _ _ ↦ .pure _
    | _ =>
      refine .ite ?_ .unexpected
      exact follows_typeName.bind fun _ _ ↦ (follows_bracketed hexpr).bind fun _ _ ↦ .pure _

theorem follows_basic : Follows d t 1 (basic expr) (Parser.basic expr') := by
  refine .here fun pos ↦ .peek ?_
  cases t with
  | none => exact .unexpected
  | some t₀ =>
    cases t₀ with
    | lit => exact .advance fun _ ↦ .pure _
    | keyword word =>
      cases word with
      | newKw => exact follows_newObject hexpr
      | _ => exact .unexpected
    | ident =>
      refine follows_name.bind (j := 0) fun x _ ↦ .ifSees (fun _ ↦ ?_) fun _ ↦ ?_
      · exact .weaken ((follows_arguments hexpr).bind fun _ _ ↦ .pure _)
      · exact (follows_pathFrom hexpr).bind fun _ _ ↦ .pure _
    | _ => exact .unexpected

end

/-- With enough room, as many levels are left as the depth allows. -/
theorem follows_primary {room : Nat} (hroom : maxNesting - d < room) :
    Follows d t 1 (primary room) (Parser.primaryWithin (maxNesting - d)) := by
  induction room generalizing d t with
  | zero => exact absurd hroom (Nat.not_lt_zero _)
  | succ room ih =>
    -- Below the limit the depth goes up and the levels go down; at the limit both readers fail.
    rcases Nat.lt_or_ge d maxNesting with hd | hd
    · have hlevels : maxNesting - d = maxNesting - (d + 1) + 1 := by omega
      have hprimary : ∀ t, Follows (d + 1) t 1 (primary room)
          (Parser.primaryWithin (maxNesting - (d + 1))) := fun _ ↦ ih (by omega)
      have hexpr : ∀ t, Follows (d + 1) t 1 (expression (primary room))
          (Parser.expression (Parser.primaryWithin (maxNesting - (d + 1)))) :=
        fun _ ↦ follows_expression (Parser.primaryWithin_consumes _) hprimary
      rw [hlevels]
      refine .nested_of_lt hd (.peek ?_)
      cases t with
      | none => exact follows_basic hexpr
      | some t₀ =>
        cases t₀ with
        | punct p =>
          cases p with
          | lparen =>
            exact .advance fun _ ↦ (hexpr _).bind fun _ _ ↦
              follows_expectPunct.bind fun _ _ ↦ .pure _
          | _ => exact follows_basic hexpr
        | keyword word =>
          cases word with
          | notKw => exact .expectHere fun _ _ ↦ (hprimary _).bind fun _ _ ↦ .pure _
          | _ => exact follows_basic hexpr
        | _ => exact follows_basic hexpr
    · rw [Nat.sub_eq_zero_of_le hd]
      exact .nested_of_ge hd

theorem follows_expr {room : Nat} (hroom : maxNesting - d < room) :
    Follows d t 1 (expr room) (Parser.exprWithin (maxNesting - d)) :=
  follows_expression (Parser.primaryWithin_consumes _) fun _ ↦ follows_primary hroom

/-! ### Statements -/

section
variable {expr : Counting Expr} {expr' : Parser Expr} {block : Counting (List Stmt)}
  {block' : Parser (List Stmt)} (hexpr : ∀ t, Follows d t 1 expr expr')
include hexpr

theorem follows_varStmt :
    Follows d (some (.keyword .varKw)) 1 (varStmt expr) (Parser.varStmt expr') := by
  refine .expectSeen fun _ _ ↦ follows_name.bind (j := 1) fun x _ ↦
    .ifSees (fun _ ↦ ?_) fun _ ↦ .ifSees (fun _ ↦ ?_) fun _ ↦ .unexpected
  · exact .advance fun _ ↦ (hexpr _).bind fun _ _ ↦ .pure _
  · refine .advance fun _ ↦ follows_typeRef.bind (j := 0) fun type _ ↦
      .ifSees (fun _ ↦ ?_) fun _ ↦ .pure _
    exact .weaken (.advance fun _ ↦ (hexpr _).bind fun _ _ ↦ .pure _)

theorem follows_nameStmt : Follows d t 1 (nameStmt expr) (Parser.nameStmt expr') := by
  refine follows_name.bind (j := 0) fun x _ ↦ .ifSees (fun _ ↦ ?_) fun _ ↦ ?_
  · exact .weaken ((follows_arguments hexpr).bind fun _ _ ↦ .pure _)
  · exact (follows_pathFrom hexpr).bind fun _ _ ↦ follows_expectPunct.bind fun _ _ ↦
      (hexpr _).bind fun _ _ ↦ .pure _

theorem follows_returnStmt :
    Follows d (some (.keyword .returnKw)) 1 (returnStmt expr)
      (Parser.here >>= fun pos ↦ Parser.advance >>= fun _ ↦ expr' >>= fun e ↦ pure (.ret pos e)) :=
  .expectHere fun _ _ ↦ (hexpr _).bind fun _ _ ↦ .pure _

variable (hblock : ∀ t, Follows d t 1 block block')
include hblock

theorem follows_whileStmt :
    Follows d (some (.keyword .whileKw)) 1 (whileStmt expr block)
      (Parser.whileStmt expr' block') :=
  .expectSeen fun _ _ ↦ (hexpr _).bind fun _ _ ↦ (hblock _).bind fun _ _ ↦ .pure _

theorem follows_forStmt :
    Follows d (some (.keyword .forKw)) 1 (forStmt expr block) (Parser.forStmt expr' block') :=
  .expectSeen fun _ _ ↦ follows_name.bind fun _ _ ↦ follows_expect.bind fun _ _ ↦
    (hexpr _).bind fun _ _ ↦ follows_expect.bind fun _ _ ↦ (hexpr _).bind fun _ _ ↦
    (hblock _).bind fun _ _ ↦ .pure _

theorem follows_elseBranch {t₀ : Token} {read : Parser.Branches} :
    Follows d (some t₀) 1 (elseBranch expr block read) (Parser.elseBranch expr' block' read) := by
  refine .advance (j := 1) fun _ ↦
    .ifSees (fun _ ↦ ?_) fun _ ↦ .ifSees (fun _ ↦ ?_) fun _ ↦ .unexpected
  · exact (hblock _).bind fun _ _ ↦ .pure _
  · exact .advance fun _ ↦ (hexpr _).bind fun _ _ ↦ (hblock _).bind fun _ _ ↦ .pure _

theorem follows_ifStmt :
    Follows d (some (.keyword .ifKw)) 1 (ifStmt expr block) (Parser.ifStmt expr' block') := by
  refine .expectSeen fun _ _ ↦ (hexpr _).bind fun cond _ ↦ (hblock _).bind fun body _ ↦
    .bind (.loop (fun read t helse ↦ ?_) _) fun others _ ↦ .pure _
  obtain rfl := of_decide_eq_true (Bool.and_eq_true_iff.mp helse).2
  exact follows_elseBranch hexpr hblock

theorem follows_stmt : Follows d t 1 (stmt expr block) (Parser.stmt expr' block') := by
  refine .peek ?_
  cases t with
  | none => exact .unexpected
  | some t₀ =>
    cases t₀ with
    | keyword word =>
      cases word with
      | varKw => exact follows_varStmt hexpr
      | whileKw => exact follows_whileStmt hexpr hblock
      | ifKw => exact follows_ifStmt hexpr hblock
      | forKw => exact follows_forStmt hexpr hblock
      | returnKw => exact follows_returnStmt hexpr
      | _ => exact .unexpected
    | ident => exact follows_nameStmt hexpr
    | _ => exact .unexpected

end

theorem follows_braced {stmt : Counting Stmt} {stmt' : Parser Stmt}
    (hstmt : ∀ t, Follows d t 1 stmt stmt') :
    Follows d t 1 (braced stmt) (Parser.braced stmt') := by
  refine follows_expectPunct.bind fun _ _ ↦
    .bind (j := 1) (.loop (fun stmts t _ ↦ .peek ?_) _) fun stmts _ ↦
      follows_expectPunct.bind fun _ _ ↦ .pure _
  split
  · exact .unexpected
  · exact (hstmt t).bind fun _ _ ↦ .pure _

theorem follows_block {room : Nat} (hroom : maxNesting - d < room) :
    Follows d t 1 (block room) (Parser.blockWithin (maxNesting - d)) := by
  induction room generalizing d t with
  | zero => exact absurd hroom (Nat.not_lt_zero _)
  | succ room ih =>
    rcases Nat.lt_or_ge d maxNesting with hd | hd
    · have hlevels : maxNesting - d = maxNesting - (d + 1) + 1 := by omega
      have hroom' : maxNesting - (d + 1) < room := by omega
      rw [hlevels]
      exact .nested_of_lt hd (follows_braced fun _ ↦
        follows_stmt (fun _ ↦ follows_expr hroom') fun _ ↦ ih hroom')
    · rw [Nat.sub_eq_zero_of_le hd]
      exact .nested_of_ge hd

/-! ### Definitions -/

theorem follows_structDef :
    Follows d (some (.keyword .structKw)) 1 structDef Parser.structDef :=
  .expectSeen fun _ _ ↦ follows_name.bind fun _ _ ↦ follows_expectPunct.bind fun _ _ ↦
    (follows_commaList fun _ ↦ follows_varDef.weaken).bind fun _ _ ↦ .pure _

theorem follows_returnType : Follows d t 1 returnType Parser.returnType := by
  refine .ifSees (fun _ ↦ ?_) fun _ ↦ ?_
  · exact follows_expect.bind fun _ _ ↦ .pure _
  · exact .reword (fun _ _ _ ↦ ⟨rfl, rfl⟩) (fun _ ↦ ⟨rfl, rfl⟩) follows_typeRef

end

end Counting

namespace Parser

/-- A function whose body is read by `block`. -/
def funDefWith (block : Parser (List Stmt)) : Parser FunDef := do
  let type ← returnType
  let x ← name .functionName
  expectPunct .lparen
  let params ← commaList .rparen varDef
  return ⟨x, type, params, ← block⟩

/-- Definitions in which functions are read by `funDef`. -/
def programWith (funDef : Parser FunDef) : Parser Program := do
  let read ← loop (fun _ t ↦ t.getD .eof ≠ .eof)
    (fun (read : List StructDef × List FunDef) ↦ do
      if ← sees (.keyword .structKw) then
        return ((← structDef) :: read.1, read.2)
      else
        return (read.1, (← funDef) :: read.2))
    ([], [])
  return ⟨read.1.reverse, read.2.reverse⟩

theorem funDef_eq_with : funDef = funDefWith (blockWithin maxNesting) := rfl

theorem program_eq_with : program = programWith funDef := rfl

end Parser

namespace Counting

section
variable {d : Nat} {t : Option Token}

/-- A function that is read at any depth, with the levels that are left there. -/
theorem follows_funDef {room : Nat} (hroom : maxNesting - d < room) :
    Follows d t 1 (funDef room) (Parser.funDefWith (Parser.blockWithin (maxNesting - d))) :=
  follows_returnType.bind fun _ _ ↦ follows_name.bind fun _ _ ↦
    follows_expectPunct.bind fun _ _ ↦
    (follows_commaList fun _ ↦ follows_varDef.weaken).bind fun _ _ ↦
    (follows_block hroom).bind fun _ _ ↦ .pure _

theorem follows_program {room : Nat} (hroom : maxNesting - d < room) :
    Follows d t 0 (program room)
      (Parser.programWith (Parser.funDefWith (Parser.blockWithin (maxNesting - d)))) := by
  refine .bind (.loop (fun read t _ ↦ .ifSees (fun _ ↦ ?_) fun _ ↦ ?_) _) fun read _ ↦ .pure _
  · exact follows_structDef.bind fun _ _ ↦ .pure _
  · exact (follows_funDef hroom).bind fun _ _ ↦ .pure _

end

/-! ## Progress -/

/-- Begun at `s`, the reader answers or fails. Among the same tokens it has moved on, by at least
`k` of them if it answers, and not past the last one; and the depth is what it was and has not gone
beyond the limit. -/
def Ends (k : Nat) (q : Counting α) (s : Station) : Prop :=
  ∃ r s', q s = some (r, s') ∧ s.Settles s' ∧ ∀ a, r = .ok a → s.pos + k ≤ s'.pos

/-- Begun at `s`, the counting reader answers what the other one answers and stops where it does,
or it fails as the other one does. -/
def Reads (q : Counting α) (p : Parser α) (s : Station) : Prop :=
  ∃ r s', q s = some (r, s') ∧ p.run s.cursor = r.map fun a ↦ (a, s'.cursor)

section
variable {d k : Nat} {t : Option Token} {q : Counting α} {p : Parser α} {s : Station}

theorem Agrees.ends {o : Except ParseError (α × Cursor)} (h : Agrees k s o (q s)) :
    Ends k q s := by
  generalize hr : q s = r at h
  cases h with
  | ok a hs hread => exact ⟨_, _, hr, hs, fun _ _ ↦ hread⟩
  | error hs => exact ⟨_, _, hr, hs, fun _ h ↦ nomatch h⟩

theorem Agrees.reads (h : Agrees k s (p.run s.cursor) (q s)) : Reads q p s := by
  generalize hr : q s = r at h
  generalize ho : p.run s.cursor = o at h
  cases h with
  | ok a => exact ⟨_, _, hr, ho⟩
  | error => exact ⟨_, _, hr, ho⟩

/-- A reader that begins with a keyword ends at once if the keyword is not there. -/
theorem ends_of_keyword {t₀ : Token} {f : Pos → Counting α} (hs : s.pos ≤ s.tokens.length)
    (hf : Follows s.depth (some t₀) k (expect t₀ >>= f) p) : Ends k (expect t₀ >>= f) s := by
  by_cases ht : s.token? = some t₀
  · exact (hf s hs rfl ht).ends
  · have hfail : (expect t₀ >>= f) s =
        some (.error ⟨s.place, .unexpected (.token t₀) s.token?⟩, s) := by
      rw [bind_apply, expect_apply, if_neg ht]
    exact ⟨_, s, hfail, .refl hs, fun _ h ↦ nomatch h⟩

/-- From the first token on. -/
theorem Reads.of_start {ls : List Lexeme} (h : Reads q p (.start ls)) :
    ∃ s', q (.start ls) = some ((p.run (.ofLexemes ls)).map (·.1), s') := by
  obtain ⟨r, s', hq, hp⟩ := h
  have hcursor : (Station.start ls).cursor = .ofLexemes ls := rfl
  rw [hcursor] at hp
  refine ⟨s', ?_⟩
  rw [hq, hp]
  cases r <;> rfl

end

/-- **The parser makes progress and keeps its counters.** Begun at any station among any tokens,
every reader comes to an end within them, at the depth at which it was begun; and whoever reads a
definition, a statement or a primary expression has read at least one token. For this it is enough
that there is room for one more block or primary expression than the limit on the depth.

What is read so is what the parser reads. -/
theorem readers_progress {s : Station} (hs : s.pos ≤ s.tokens.length) {room : Nat}
    (hroom : maxNesting < room) :
    let levels := maxNesting - s.depth
    (Ends 0 (program room) s ∧ Ends 1 (funDef room) s ∧ Ends 1 structDef s ∧ Ends 1 varDef s) ∧
    (Ends 1 (block room) s ∧ Ends 1 (stmt (expr room) (block room)) s ∧
      Ends 1 (varStmt (expr room)) s ∧ Ends 1 (whileStmt (expr room) (block room)) s ∧
      Ends 1 (ifStmt (expr room) (block room)) s ∧ Ends 1 (forStmt (expr room) (block room)) s ∧
      Ends 1 (returnStmt (expr room)) s ∧ Ends 1 (nameStmt (expr room)) s) ∧
    (Ends 1 (expr room) s ∧ Ends 1 (primary room) s ∧ Ends 1 (basic (expr room)) s ∧
      Ends 1 (newObject (expr room)) s) ∧
    (Reads (expr room) (Parser.exprWithin levels) s ∧
      Reads (primary room) (Parser.primaryWithin levels) s ∧
      Reads (block room) (Parser.blockWithin levels) s ∧
      Reads (stmt (expr room) (block room))
        (Parser.stmt (Parser.exprWithin levels) (Parser.blockWithin levels)) s ∧
      (s.token? = some (.keyword .structKw) → Reads structDef Parser.structDef s) ∧
      (s.depth = 0 → Reads (funDef room) Parser.funDef s)) ∧
    ∀ ls, (∃ s', program room (.start (dropComments ls)) = some (parse ls, s')) ∧
      ∃ s', expr room (.start (dropComments ls)) = some (parseExpr ls, s') := by
  intro levels
  have hlevels : maxNesting - s.depth < room := by omega
  have hexpr : ∀ t, Follows s.depth t 1 (expr room) (Parser.exprWithin (maxNesting - s.depth)) :=
    fun _ ↦ follows_expr hlevels
  have hblock : ∀ t, Follows s.depth t 1 (block room)
      (Parser.blockWithin (maxNesting - s.depth)) := fun _ ↦ follows_block hlevels
  refine ⟨⟨?_, ?_, ?_, ?_⟩, ⟨?_, ?_, ?_, ?_, ?_, ?_, ?_, ?_⟩, ⟨?_, ?_, ?_, ?_⟩,
    ⟨?_, ?_, ?_, ?_, ?_, ?_⟩, fun ls ↦ ⟨?_, ?_⟩⟩
  · exact (follows_program hlevels s hs rfl rfl).ends
  · exact (follows_funDef hlevels s hs rfl rfl).ends
  · exact ends_of_keyword hs follows_structDef
  · exact (follows_varDef s hs rfl rfl).ends
  · exact (hblock _ s hs rfl rfl).ends
  · exact (follows_stmt hexpr hblock s hs rfl rfl).ends
  · exact ends_of_keyword hs (follows_varStmt hexpr)
  · exact ends_of_keyword hs (follows_whileStmt hexpr hblock)
  · exact ends_of_keyword hs (follows_ifStmt hexpr hblock)
  · exact ends_of_keyword hs (follows_forStmt hexpr hblock)
  · exact ends_of_keyword hs (follows_returnStmt hexpr)
  · exact (follows_nameStmt hexpr s hs rfl rfl).ends
  · exact (hexpr _ s hs rfl rfl).ends
  · exact (follows_primary hlevels s hs rfl rfl).ends
  · exact (follows_basic hexpr s hs rfl rfl).ends
  · exact ends_of_keyword hs (follows_newObject hexpr)
  · exact (hexpr _ s hs rfl rfl).reads
  · exact (follows_primary hlevels s hs rfl rfl).reads
  · exact (hblock _ s hs rfl rfl).reads
  · exact (follows_stmt hexpr hblock s hs rfl rfl).reads
  · exact fun ht ↦ (follows_structDef s hs rfl ht).reads
  · intro hd
    rw [Parser.funDef_eq_with]
    exact (follows_funDef (d := 0) (by omega) s hs hd rfl).reads
  · refine Reads.of_start (p := Parser.program) ?_
    rw [Parser.program_eq_with, Parser.funDef_eq_with]
    exact (follows_program (d := 0) hroom _ (Nat.zero_le _) rfl rfl).reads
  · refine Reads.of_start (p := Parser.exprWithin maxNesting) ?_
    exact (follows_expr (d := 0) hroom _ (Nat.zero_le _) rfl rfl).reads

/-- A loop with one level left, without an end mark, whose condition needs two. -/
def loopAtLimit : Station :=
  ⟨[⟨.keyword .whileKw, ⟨1, 1⟩⟩, ⟨.keyword .notKw, ⟨1, 7⟩⟩, ⟨.ident "x", ⟨1, 11⟩⟩], 0, none, 127, 127⟩

theorem readers_progress_loopAtLimit :
    loopAtLimit.pos ≤ loopAtLimit.tokens.length ∧ maxNesting < 129 ∧
      ∃ s', stmt (expr 129) (block 129) loopAtLimit =
          some (.error ⟨⟨1, 11⟩, .nestingTooDeep⟩, s') ∧
        s'.pos ≤ 3 ∧ s'.depth = 127 ∧ s'.deepest ≤ 128 := by
  have hs : loopAtLimit.pos ≤ loopAtLimit.tokens.length := by decide
  have hroom : maxNesting < 129 := by decide
  obtain ⟨-, ⟨-, hends, -⟩, -, ⟨-, -, -, hreads, -⟩, -⟩ := readers_progress hs hroom
  obtain ⟨r, s', hrun, hsettles, -⟩ := hends
  obtain ⟨r', s'', hrun', hparser⟩ := hreads
  obtain ⟨rfl, rfl⟩ := Prod.mk.inj (Option.some.inj (hrun.symm.trans hrun'))
  have hfails : (Parser.stmt (Parser.exprWithin (maxNesting - loopAtLimit.depth))
      (Parser.blockWithin (maxNesting - loopAtLimit.depth))).run loopAtLimit.cursor =
        .error ⟨⟨1, 11⟩, .nestingTooDeep⟩ := rfl
  rw [hfails] at hparser
  cases r with
  | ok a => cases hparser
  | error e =>
    cases hparser
    exact ⟨hs, hroom, s', hrun, hsettles.within, hsettles.depth, hsettles.deepest⟩

end Counting

end Pebble
