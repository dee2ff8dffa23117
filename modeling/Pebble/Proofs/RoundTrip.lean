import Mathlib.Tactic.Common
import Pebble.Proofs.Legibility
import Pebble.Proofs.ParserCorrectness
import Pebble.Source

/-!
# Printing is undone by reading

The text of a program that was read from some text is scanned without a failure, and its tokens are
parsed to the same program in other places, unless the parentheses that printing adds nest too deep.

What was read can be written: its names, types and literals are those of tokens the scanner made,
which the derivation behind the tree shows. Only a double literal too large for any double has no
text of its own.
-/

namespace Pebble

/-- A scanned literal has a token of its own, unless it is an infinite double. -/
theorem Literal.IsScanned.isUnsigned {v : Literal} (h : v.IsScanned)
    (hfinite : ∀ d, v = .double d → d.isFinite = true) : v.IsUnsigned := by
  cases v with
  | int n => exact h
  | double d =>
    obtain ⟨bits, hle, rfl⟩ := h
    exact ⟨bits, Binary64.lt_infinityBits_of_isFinite hle (hfinite _ rfl), rfl⟩
  | bool | str | null => trivial

namespace Derivation

theorem ValueType.isLegible (t : ValueType) (h : t.val.token.IsScanned) : t.val.IsLegible := by
  obtain ⟨name, hname⟩ := t
  cases name with
  | void => exact absurd rfl hname
  | struct s => exact h
  | int | double | bool | string => trivial

/-! ## Expressions -/

mutual

theorem Primary.isLegible : (d : Primary) → (∀ l ∈ d.tokens, l.token.IsScanned) →
    d.tree.IsLegible Literal.IsScanned
  | .lit _ _, hs => hs _ List.mem_cons_self
  | .path p, hs => p.isLegible hs
  | .call callee _ args, hs => by
    simp only [Primary.tokens, List.forall_mem_cons] at hs
    exact ⟨hs.1, args_isLegible args hs.2.2⟩
  | .newStruct _ name _ args, hs => by
    simp only [Primary.tokens, List.forall_mem_cons] at hs
    exact ⟨hs.2.1, args_isLegible args hs.2.2.2⟩
  | .newArray _ elem _ _ size _, hs => by
    simp only [Primary.tokens, List.forall_mem_cons, List.forall_mem_append] at hs
    exact ⟨elem.isLegible hs.2.1, rfl, size.isLegible hs.2.2.2.1⟩
  | .not _ operand, hs => by
    simp only [Primary.tokens, List.forall_mem_cons] at hs
    exact operand.isLegible hs.2
  | .paren _ e _, hs => by
    simp only [Primary.tokens, List.forall_mem_cons, List.forall_mem_append] at hs
    exact e.isLegible hs.2.1

theorem Expr.isLegible : {n : Nat} → (e : Expr n) → (∀ l ∈ e.tokens, l.token.IsScanned) →
    e.tree.IsLegible Literal.IsScanned
  | _, .primary d, hs => d.isLegible hs
  | _, .binary _ _ _ lhs rhs, hs => by
    simp only [Expr.tokens, List.forall_mem_cons, List.forall_mem_append] at hs
    exact ⟨lhs.isLegible hs.1, rhs.isLegible hs.2.2⟩

theorem Path.isLegible : (p : Path) → (∀ l ∈ p.tokens, l.token.IsScanned) →
    p.tree.IsLegible Literal.IsScanned
  | .root name index, hs => by
    simp only [Path.tokens, List.forall_mem_cons] at hs
    exact ⟨hs.1, index.isLegible hs.2⟩
  | .field base _ name index, hs => by
    simp only [Path.tokens, List.forall_mem_cons, List.forall_mem_append] at hs
    exact ⟨base.isLegible hs.1, hs.2.2.1, index.isLegible hs.2.2.2⟩

theorem Index.isLegible : (index : Index) → (∀ l ∈ index.tokens, l.token.IsScanned) →
    indexLegible Literal.IsScanned index.tree
  | .none, _ => trivial
  | .some _ e _, hs => by
    simp only [Index.tokens, List.forall_mem_cons, List.forall_mem_append] at hs
    exact e.isLegible hs.2.1

theorem args_isLegible : (args : Listing (Expr 0)) → (∀ l ∈ argsTokens args, l.token.IsScanned) →
    argsLegible Literal.IsScanned (argsTree args)
  | .empty _, _ => trivial
  | .items first rest, hs => by
    simp only [argsTokens, List.forall_mem_append] at hs
    exact ⟨first.isLegible hs.1, argsRest_isLegible rest hs.2⟩

theorem argsRest_isLegible : (rest : Items (Expr 0)) →
    (∀ l ∈ argsRestTokens rest, l.token.IsScanned) →
    argsLegible Literal.IsScanned (argsRestTree rest)
  | .close _, _ => trivial
  | .comma _ e rest, hs => by
    simp only [argsRestTokens, List.forall_mem_cons, List.forall_mem_append] at hs
    exact ⟨e.isLegible hs.2.1, argsRest_isLegible rest hs.2.2⟩

end

/-! ## Statements -/

theorem DataType.isLegible (d : DataType) (hs : ∀ l ∈ d.tokens, l.token.IsScanned) :
    d.tree.name.IsLegible := by
  cases d with
  | plain name _ => exact name.isLegible (hs _ List.mem_cons_self)
  | array _ elem _ _ => exact elem.isLegible (hs _ (List.mem_cons_of_mem _ List.mem_cons_self))

theorem VarInit.isLegible (x : Name) (init : VarInit) (hx : IsName x.text)
    (hs : ∀ l ∈ init.tokens, l.token.IsScanned) :
    (init.tree x).IsLegible Literal.IsScanned := by
  cases init with
  | value _ e =>
    refine ⟨hx, nofun, ?_, .inr rfl⟩
    rintro _ ⟨⟩
    exact e.isLegible (List.forall_mem_cons.mp hs).2
  | typed _ type =>
    refine ⟨hx, ?_, nofun, .inl rfl⟩
    rintro _ ⟨⟩
    exact type.isLegible (List.forall_mem_cons.mp hs).2
  | both _ type _ e =>
    simp only [VarInit.tokens, List.forall_mem_cons, List.forall_mem_append] at hs
    refine ⟨hx, ?_, ?_, .inl rfl⟩
    · rintro _ ⟨⟩
      exact type.isLegible hs.2.1
    · rintro _ ⟨⟩
      exact e.isLegible hs.2.2.2

mutual

theorem Stmt.isLegible : (s : Stmt) → (∀ l ∈ s.tokens, l.token.IsScanned) →
    s.tree.IsLegible Literal.IsScanned
  | .var _ name init, hs => by
    simp only [Stmt.tokens, List.forall_mem_cons] at hs
    exact init.isLegible name hs.2.1 hs.2.2
  | .assign target _ value, hs => by
    simp only [Stmt.tokens, List.forall_mem_cons, List.forall_mem_append] at hs
    exact ⟨target.isLegible hs.1, value.isLegible hs.2.2⟩
  | .ret _ value, hs => value.isLegible (List.forall_mem_cons.mp hs).2
  | .whileLoop _ cond body, hs => by
    simp only [Stmt.tokens, List.forall_mem_cons, List.forall_mem_append] at hs
    exact ⟨cond.isLegible hs.2.1, body.isLegible hs.2.2⟩
  | .forLoop _ var _ first _ last body, hs => by
    simp only [Stmt.tokens, List.forall_mem_cons, List.forall_mem_append] at hs
    obtain ⟨-, hvar, -, hfirst, -, hlast, hbody⟩ := hs
    exact ⟨hvar, first.isLegible hfirst, last.isLegible hlast, body.isLegible hbody⟩
  | .ifElse (.mk _ cond body other), hs => by
    simp only [Stmt.tokens, If.tokens, List.forall_mem_cons, List.forall_mem_append] at hs
    exact ⟨cond.isLegible hs.2.1, body.isLegible hs.2.2.1, other.isLegible hs.2.2.2⟩
  | .call callee _ args, hs => by
    simp only [Stmt.tokens, List.forall_mem_cons] at hs
    exact ⟨hs.1, args_isLegible args hs.2.2⟩

theorem Else.isLegible : (other : Else) → (∀ l ∈ other.tokens, l.token.IsScanned) →
    other.tree.IsLegible Literal.IsScanned
  | .none, _ => trivial
  | .block _ body, hs => body.isLegible (List.forall_mem_cons.mp hs).2
  | .elseIf _ (.mk _ cond body other), hs => by
    simp only [Else.tokens, If.tokens, List.forall_mem_cons, List.forall_mem_append] at hs
    exact ⟨cond.isLegible hs.2.2.1, body.isLegible hs.2.2.2.1, other.isLegible hs.2.2.2.2⟩

theorem Block.isLegible : (b : Block) → (∀ l ∈ b.tokens, l.token.IsScanned) →
    stmtsLegible Literal.IsScanned b.tree
  | .mk _ stmts _, hs => by
    simp only [Block.tokens, List.forall_mem_cons, List.forall_mem_append] at hs
    exact stmts_isLegible stmts hs.2.1

theorem stmts_isLegible : (ss : List Stmt) → (∀ l ∈ stmtsTokens ss, l.token.IsScanned) →
    stmtsLegible Literal.IsScanned (stmtsTree ss)
  | [], _ => trivial
  | s :: ss, hs => by
    simp only [stmtsTokens, List.forall_mem_append] at hs
    exact ⟨s.isLegible hs.1, stmts_isLegible ss hs.2⟩

end

/-! ## Definitions -/

theorem Field.isLegible (d : Field) (hs : ∀ l ∈ d.tokens, l.token.IsScanned) :
    d.tree.IsLegible := by
  simp only [Field.tokens, List.forall_mem_cons] at hs
  exact ⟨hs.1, d.type.isLegible hs.2.2⟩

theorem Items.mem_tokens {δ : Type} {close : Punct} {ofItem : δ → List Lexeme} {d : δ} {l : Lexeme}
    {rest : Items δ} (hd : d ∈ rest.toList) (hl : l ∈ ofItem d) : l ∈ rest.tokens close ofItem := by
  induction rest with
  | close => cases hd
  | comma _ item rest ih =>
    refine List.mem_cons_of_mem _ (List.mem_append.mpr ?_)
    rcases List.mem_cons.mp hd with rfl | hd
    · exact .inl hl
    · exact .inr (ih hd)

theorem Listing.mem_tokens {δ : Type} {close : Punct} {ofItem : δ → List Lexeme} {d : δ}
    {l : Lexeme} {ds : Listing δ} (hd : d ∈ ds.toList) (hl : l ∈ ofItem d) :
    l ∈ ds.tokens close ofItem := by
  cases ds with
  | empty => cases hd
  | items first rest =>
    refine List.mem_append.mpr ?_
    rcases List.mem_cons.mp hd with rfl | hd
    · exact .inl hl
    · exact .inr (Items.mem_tokens hd hl)

theorem fields_isLegible {close : Punct} (d : Listing Field)
    (hs : ∀ l ∈ d.tokens close Field.tokens, l.token.IsScanned) :
    ∀ v ∈ d.toList.map Field.tree, v.IsLegible := by
  intro v hv
  obtain ⟨f, hf, rfl⟩ := List.mem_map.mp hv
  exact f.isLegible fun l hl ↦ hs l (Listing.mem_tokens hf hl)

theorem Struct.isLegible (d : Struct) (hs : ∀ l ∈ d.tokens, l.token.IsScanned) :
    d.tree.IsLegible := by
  simp only [Struct.tokens, List.forall_mem_cons] at hs
  exact ⟨hs.2.1, fields_isLegible d.fields hs.2.2.2⟩

theorem ReturnType.isLegible (d : ReturnType) (hs : ∀ l ∈ d.tokens, l.token.IsScanned) :
    d.tree.name.IsLegible ∨ d.tree.name = .void ∧ d.tree.isArray = false := by
  cases d with
  | void => exact .inr ⟨rfl, rfl⟩
  | value type => exact .inl (type.isLegible hs)

theorem Function.isLegible (d : Function) (hs : ∀ l ∈ d.tokens, l.token.IsScanned) :
    d.tree.IsLegible Literal.IsScanned := by
  simp only [Function.tokens, List.forall_mem_cons, List.forall_mem_append] at hs
  obtain ⟨htype, hname, -, hparams, hbody⟩ := hs
  exact ⟨d.returnType.isLegible htype, hname, fields_isLegible d.params hparams,
    d.body.isLegible hbody⟩

/-- A program derived from tokens of the scanner has their names and literals. -/
theorem Program.isLegible (d : Program) (hs : ∀ l ∈ d.tokens, l.token.IsScanned) :
    d.tree.IsLegible Literal.IsScanned := by
  have hdefinition : ∀ x ∈ d.definitions, ∀ l ∈ x.tokens, l.token.IsScanned :=
    fun x hx l hl ↦ hs l (List.mem_flatMap.mpr ⟨x, hx, hl⟩)
  refine ⟨fun s hmem ↦ ?_, fun f hmem ↦ ?_⟩
  · obtain ⟨x, hx, hstruct⟩ := List.mem_filterMap.mp hmem
    cases x with
    | struct d' =>
      cases hstruct
      exact d'.isLegible (hdefinition _ hx)
    | function => cases hstruct
  · obtain ⟨x, hx, hfunction⟩ := List.mem_filterMap.mp hmem
    cases x with
    | struct => cases hfunction
    | function d' =>
      cases hfunction
      exact d'.isLegible (hdefinition _ hx)

end Derivation

/-! ## Reading what was printed -/

/-- The literals of a program, in the order in which they stand. -/
def Program.literals (p : Program) : List Literal :=
  (p.functions.flatMap FunDef.marks).filterMap fun l ↦
    match l.token with
    | .lit v => some v
    | _ => none

/-- What is known of the literals of a program can be used where they stand. -/
theorem Program.IsLegible.of_literals {ok ok' : Literal → Prop} {p : Program} (h : p.IsLegible ok)
    (himp : ∀ v ∈ p.literals, ok v → ok' v) : p.IsLegible ok' := by
  refine h.of_marks fun f hf l hl ↦ ?_
  unfold Token.Fits
  split
  · next v hv =>
    refine himp v (List.mem_filterMap.mpr ⟨l, List.mem_flatMap.mpr ⟨f, hf, hl⟩, ?_⟩)
    rw [hv]
  · trivial

/-- A program read from a text has names and literals of the scanner. -/
theorem isScanned_of_parseSource {source : String} {p : Program} (h : parseSource source = .ok p) :
    p.IsLegible Literal.IsScanned := by
  obtain ⟨ls, hscan, hparse⟩ := bind_eq_ok.mp h
  obtain ⟨ls', pos, rfl, hls'⟩ := tokenize_ok (mapError_eq_ok.mp hscan)
  have hplain : Plain (dropComments ls') := by
    intro l hl
    obtain ⟨hmem, hcomment⟩ := List.mem_filter.mp hl
    exact ⟨(hls' l hmem).1, (Bool.not_eq_true' _).mp hcomment⟩
  have hdrop : parse (ls' ++ [⟨.eof, pos⟩]) = parse (dropComments ls' ++ [⟨.eof, pos⟩]) := by
    simp only [parse, dropComments, List.filter_append, List.filter_filter, Bool.and_self]
  rw [hdrop] at hparse
  obtain ⟨d, htokens, -, rfl⟩ := exists_derivation_of_parse hplain (mapError_eq_ok.mp hparse)
  refine d.isLegible fun l hl ↦ ?_
  rw [htokens] at hl
  exact (hls' l (List.mem_filter.mp hl).1).2

/-- A program read from a text whose doubles are finite can be written as it is. -/
theorem isLegible_of_parseSource {source : String} {p : Program} (h : parseSource source = .ok p)
    (hfinite : ∀ d, .double d ∈ p.literals → d.isFinite = true) : p.IsUnsigned := by
  refine (isScanned_of_parseSource h).of_literals fun v hv hscanned ↦ ?_
  refine hscanned.isUnsigned ?_
  rintro d rfl
  exact hfinite d hv

/-- The text of a program that was read and has only finite doubles is scanned without a failure.
Parsing its tokens fails only because they nest too deep, and otherwise gives the same program in
other places. -/
theorem parse_tokenize_text (source : String) (p : Program) (h : parseSource source = .ok p)
    (hfinite : ∀ d, .double d ∈ p.literals → d.isFinite = true) :
    ∃ ls, tokenize p.text = .ok ls ∧
      ((∃ pos, parse ls = .error ⟨pos, .nestingTooDeep⟩) ∨
        ∃ p', parse ls = .ok p' ∧ p'.unplaced = p.unplaced) := by
  have hlegible := isLegible_of_parseSource h hfinite
  obtain ⟨ls, last, htokens, hplain, hscan⟩ := hlegible.lexes.tokenize
  obtain ⟨d, rfl, htree⟩ := hlegible.derivable htokens
  obtain ⟨hok, hdeep⟩ := parse_tokens d hplain last
  refine ⟨_, hscan, ?_⟩
  by_cases hdepth : d.depth ≤ maxNesting
  · exact .inr ⟨d.tree, hok hdepth, htree⟩
  · exact .inl (hdeep hdepth)

/-- A product of differences, with more blanks and parentheses than printing leaves. -/
def differencesSource : String :=
  "double f(a: double) \x7b return ((a - 2.5)) * (a -  (1.0 - a)) \x7d"

def differencesTokens : List Lexeme :=
  [⟨.keyword .doubleKw, ⟨1, 1⟩⟩, ⟨.ident "f", ⟨1, 8⟩⟩, ⟨.punct .lparen, ⟨1, 9⟩⟩,
    ⟨.ident "a", ⟨1, 10⟩⟩, ⟨.punct .colon, ⟨1, 11⟩⟩, ⟨.keyword .doubleKw, ⟨1, 13⟩⟩,
    ⟨.punct .rparen, ⟨1, 19⟩⟩, ⟨.punct .lbrace, ⟨1, 21⟩⟩, ⟨.keyword .returnKw, ⟨1, 23⟩⟩,
    ⟨.punct .lparen, ⟨1, 30⟩⟩, ⟨.punct .lparen, ⟨1, 31⟩⟩, ⟨.ident "a", ⟨1, 32⟩⟩,
    ⟨.punct .minus, ⟨1, 34⟩⟩, ⟨.lit (.double 2.5), ⟨1, 36⟩⟩, ⟨.punct .rparen, ⟨1, 39⟩⟩,
    ⟨.punct .rparen, ⟨1, 40⟩⟩, ⟨.punct .star, ⟨1, 42⟩⟩, ⟨.punct .lparen, ⟨1, 44⟩⟩,
    ⟨.ident "a", ⟨1, 45⟩⟩, ⟨.punct .minus, ⟨1, 47⟩⟩, ⟨.punct .lparen, ⟨1, 50⟩⟩,
    ⟨.lit (.double 1.0), ⟨1, 51⟩⟩, ⟨.punct .minus, ⟨1, 55⟩⟩, ⟨.ident "a", ⟨1, 57⟩⟩,
    ⟨.punct .rparen, ⟨1, 58⟩⟩, ⟨.punct .rparen, ⟨1, 59⟩⟩, ⟨.punct .rbrace, ⟨1, 61⟩⟩,
    ⟨.eof, ⟨1, 62⟩⟩]

def differencesProgram : Program :=
  ⟨[], [⟨⟨"f", ⟨1, 8⟩⟩, ⟨.double, false, ⟨1, 1⟩⟩, [⟨⟨"a", ⟨1, 10⟩⟩, ⟨.double, false, ⟨1, 13⟩⟩⟩],
    [.ret ⟨1, 23⟩
      (.binary .mul ⟨1, 42⟩
        (.binary .sub ⟨1, 34⟩ (.path (.root ⟨"a", ⟨1, 32⟩⟩ none)) (.lit (.double 2.5) ⟨1, 36⟩))
        (.binary .sub ⟨1, 47⟩ (.path (.root ⟨"a", ⟨1, 45⟩⟩ none))
          (.binary .sub ⟨1, 55⟩ (.lit (.double 1.0) ⟨1, 51⟩)
            (.path (.root ⟨"a", ⟨1, 57⟩⟩ none)))))]⟩]⟩

theorem parseSource_differencesSource : parseSource differencesSource = .ok differencesProgram := by
  have hscan : tokenize differencesSource = .ok differencesTokens := by decide +kernel
  have hparse : parse differencesTokens = .ok differencesProgram := by rfl
  exact bind_eq_ok.mpr ⟨differencesTokens, mapError_eq_ok.mpr hscan, mapError_eq_ok.mpr hparse⟩

theorem isFinite_differencesProgram :
    ∀ d, .double d ∈ differencesProgram.literals → d.isFinite = true := by
  have hliterals : differencesProgram.literals = [.double 2.5, .double 1.0] := by rfl
  intro d hd
  rw [hliterals] at hd
  rcases List.mem_pair.mp hd with h | h <;> cases h <;> decide

/-- What has been scanned of an accepted text is parsed. -/
theorem parse_of_parseSource_isOk {source : String} {ls : List Lexeme}
    (hok : (parseSource source).isOk = true) (hscan : tokenize source = .ok ls) :
    ∃ p, parse ls = .ok p := by
  obtain ⟨p, hp⟩ := eq_ok_of_isOk hok
  obtain ⟨ls', hscan', hparse⟩ := bind_eq_ok.mp hp
  obtain rfl : ls = ls' := Except.ok.inj (hscan.symm.trans (mapError_eq_ok.mp hscan'))
  exact ⟨p, mapError_eq_ok.mp hparse⟩

/-- The text of the program is not nested too deep, so that it is read back. -/
theorem parse_tokenize_text_differences :
    parseSource differencesSource = .ok differencesProgram ∧
    (∀ d, .double d ∈ differencesProgram.literals → d.isFinite = true) ∧
    ∃ ls p', tokenize differencesProgram.text = .ok ls ∧ parse ls = .ok p' ∧
      p'.unplaced = differencesProgram.unplaced := by
  refine ⟨parseSource_differencesSource, isFinite_differencesProgram, ?_⟩
  obtain ⟨ls, hscan, hparse⟩ := parse_tokenize_text differencesSource differencesProgram
    parseSource_differencesSource isFinite_differencesProgram
  obtain ⟨p, hp⟩ := parse_of_parseSource_isOk (by decide +kernel) hscan
  rcases hparse with ⟨pos, hdeep⟩ | ⟨p', hp', hsame⟩
  · cases hdeep.symm.trans hp
  · exact ⟨ls, p', hscan, hp', hsame⟩

end Pebble
