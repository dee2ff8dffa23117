import Mathlib.Tactic.Common
import Pebble.Proofs.ParsedDerivations
import Pebble.Proofs.ReadDerivations
import Pebble.Proofs.Spans
import Pebble.Proofs.Unambiguity

/-!
# The parser accepts the grammar

The parser answers a tree exactly if the tokens before the end mark have a derivation that does not
nest too deep, and then the tree is the derivation's. One direction is what the readers consume, the
other that derivations are read; that there is only one derivation is the grammar's own property.
-/

namespace Pebble

/-- Tokens up to their only end mark, none of them a comment. -/
def Plain (ls : List Lexeme) : Prop :=
  ∀ l ∈ ls, l.token ≠ .eof ∧ l.token.isComment = false

instance (ls : List Lexeme) : Decidable (Plain ls) :=
  inferInstanceAs (Decidable (∀ l ∈ ls, _))

section
variable {ls : List Lexeme} {pos : Pos} {p : Program}

theorem parse_append_eof (h : Plain ls) :
    parse (ls ++ [⟨.eof, pos⟩]) =
      (Parser.program.run ⟨ls ++ [⟨.eof, pos⟩], none⟩).map (·.1) := by
  have hkeep : ∀ l ∈ ls ++ [⟨.eof, pos⟩], (!l.token.isComment) = true := by
    intro l hl
    rcases List.mem_append.mp hl with hl | hl
    · rw [(h l hl).2]
      rfl
    · rw [List.mem_singleton.mp hl]
      rfl
  rw [parse, dropComments, List.filter_eq_self.mpr hkeep]
  rfl

/-- The tokens that precede the end mark are those before the first one. -/
theorem eq_of_append_eq {ls' rest : List Lexeme} (hls : ∀ l ∈ ls, l.token ≠ .eof)
    (hls' : ∀ l ∈ ls', l.token ≠ .eof) (hrest : (Derivation.front rest).getD .eof = .eof)
    (h : ls ++ [⟨.eof, pos⟩] = ls' ++ rest) : ls = ls' := by
  induction ls generalizing ls' with
  | nil =>
    cases ls' with
    | nil => rfl
    | cons l' ls' =>
      obtain ⟨rfl, -⟩ := List.cons.inj h
      exact absurd rfl (hls' _ List.mem_cons_self)
  | cons l ls ih =>
    obtain ⟨hl, hls⟩ := List.forall_mem_cons.mp hls
    cases ls' with
    | nil =>
      rw [← List.nil_append rest, ← h] at hrest
      exact absurd hrest hl
    | cons l' ls' =>
      obtain ⟨rfl, htail⟩ := List.cons.inj h
      rw [ih hls (List.forall_mem_cons.mp hls').2 htail]

/-- An accepted program is the tree of a derivation. -/
theorem exists_derivation_of_parse (h : Plain ls) (hparse : parse (ls ++ [⟨.eof, pos⟩]) = .ok p) :
    ∃ d : Derivation.Program, d.tokens = ls ∧ d.depth ≤ maxNesting ∧ d.tree = p := by
  rw [parse_append_eof h] at hparse
  obtain ⟨⟨p', c'⟩, hrun, rfl⟩ := map_eq_ok.mp hparse
  obtain ⟨ls', hrest, hne, d, hdepth, rfl, rfl⟩ := Parser.consumes_program p' c' hrun
  have hls : ls = d.tokens :=
    eq_of_append_eq (fun l hl ↦ (h l hl).1) hne (Parser.program_stops hrun) hrest
  exact ⟨d, hls.symm, hdepth, rfl⟩

/-- An accepted program is the tree of a derivation, whatever tokens follow the first end mark. -/
theorem derivation_of_parse (hparse : parse ls = .ok p) :
    ∃ d : Derivation.Program, d.depth ≤ maxNesting ∧ d.tree = p := by
  obtain ⟨⟨p', c'⟩, hrun, rfl⟩ := map_eq_ok.mp hparse
  obtain ⟨_, _, _, d, hdepth, _, htree⟩ := Parser.consumes_program p' c' hrun
  exact ⟨d, hdepth, htree⟩

/-- A derivation is read, or found to nest too deep. -/
theorem parse_tokens (d : Derivation.Program) (h : Plain d.tokens) (pos : Pos) :
    (d.depth ≤ maxNesting → parse (d.tokens ++ [⟨.eof, pos⟩]) = .ok d.tree) ∧
    (¬d.depth ≤ maxNesting →
      ∃ deep, parse (d.tokens ++ [⟨.eof, pos⟩]) = .error ⟨deep, .nestingTooDeep⟩) := by
  have hreads : Parser.Reads Parser.program (d.tokens ++ [⟨.eof, pos⟩]) (d.depth ≤ maxNesting)
      d.tree [⟨.eof, pos⟩] := Parser.reads_program d rfl
  rw [parse_append_eof h]
  refine ⟨fun hdepth ↦ ?_, fun hdepth ↦ ?_⟩
  · obtain ⟨last, hrun⟩ := (hreads none).1 hdepth
    rw [hrun]
    rfl
  · obtain ⟨deep, hrun⟩ := (hreads none).2 hdepth
    rw [hrun]
    exact ⟨deep, rfl⟩

end

/-- The parser accepts exactly the programs of the grammar that nest at most 128 deep, and answers
the tree of the derivation, of which there is only one. The names, literals, types, operators and
returns of each definition stand in the tree with the places of their tokens. -/
theorem parse_eq_ok_iff_derivation (ls : List Lexeme) (pos : Pos) (h : Plain ls) :
    (∀ p, parse (ls ++ [⟨.eof, pos⟩]) = .ok p ↔
      ∃ d : Derivation.Program, d.tokens = ls ∧ d.depth ≤ 128 ∧ d.tree = p) ∧
    (∀ d d' : Derivation.Program, d.tokens = ls → d'.tokens = ls → d = d') ∧
    ∀ p, parse (ls ++ [⟨.eof, pos⟩]) = .ok p →
      (p.structs.flatMap StructDef.marks).Sublist ls ∧
      (p.functions.flatMap FunDef.marks).Sublist ls := by
  refine ⟨fun p ↦ ⟨exists_derivation_of_parse h, ?_⟩, fun d d' hd hd' ↦ ?_, fun p hparse ↦ ?_⟩
  · rintro ⟨d, rfl, hdepth, rfl⟩
    exact (parse_tokens d h pos).1 hdepth
  · exact Derivation.Program.tokens_injective (hd.trans hd'.symm)
  · obtain ⟨d, rfl, -, rfl⟩ := exists_derivation_of_parse h hparse
    exact ⟨d.structMarks_sublist, d.functionMarks_sublist⟩

/-- `void f() { if not a + b * c { } else if d { return e } }`, each token in its own column. -/
def branchingTokens : List Lexeme :=
  ([.keyword .voidKw, .ident "f", .punct .lparen, .punct .rparen, .punct .lbrace, .keyword .ifKw,
    .keyword .notKw, .ident "a", .punct .plus, .ident "b", .punct .star, .ident "c", .punct .lbrace,
    .punct .rbrace, .keyword .elseKw, .keyword .ifKw, .ident "d", .punct .lbrace,
    .keyword .returnKw, .ident "e", .punct .rbrace, .punct .rbrace] : List Token).mapIdx
      fun i t ↦ ⟨t, ⟨1, i + 1⟩⟩

/-- The sum of a negation and a product decides, and the second condition is a branch of the first
`if`. -/
theorem parse_eq_ok_iff_derivation_branching :
    Plain branchingTokens ∧ ∃ d : Derivation.Program, d.tokens = branchingTokens ∧ d.depth ≤ 128 ∧
      d.tree = ⟨[], [⟨⟨"f", ⟨1, 2⟩⟩, ⟨.void, false, ⟨1, 1⟩⟩, [],
        [.ifElse
          (.binary .add ⟨1, 9⟩ (.not ⟨1, 7⟩ (.path (.root ⟨"a", ⟨1, 8⟩⟩ none)))
            (.binary .mul ⟨1, 11⟩ (.path (.root ⟨"b", ⟨1, 10⟩⟩ none))
              (.path (.root ⟨"c", ⟨1, 12⟩⟩ none))))
          [] (.elseIf (.path (.root ⟨"d", ⟨1, 17⟩⟩ none))
            [.ret ⟨1, 19⟩ (.path (.root ⟨"e", ⟨1, 20⟩⟩ none))] .none)]⟩]⟩ :=
  ⟨by decide, ((parse_eq_ok_iff_derivation branchingTokens ⟨1, 23⟩ (by decide)).1 _).mp (by rfl)⟩

end Pebble
