/-!
# Positions in a source text

Lines and columns count from one. A column is a number of characters; only a line feed starts a
new line.
-/

namespace Pebble

/-- A line and a column, both counted from one. -/
structure Pos where
  line : Nat
  col : Nat
deriving DecidableEq, Repr, Inhabited

namespace Pos

/-- Where a text begins. -/
def start : Pos := ⟨1, 1⟩

/-- The position behind a character that stands at `p`. -/
def after (p : Pos) (c : Char) : Pos :=
  if c = '\n' then ⟨p.line + 1, 1⟩ else ⟨p.line, p.col + 1⟩

/-- The position behind a run of characters that begins at `p`. -/
def afterAll (p : Pos) (cs : List Char) : Pos :=
  cs.foldl after p

@[simp] theorem afterAll_nil (p : Pos) : p.afterAll [] = p := rfl

@[simp] theorem afterAll_cons (p : Pos) (c : Char) (cs : List Char) :
    p.afterAll (c :: cs) = (p.after c).afterAll cs := rfl

/-- A position as messages show it. -/
def text (p : Pos) : String :=
  s!"{p.line}:{p.col}"

end Pos

end Pebble
