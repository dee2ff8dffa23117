import Pebble.Code
import Pebble.Text.Padding

/-!
# Listing code

Two texts for a template: bare lines, and a page with a head and a mark on every instruction that
a jump goes to. A page of several templates shows `main` first and the others by name.
-/

namespace Pebble

namespace Template

/-- One line per instruction. -/
def listing (t : Template) : String :=
  String.join (t.instrs.toList.zipIdx.map fun (i, index) ↦
    toString index ++ ": " ++ i.text ++ "\n")

/-- The lines of one instruction on a page. -/
def pageLine (targets : List Int) (index : Nat) (i : Instr) : String :=
  let isTarget := targets.contains (index : Int)
  (if isTarget then "      ┌──────────────────────────────────\n" else "") ++
    Text.padZeros 4 index ++ " " ++ (if isTarget then "► " else "  ") ++ i.text ++ "\n"

/-- A page for one template. -/
def page (t : Template) : String :=
  let rule := "════════════════════════════════════════\n"
  let targets := t.targets
  let size := t.instrs.size
  rule ++ " " ++ t.name ++ "\n " ++ toString size ++ " instructions\n" ++ rule ++
    String.join (t.instrs.toList.zipIdx.map fun (i, index) ↦ pageLine targets index i) ++
    (if targets.contains (size : Int) then Text.padZeros 4 size ++ " ► (end)\n" else "")

/-- The order of templates on a page: `main` first, then by name. -/
def pageOrder (a b : Template) : Bool :=
  if a.name = "main" then true
  else if b.name = "main" then false
  else a.name ≤ b.name

/-- A page for several templates. -/
def pages (ts : List Template) : String :=
  "=== BYTECODE PROGRAM ===\n\n" ++
    String.join ((ts.mergeSort pageOrder).map fun t ↦ t.page ++ "\n")

end Template

end Pebble
