import Pebble.Code

/-!
# Verifying templates

A template is fit to run when every jump has a target and goes to one of its instructions or to
its end.
-/

namespace Pebble

/-- What is wrong with a jump. -/
inductive VerifyError where
  | unpatched (template : String) (index : Nat)
  | outOfRange (template : String) (index : Nat) (target : Int) (size : Nat)
deriving DecidableEq

def VerifyError.message : VerifyError → String
  | unpatched template index =>
    "verify error: unpatched jump at " ++ template ++ ":" ++ toString index
  | outOfRange template index target size =>
    "verify error: jump at " ++ template ++ ":" ++ toString index ++ " targets " ++
      toString target ++ ", outside 0..=" ++ toString size

namespace Template

/-- What is wrong with the instruction at `index`. -/
def defect? (t : Template) (index : Nat) (i : Instr) : Option VerifyError :=
  match i.op.target? with
  | none => none
  | some target =>
    if target < 0 then some (.unpatched t.name index)
    else if (t.instrs.size : Int) < target then
      some (.outOfRange t.name index target t.instrs.size)
    else none

/-- Accepts a template all of whose jumps stay inside it, or names the first that does not. -/
def verify (t : Template) : Except VerifyError Unit :=
  match t.instrs.toList.zipIdx.findSome? fun (i, index) ↦ t.defect? index i with
  | none => .ok ()
  | some e => .error e

end Template

end Pebble
