/-!
# Slots for variables

While code is generated, every variable in scope has a slot of the frame. Slots are handed out in
order of declaration, and closing a scope gives its slots back.
-/

namespace Pebble

/-- The variables in scope and where each open scope began. -/
structure SlotTable where
  /-- The variables, the last one declared first. -/
  names : List String
  /-- How many variables there were when each open scope began, innermost first. -/
  marks : List Nat

namespace SlotTable

def empty : SlotTable := ⟨[], []⟩

/-- Opens a scope. -/
def push (t : SlotTable) : SlotTable :=
  { t with marks := t.names.length :: t.marks }

/-- Closes the innermost scope and forgets its variables. -/
def pop (t : SlotTable) : SlotTable :=
  match t.marks with
  | [] => t
  | mark :: marks => ⟨t.names.drop (t.names.length - mark), marks⟩

/-- The slot the next variable gets. -/
def next (t : SlotTable) : Nat :=
  t.names.length

/-- Gives a variable the next slot. -/
def declare (t : SlotTable) (x : String) : SlotTable :=
  { t with names := x :: t.names }

/-- The slot of the last variable with this name. It is the number of variables before it. -/
def slotIn? (x : String) : List String → Option Nat
  | [] => none
  | y :: ys => if y = x then some ys.length else slotIn? x ys

/-- The slot of the innermost variable with this name. -/
def slot? (t : SlotTable) (x : String) : Option Nat :=
  slotIn? x t.names

end SlotTable

end Pebble
