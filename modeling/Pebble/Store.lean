import Pebble.Value

/-!
# The store

Records and arrays live in one store. Objects are numbered from 1 in order of allocation and are
never removed, so a reference names the same object for ever.

References are natural numbers, and there is always another one. With a counter of 32 bits this is
so as long as there are fewer than `2 ^ 32 - 1` objects, and only up to there does the store stand for
two maps with such a counter (`Heap.Represents`).
-/

namespace Pebble

/-- The kinds of objects. -/
inductive Obj.Kind where
  | record | array
deriving DecidableEq, Repr

def Obj.Kind.name : Obj.Kind → String
  | record => "struct"
  | array => "array"

/-- The fields of a record that have been set, each name once. -/
abbrev Fields := List (String × Value)

namespace Fields

/-- The value of a field. -/
def get? (fs : Fields) (x : String) : Option Value :=
  List.lookup x fs

/-- Sets a field, which keeps its place if it has one. -/
def set (x : String) (v : Value) : Fields → Fields
  | [] => [(x, v)]
  | (y, w) :: fs => if y = x then (x, v) :: fs else (y, w) :: set x v fs

end Fields

/-- What a reference refers to. -/
inductive Obj where
  | record (fields : Fields)
  | array (cells : Array Value)

namespace Obj

def kind : Obj → Kind
  | record _ => .record
  | array _ => .array

end Obj

/-- Why the store cannot do what is asked. -/
inductive StoreFault where
  /-- The reference names no object of this kind. -/
  | noSuchObject (kind : Obj.Kind) (r : Nat)
  /-- There is no room for so many cells. -/
  | outOfMemory (size : Nat)
deriving DecidableEq, Repr

def StoreFault.message : StoreFault → String
  | noSuchObject kind r => "invalid " ++ kind.name ++ " object id " ++ toString r
  | outOfMemory size => "out of memory allocating an array of length " ++ toString size

/-- All objects; reference `n + 1` is the object at index `n`. -/
structure Store where
  /-- The objects in order of allocation. -/
  objects : Array Obj

namespace Store

def empty : Store := ⟨#[]⟩

/-- The most cells that fit into an address space of 47 bits, at 24 bytes each. -/
def maxCells : Nat := 1 <<< 47 / 24

/-- The reference the next object gets. -/
def next (s : Store) : Nat :=
  s.objects.size + 1

/-- Adds an object, under the reference `next`. -/
def add (s : Store) (o : Obj) : Store :=
  ⟨s.objects.push o⟩

/-- The object a reference names. -/
def get? (s : Store) : Nat → Option Obj
  | 0 => none
  | n + 1 => s.objects[n]?

/-- Changes the object a reference names. -/
def update (s : Store) (r : Nat) (f : Obj → Obj) : Store :=
  match r with
  | 0 => s
  | n + 1 => ⟨s.objects.modify n f⟩

/-- An array of `size` nulls, where the memory has room for `memory` cells. -/
def newArray (size : Nat) (memory : Nat := maxCells) : Except StoreFault Obj :=
  if memory < size then .error (.outOfMemory size)
  else .ok (.array (Array.replicate size .null))

/-- The fields of a record. -/
def fields (s : Store) (r : Nat) : Except StoreFault Fields :=
  match s.get? r with
  | some (.record fs) => .ok fs
  | _ => .error (.noSuchObject .record r)

/-- The cells of an array. -/
def cells (s : Store) (r : Nat) : Except StoreFault (Array Value) :=
  match s.get? r with
  | some (.array vs) => .ok vs
  | _ => .error (.noSuchObject .array r)

/-- Sets a field of a record. -/
def setField (s : Store) (r : Nat) (x : String) (v : Value) : Store :=
  s.update r fun
    | .record fs => .record (fs.set x v)
    | o => o

/-- Sets a cell of an array. -/
def setCell (s : Store) (r i : Nat) (v : Value) : Store :=
  s.update r fun
    | .array vs => .array (vs.setIfInBounds i v)
    | o => o

/-- How many objects of a kind there are. -/
def count (s : Store) (k : Obj.Kind) : Nat :=
  s.objects.countP (·.kind = k)

end Store

end Pebble
