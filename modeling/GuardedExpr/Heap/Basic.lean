import GuardedExpr.Table
import GuardedExpr.Value

/-!
The heap: every list, tuple, mapping and object is a cell that references point to. Cells are only
added and overwritten, never removed. A reference without a cell is no object of the expression language;
reading it gives a module, which no expression may refer to.
-/

namespace GuardedExpr

/-- A part of a mapping key. Keys are equal exactly if the values they stand for count as the same key:
numbers are compared as numbers, so that 1, 1.0 and true coincide, and tuples item by item. -/
inductive KeyPart where
  | null
  | int (n : Int)
  | float (x : Double)
  | text (t : Text)
  | identity (r : Ref)
  | primitive (p : Primitive)
  | constructor (c : Constructor)
  | method (m : Method)
  /-- Opens a tuple, whose items follow. -/
  | tuple (length : Nat)
  deriving DecidableEq

abbrev Key := List KeyPart

/-- Entries of a mapping. The key is shown as it was first written. -/
abbrev Entries := Table Key (Value × Value)

abbrev Fields := Table Text Value

inductive MappingKind where
  | plain
  /-- A mapping that is the global namespace of the host. -/
  | global
  | readOnly
  deriving DecidableEq

inductive ObjectClass where
  | box
  /-- Counts in its attribute n and has a method that adds to it. -/
  | counter
  | record
  /-- Objects of the next two classes refuse new attributes. -/
  | frozen
  | locked
  /-- Marked as a node of the host document. -/
  | element
  /-- Marked as the global namespace of the host. -/
  | global
  | bare
  deriving DecidableEq

inductive Behaviour where
  /-- Returns a new list of the arguments. -/
  | collect
  /-- Returns the first argument. -/
  | first
  /-- Returns a new mapping. -/
  | fresh
  /-- Returns the same value every time. -/
  | constant (value : Value)
  /-- Returns the items of a container one by one as they are at each call. Past the last one there is no
  next position any more, and it returns null for good. -/
  | sequence (container : Value) (next : Option Nat)
  /-- Stores a value in a registered mapping and returns the first argument. -/
  | put (key value : Value) (target : Text)
  /-- Fails with a message. -/
  | fail (message : Text)
  /-- Evaluates an expression against a registered scope. Every evaluation marks the values of its source
  alike, from the given mark on. -/
  | evaluate (source : Text) (marks : Nat) (scope : Text)
  deriving DecidableEq

inductive Cell where
  | list (items : List Value)
  | tuple (items : List Value)
  | mapping (kind : MappingKind) (entries : Entries)
  | object (cls : ObjectClass) (fields : Fields)
  | function (name : Text) (behaviour : Behaviour) (fields : Fields)
  /-- A class of its own, whose instances also see its attributes. -/
  | userClass (fields : Fields)
  | userInstance (cls : Ref) (fields : Fields)
  | module (fields : Fields)
  deriving DecidableEq

instance : Inhabited Cell := ⟨.module []⟩

/-- All cells; the reference of a cell is its index. -/
structure Heap where
  cells : Array Cell

namespace Heap

def empty : Heap := ⟨#[]⟩

def size (h : Heap) : Nat := h.cells.size

def cell (h : Heap) (r : Ref) : Cell := h.cells.getD r default

def alloc (h : Heap) (c : Cell) : Ref × Heap := (h.cells.size, ⟨h.cells.push c⟩)

def put (h : Heap) (r : Ref) (c : Cell) : Heap := ⟨h.cells.setIfInBounds r c⟩

theorem size_alloc (h : Heap) (c : Cell) : (h.alloc c).2.size = h.size + 1 := by
  simp [alloc, size]

theorem cell_alloc_new (h : Heap) (c : Cell) : (h.alloc c).2.cell (h.alloc c).1 = c := by
  simp [alloc, cell, Array.getD]

/-- Making a cell changes no other cell. -/
theorem cell_alloc_old (h : Heap) (c : Cell) {r : Ref} (inside : r < h.size) :
    (h.alloc c).2.cell r = h.cell r := by
  have bound : r < h.cells.size := inside
  simp [alloc, cell, Array.getD_eq_getD_getElem?, Array.getElem?_push_lt bound, bound]

theorem size_put (h : Heap) (r : Ref) (c : Cell) : (h.put r c).size = h.size := by
  simp [put, size]

theorem cell_put_same (h : Heap) {r : Ref} (c : Cell) (inside : r < h.size) : (h.put r c).cell r = c := by
  have bound : r < h.cells.size := inside
  simp [put, cell, Array.getD, bound]

theorem cell_put_other (h : Heap) {r s : Ref} (c : Cell) (different : s ≠ r) :
    (h.put r c).cell s = h.cell s := by
  simp [put, cell, Array.getD_eq_getD_getElem?, Array.getElem?_setIfInBounds_ne (Ne.symm different)]

theorem cell_outside (h : Heap) {r : Ref} (outside : h.size ≤ r) : h.cell r = .module [] := by
  have absent : h.cells.size ≤ r := outside
  simp [cell, Array.getD_eq_getD_getElem?, absent, default]

def entries? (h : Heap) : Value → Option Entries
  | .ref r => match h.cell r with
    | .mapping _ entries => some entries
    | _ => none
  | _ => none

def items? (h : Heap) : Value → Option (List Value)
  | .ref r => match h.cell r with
    | .list items => some items
    | .tuple items => some items
    | _ => none
  | _ => none

/-- The items that a value yields one by one: the characters of a text, the keys of a mapping. -/
def yielded? (h : Heap) (v : Value) : Option (List Value) :=
  match v.plain with
  | .text t => some (t.map fun c => .text [c])
  | _ => match h.entries? v with
    | some entries => some (entries.map fun entry => entry.2.1)
    | none => h.items? v

end Heap

end GuardedExpr
