import ListPress.Number.Binary64

/-! # Nodes and the heap of cells

A node is an atom, an array list, the empty node or a cell. Cells have an identity: their heads are
fixed, their tails can be replaced, and so chains can share cells or run in circles. The contents of
the cells are kept in a heap. -/

namespace ListPress

inductive Atom where
  | string (text : String)
  | symbol (name : String)
  | number (value : Binary64)
  | bool (value : Bool)
deriving DecidableEq, Inhabited

inductive Node where
  | atom (atom : Atom)
  | list (items : List Node)
  | cell (id : Nat)
  | nil
deriving Inhabited

structure Cell where
  head : Node
  tail : Node
deriving Inhabited

structure Heap where
  cells : Array Cell
deriving Inhabited

namespace Atom

/-- Equality by value, numbers by numeric equality. -/
def equal : Atom → Atom → Bool
  | .number x, .number y => x.equal y
  | a, b => a == b

end Atom

namespace Node

def string (text : String) : Node := .atom (.string text)

def symbol (name : String) : Node := .atom (.symbol name)

/-- The text of a string atom. -/
def string? : Node → Option String
  | .atom (.string text) => some text
  | _ => none

def isList : Node → Bool
  | .atom _ => false
  | _ => true

mutual
/-- Atoms are compared by value, array lists item by item, cells by identity. -/
def equal : Node → Node → Bool
  | .atom a, .atom b => a.equal b
  | .list xs, .list ys => equalItems xs ys
  | .cell i, .cell j => i == j
  | .nil, .nil => true
  | _, _ => false

def equalItems : List Node → List Node → Bool
  | [], [] => true
  | x :: xs, y :: ys => x.equal y && equalItems xs ys
  | _, _ => false
end

end Node

namespace Heap

def empty : Heap := ⟨#[]⟩

/-- The contents of a cell; one that was never allocated is empty. -/
def cell (h : Heap) (id : Nat) : Cell := h.cells.getD id ⟨.nil, .nil⟩

def head (h : Heap) (id : Nat) : Node := (h.cell id).head

def tail (h : Heap) (id : Nat) : Node := (h.cell id).tail

def alloc (h : Heap) (head tail : Node) : Heap × Node :=
  let id := h.cells.size
  (⟨h.cells.push ⟨head, tail⟩⟩, .cell id)

/-- Replace the tail of a cell, for everyone who holds the cell. -/
def setTail (h : Heap) (id : Nat) (tail : Node) : Heap :=
  ⟨h.cells.modify id fun c => { c with tail }⟩

/-- New cells for `heads`, the last head first, in front of `tail`. -/
def allocOnto (h : Heap) (heads : List Node) (tail : Node) : Heap × Node :=
  heads.foldl (fun (h, rest) head => h.alloc head rest) (h, tail)

end Heap
end ListPress
