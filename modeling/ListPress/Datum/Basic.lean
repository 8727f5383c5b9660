import ListPress.Node.Basic

/-! # Data

A datum is a finite expression as it is read: cells are compared by content and have no identity.
They get one when the datum is stored in a heap. -/

namespace ListPress

inductive Datum where
  | atom (atom : Atom)
  | list (items : List Datum)
  | cons (head tail : Datum)
  | nil
deriving Inhabited

namespace Datum

def symbol (name : String) : Datum := .atom (.symbol name)

/-- A chain of cells in front of `tail`, from its heads in reverse. -/
def consReverse (heads : List Datum) (tail : Datum) : Datum :=
  heads.foldl (fun rest head => .cons head rest) tail

def chain (heads : List Datum) (tail : Datum) : Datum := consReverse heads.reverse tail

end Datum

namespace Heap

mutual
/-- Put a datum into the heap, with new cells for its chains. -/
def store (h : Heap) : Datum → Heap × Node
  | .atom a => (h, .atom a)
  | .nil => (h, .nil)
  | .list items => h.storeItems items []
  | .cons a b =>
    let (h, head) := h.store a
    h.storeTail b [head]

/-- Store the items of an array list after `seen`, the last one first. -/
def storeItems (h : Heap) : List Datum → (seen : List Node) → Heap × Node
  | [], seen => (h, .list seen.reverse)
  | item :: items, seen =>
    let (h, node) := h.store item
    h.storeItems items (node :: seen)

/-- Store the rest of a chain after `heads`, the last one first. -/
def storeTail (h : Heap) : Datum → (heads : List Node) → Heap × Node
  | .cons a b, heads =>
    let (h, head) := h.store a
    h.storeTail b (head :: heads)
  | .atom a, heads => h.allocOnto heads (.atom a)
  | .nil, heads => h.allocOnto heads .nil
  | .list items, heads =>
    let (h, tail) := h.storeItems items []
    h.allocOnto heads tail
end

end Heap
end ListPress
