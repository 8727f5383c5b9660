import ListPress.Node.Basic

/-! # The items of a node

Array lists and chains of cells are read alike, as a sequence of items. A chain is walked from tail
to tail, for at most `maxChain` cells, so the walk ends on circular chains too. -/

namespace ListPress

/-- The most cells a chain may have. -/
def maxChain : Nat := 65536

/-- The deepest level below the root that may be walked. -/
def maxNesting : Nat := 256

inductive StructureError where
  | chainTooLong
  | nestingTooDeep
deriving DecidableEq

def StructureError.message : StructureError → String
  | .chainTooLong => s!"malformed input: list chain exceeds {maxChain} cells"
  | .nestingTooDeep => s!"malformed input: nesting exceeds {maxNesting} levels"

/-- The heads of a chain, and the node that follows its last cell. -/
structure Chain where
  heads : List Node
  rest : Node

namespace Heap

/-- Walk over at most `limit` cells, after those whose heads are `seen`, the last one first. -/
def walk (h : Heap) : (limit : Nat) → Node → (seen : List Node) → Chain
  | limit + 1, .cell id, seen => h.walk limit (h.tail id) (h.head id :: seen)
  | _, node, seen => ⟨seen.reverse, node⟩

/-- The chain from a node on. A cell is left over when the chain is too long. -/
def chain (h : Heap) (node : Node) : Chain := h.walk maxChain node []

/-- The items of an array list or a chain. The end of a chain is not an item, and an atom has none. -/
def sequence (h : Heap) : Node → Except StructureError (List Node)
  | .list items => .ok items
  | .cell id =>
    match h.chain (.cell id) with
    | ⟨_, .cell _⟩ => .error .chainTooLong
    | ⟨heads, _⟩ => .ok heads
  | .atom _ | .nil => .ok []

def headOf (h : Heap) : Node → Option Node
  | .list items => items.head?
  | .cell id => some (h.head id)
  | .atom _ | .nil => none

end Heap
end ListPress
