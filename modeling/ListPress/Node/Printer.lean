import ListPress.Node.Sequence
import ListPress.Number.Layout

/-! # The printed form of a node

Printing never fails: what lies too deep is cut to `...`, and so is a chain that is too long. The
printer goes along a chain by itself and writes each entry where it meets the cell. -/

namespace ListPress

/-- Numbers are positional from a millionth up to 21 digits, and of two equally near decimals the
larger is written. -/
def printedNumber : NumberLayout where
  leastPlain := -6
  mostPlain := 20
  keepPoint := false
  signedZero := false
  tie := .up

def Binary64.print (x : Binary64) : String :=
  if x.isNaN then "NaN"
  else if x.isFinite then String.ofList (printedNumber.finite x)
  else if x.negative then "-Infinity"
  else "Infinity"

namespace Atom

def escapeChar : Char → List Char
  | '"' => ['\\', '"']
  | '\\' => ['\\', '\\']
  | '\n' => ['\\', 'n']
  | '\t' => ['\\', 't']
  | '\r' => ['\\', 'r']
  | c => [c]

def quoted (text : String) : String :=
  String.ofList ('"' :: text.toList.flatMap escapeChar ++ ['"'])

def print : Atom → String
  | .string text => quoted text
  | .symbol name => name
  | .number value => value.print
  | .bool true => "#t"
  | .bool false => "#f"

end Atom

namespace Heap

/-- Write on after the first entries of a chain. So many more cells may be written, and one more
behind them is cut. -/
def printTail (h : Heap) (print : Node → String) : (cells : Nat) → Node → (text : String) → String
  | _, .nil, text => text
  | 0, .cell _, text => text ++ " ..."
  | cells + 1, .cell id, text =>
    h.printTail print cells (h.tail id) (text ++ " " ++ print (h.head id))
  | _, ending, text => text ++ " . " ++ print ending

/-- Print a node with `levels` levels left, its own among them. -/
def printAt (h : Heap) : (levels : Nat) → Node → String
  | 0, _ => "..."
  | _ + 1, .atom a => a.print
  | _ + 1, .nil => "()"
  | levels + 1, .list items => "(" ++ " ".intercalate (items.map (h.printAt levels)) ++ ")"
  | levels + 1, .cell id =>
    let first := "(" ++ h.printAt levels (h.head id)
    h.printTail (h.printAt levels) (maxChain - 1) (h.tail id) first ++ ")"

def print (h : Heap) (node : Node) : String := h.printAt (maxNesting + 1) node

/-- The text a node stands for: strings and symbols their own, booleans a word, the rest as
printed. -/
def stringOf (h : Heap) : Node → String
  | .atom (.string text) => text
  | .atom (.symbol name) => name
  | .atom (.bool b) => if b then "true" else "false"
  | .atom (.number x) => x.print
  | node => h.print node

end Heap
end ListPress
