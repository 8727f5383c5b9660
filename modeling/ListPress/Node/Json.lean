import ListPress.Json.Parser
import ListPress.Node.Sequence

/-! # Nodes as JSON

Symbols are objects with the single field `symbol`; array lists and chains are both arrays, so the
end of a chain is lost. -/

namespace ListPress

/-- Why a JSON value is not a node. -/
inductive JsonNodeError where
  | notSymbol
  | malformed (error : StructureError)
deriving DecidableEq

def JsonNodeError.message : JsonNodeError → String
  | .notSymbol =>
    "invalid JSON node: objects must have the form \x7b\"symbol\": name\x7d"
  | .malformed error => "invalid JSON node: " ++ error.message

/-- Why a text is not the JSON of a node. -/
inductive JsonTextError where
  | malformed
  | notNode (error : JsonNodeError)
deriving DecidableEq

def JsonTextError.message : JsonTextError → String
  | .malformed => "invalid JSON"
  | .notNode error => error.message

namespace Node

/-- The node of a JSON value with `levels` levels left. -/
def ofJsonAt : (levels : Nat) → Json → Except JsonNodeError Node
  | 0, _ => .error (.malformed .nestingTooDeep)
  | _ + 1, .null => .ok .nil
  | _ + 1, .bool b => .ok (.atom (.bool b))
  | _ + 1, .integer n => .ok (.atom (.number (.ofRatio (n < 0) n.natAbs 1)))
  | _ + 1, .double x => .ok (.atom (.number x))
  | _ + 1, .string text => .ok (.string text)
  | levels + 1, .array items => .list <$> items.mapM (ofJsonAt levels)
  | _ + 1, .object [("symbol", .string name)] => .ok (.symbol name)
  | _ + 1, .object _ => .error .notSymbol

def ofJson (value : Json) : Except JsonNodeError Node := ofJsonAt (maxNesting + 1) value

/-- The node of a JSON text. What follows the value is looked at only if the value is a node. -/
def ofJsonText (text : String) : Except JsonTextError Node :=
  match Json.parseFront? text with
  | none => .error .malformed
  | some (value, rest) =>
    match ofJson value with
    | .error e => .error (.notNode e)
    | .ok node => if Json.skip rest = [] then .ok node else .error .malformed

end Node

/-- What is not a finite number becomes null. -/
def Atom.toJson : Atom → Json
  | .string text => .string text
  | .symbol name => .object [("symbol", .string name)]
  | .number x => if x.isFinite then .double x else .null
  | .bool b => .bool b

namespace Heap

def toJsonAt (h : Heap) : (levels : Nat) → Node → Except StructureError Json
  | 0, _ => .error .nestingTooDeep
  | _ + 1, .atom a => .ok a.toJson
  | _ + 1, .nil => .ok .null
  | levels + 1, node => do
    let items ← h.sequence node
    .array <$> items.mapM (h.toJsonAt levels)

def toJson (h : Heap) (node : Node) : Except StructureError Json :=
  h.toJsonAt (maxNesting + 1) node

end Heap
end ListPress
