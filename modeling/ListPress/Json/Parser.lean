import ListPress.Json.Token

/-! # Parsing JSON

The parser goes over the tokens once, with a stack of the arrays and objects that are still open.
`parse?` takes a whole text; `texts` takes an object of strings and tells text that is not JSON
from JSON of another shape, whichever it meets first. -/

namespace ListPress
namespace Json

/-- The most arrays and objects that may be open at once. -/
def maxOpen : Nat := 127

/-- An open array or object that waits for a value, with what it has so far. -/
inductive Frame where
  /-- The last item comes first. -/
  | array (seen : List Json)
  | field (fields : List (String × Json)) (name : String)

/-- What the parser waits for. -/
inductive Mode where
  | value
  | firstItem
  | afterItem (seen : List Json)
  | firstName
  | name (fields : List (String × Json))
  | colon (fields : List (String × Json)) (name : String)
  | afterField (fields : List (String × Json))

inductive Step where
  | done (value : Json)
  | next (mode : Mode) (stack : List Frame)
  | fail

/-- Of two fields with one name the later one counts. -/
def putField (fields : List (String × Json)) (name : String) (value : Json) :
    List (String × Json) :=
  fields.filter (·.1 != name) ++ [(name, value)]

/-- Hand a finished value to the innermost open array or object. -/
def deliver (value : Json) : List Frame → Step
  | [] => .done value
  | .array seen :: stack => .next (.afterItem (value :: seen)) stack
  | .field fields name :: stack => .next (.afterField (putField fields name value)) stack

def begin (stack : List Frame) : Token → Step
  | .scalar value => deliver value stack
  | .mark '[' => if maxOpen ≤ stack.length then .fail else .next .firstItem stack
  | .mark '{' => if maxOpen ≤ stack.length then .fail else .next .firstName stack
  | _ => .fail

def step (stack : List Frame) : Mode → Token → Step
  | .value, token => begin stack token
  | .firstItem, .mark ']' => deliver (.array []) stack
  | .firstItem, token => begin (.array [] :: stack) token
  | .afterItem seen, .mark ',' => .next .value (.array seen :: stack)
  | .afterItem seen, .mark ']' => deliver (.array seen.reverse) stack
  | .firstName, .mark '}' => deliver (.object []) stack
  | .firstName, .scalar (.string name) => .next (.colon [] name) stack
  | .name fields, .scalar (.string name) => .next (.colon fields name) stack
  | .colon fields name, .mark ':' => .next .value (.field fields name :: stack)
  | .afterField fields, .mark ',' => .next (.name fields) stack
  | .afterField fields, .mark '}' => deliver (.object fields) stack
  | _, _ => .fail

theorem step_finish (stack : List Frame) (mode : Mode) : step stack mode .finish = .fail := by
  cases mode <;> rfl

/-- Parse on until the value that the stack waits for is finished, and return it with what is left
of the text. -/
def run (mode : Mode) (stack : List Frame) (cs : List Char) : Option (Json × List Char) :=
  match _hs : scan? cs with
  | none => none
  | some (token, rest) =>
    match _h : step stack mode token with
    | .done value => some (value, rest)
    | .fail => none
    | .next mode stack => run mode stack rest
termination_by cs.length
decreasing_by
  refine scan?_rest_lt _hs ?_
  rintro rfl
  simp [step_finish] at _h

/-- The value that a text starts with, and the text after it. None if there is no value, or one with
too many open arrays and objects, or with a number too large. -/
def parseFront? (text : String) : Option (Json × List Char) := run .value [] text.toList

/-- The value of a JSON text. -/
def parse? (text : String) : Option Json := do
  let (value, rest) ← parseFront? text
  if skip rest = [] then some value else none

/-! ## Objects of strings -/

inductive TextsError where
  /-- Not JSON. -/
  | malformed
  /-- Not an object, or a field that is not a string. -/
  | mistyped
deriving DecidableEq

/-- What a token that starts a value of another type tells. -/
def unfit : Option (Token × List Char) → TextsError
  | some (.scalar _, _) | some (.mark '[', _) | some (.mark '{', _) => .mistyped
  | _ => .malformed

/-- A name, a colon and a string. -/
def textField (cs : List Char) : Except TextsError ((String × String) × List Char) :=
  match scan? cs with
  | some (.scalar (.string name), cs) =>
    match scan? cs with
    | some (.mark ':', cs) =>
      match scan? cs with
      | some (.scalar (.string text), cs) => .ok ((name, text), cs)
      | other => .error (unfit other)
    | _ => .error .malformed
  | _ => .error .malformed

theorem textField_rest_lt {cs field rest} (H : textField cs = .ok (field, rest)) :
    rest.length < cs.length := by
  unfold textField at H
  split at H
  · next h₁ =>
    split at H
    · next h₂ =>
      split at H
      · next h₃ =>
        have := scan?_rest_lt h₁ nofun
        have := scan?_rest_lt h₂ nofun
        have := scan?_rest_lt h₃ nofun
        grind
      · cases H
    · cases H
  · cases H

/-- The fields of an object up to its closing brace, after those `seen`, the last one first. -/
def textFields (cs : List Char) (seen : List (String × String)) :
    Except TextsError (List (String × String) × List Char) :=
  match _h : textField cs with
  | .error e => .error e
  | .ok (field, rest) =>
    match _hs : scan? rest with
    | some (.mark ',', rest) => textFields rest (field :: seen)
    | some (.mark '}', rest) => .ok ((field :: seen).reverse, rest)
    | _ => .error .malformed
termination_by cs.length
decreasing_by
  have := textField_rest_lt _h
  have := scan?_rest_lt _hs nofun
  omega

/-- The fields of an object of strings, in order. -/
def texts (text : String) : Except TextsError (List (String × String)) := do
  let (fields, rest) ← match scan? text.toList with
    | some (.mark '{', cs) =>
      match scan? cs with
      | some (.mark '}', rest) => .ok ([], rest)
      | _ => textFields cs []
    | other => .error (unfit other)
  if skip rest = [] then .ok fields else .error .malformed

end Json
end ListPress
