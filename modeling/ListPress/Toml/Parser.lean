import ListPress.Toml.Scalar

/-! # Parsing TOML

Values are parsed with a stack of the arrays and inline tables that are still open. A document is a
list of statements, each on a line of its own, that build up the root table. The parsers count their
steps: a step takes a character off the text, or is followed by one that does, so twice the length
of the text and two are enough. -/

namespace ListPress
namespace Toml

/-- The most arrays and inline tables that may be open at once is one less. -/
def maxOpen : Nat := 80

/-- An open array or inline table that waits for a value. -/
inductive Frame where
  /-- The last item comes first. -/
  | array (seen : List Toml)
  | pair (entries : Entries) (path : List String) (key : String)

/-- What the parser of values waits for. -/
inductive Mode where
  | value
  | item (seen : List Toml)
  | firstPair
  | pair (entries : Entries)
  /-- Nothing: a value is finished. -/
  | after (value : Toml)

/-- Take a key and its equals sign off the text. -/
def assignment? (cs : List Char) : Option ((List String × String) × List Char) := do
  let (key, cs) ← key? cs
  pure (key, skipGap (← expect? '=' cs))

/-- Parse on until the value that the stack waits for is finished. -/
def run : (steps : Nat) → Mode → List Frame → List Char → Option (Toml × List Char)
  | 0, _, _, _ => none
  | steps + 1, .value, stack, cs =>
    match cs with
    | '[' :: rest =>
      if maxOpen ≤ stack.length + 1 then none else run steps (.item []) stack rest
    | '{' :: rest =>
      if maxOpen ≤ stack.length + 1 then none else run steps .firstPair stack rest
    | _ => do
      let (value, rest) ← scalar? cs
      run steps (.after value) stack rest
  | steps + 1, .item seen, stack, cs =>
    match skipLines cs with
    | ']' :: rest => run steps (.after (.array seen.reverse)) stack rest
    | rest => run steps .value (.array seen :: stack) rest
  | steps + 1, .firstPair, stack, cs =>
    match skipGap cs with
    | '}' :: rest => run steps (.after (.table .inline [])) stack rest
    | rest => run steps (.pair []) stack rest
  | steps + 1, .pair entries, stack, cs => do
    let ((path, key), rest) ← assignment? cs
    run steps .value (.pair entries path key :: stack) rest
  | _ + 1, .after value, [], cs => some (value, cs)
  | steps + 1, .after value, .array seen :: stack, cs =>
    match skipLines cs with
    | ',' :: rest => run steps (.item (value :: seen)) stack rest
    | ']' :: rest => run steps (.after (.array (value :: seen).reverse)) stack rest
    | _ => none
  | steps + 1, .after value, .pair entries path key :: stack, cs => do
    let entries ← insertPair .inline entries path key value
    match skipGap cs with
    | ',' :: rest => run steps (.pair entries) stack rest
    | '}' :: rest => run steps (.after (.table .inline entries)) stack rest
    | _ => none

def value? (steps : Nat) (cs : List Char) : Option (Toml × List Char) := run steps .value [] cs

/-! ## Documents -/

inductive Statement where
  | header (path : List String) (key : String)
  | arrayHeader (path : List String) (key : String)
  | pair (path : List String) (key : String) (value : Toml)

/-- The statement on a line that is not empty, without the end of the line. -/
def statement? (steps : Nat) : List Char → Option (Statement × List Char)
  | '[' :: '[' :: cs => do
    let ((path, key), cs) ← key? cs
    let cs ← expect? ']' (← expect? ']' cs)
    pure (.arrayHeader path key, cs)
  | '[' :: cs => do
    let ((path, key), cs) ← key? cs
    pure (.header path key, ← expect? ']' cs)
  | cs => do
    let ((path, key), cs) ← assignment? cs
    let (value, cs) ← value? steps cs
    pure (.pair path key value, cs)

/-- The statements of at most `lines` lines, after those `seen`, the last one first. -/
def statements? (steps : Nat) :
    (lines : Nat) → List Char → (seen : List Statement) → Option (List Statement)
  | 0, _, _ => none
  | lines + 1, cs, seen =>
    match skipGap cs with
    | [] => some seen.reverse
    | c :: cs =>
      if c = '#' ∨ c = '\n' ∨ c = '\r' then do
        let rest ← lineEnd? (c :: cs)
        statements? steps lines rest seen
      else do
        let (statement, cs) ← statement? steps (c :: cs)
        let rest ← lineEnd? cs
        statements? steps lines rest (statement :: seen)

/-- A document while it is built: the root table, and the path of the table that is open. -/
structure Draft where
  root : Entries
  current : List String

def Draft.add? (draft : Draft) : Statement → Option Draft
  | .header path key => do
    let root ← openTable draft.root path key
    pure ⟨root, path ++ [key]⟩
  | .arrayHeader path key => do
    let root ← openArrayTable draft.root path key
    pure ⟨root, path ++ [key]⟩
  | .pair path key value => do
    let add (origin : TableOrigin) (entries : Entries) := insertPair origin entries path key value
    let root ← descend false add draft.current .header draft.root
    pure ⟨root, draft.current⟩

/-- The root table of a document. A byte order mark at the start counts for nothing. -/
def parse? (text : String) : Option Entries := do
  let cs := match text.toList with
    | '\uFEFF' :: cs => cs
    | cs => cs
  let statements ← statements? (2 * cs.length + 2) (cs.length + 1) cs []
  let draft ← statements.foldlM Draft.add? ⟨[], []⟩
  pure draft.root

end Toml
end ListPress
