import ListPress.Node.Printer
import ListPress.Text.Entity

/-! # Markup

A node is pressed into scriptlet markup. The head of a list decides its form; the forms take the
rendering of the nodes inside them, one level down, as an argument. Forms with too few arguments
are empty, so only the structure of a node can make rendering fail. -/

namespace ListPress

/-- The forms of a list. -/
inductive Form where
  | escaped
  | raw
  | conditional
  | loop
  | attributes
  | element
deriving DecidableEq

def Form.ofHead : String → Form
  | "$" => .escaped
  | "$raw" => .raw
  | "if" => .conditional
  | "for" => .loop
  | "@" => .attributes
  | _ => .element

namespace Markup

/-- Elements that have no closing tag when they are empty. -/
def voidElements : List String :=
  ["area", "base", "br", "col", "embed", "hr", "img", "input", "link", "meta", "param", "source",
    "track", "wbr"]

def isVoid (tag : String) : Bool := voidElements.contains (tag.map Char.toLower)

/-- The end of a scriptlet block. -/
def blockEnd : String := "<% \x7d %>"

section
variable (h : Heap)

/-- A literal is written escaped, an expression as an escaping scriptlet. -/
def escaped : List Node → String
  | [] => ""
  | .atom (.string literal) :: _ => escapeHtml literal
  | expr :: _ => "<%= " ++ h.stringOf expr ++ " %>"

/-- A literal is written as it is, an expression as a raw scriptlet. -/
def raw : List Node → String
  | [] => ""
  | .atom (.string literal) :: _ => literal
  | expr :: _ => "<%- " ++ h.stringOf expr ++ " %>"

def isAttributeList (node : Node) : Bool :=
  match h.headOf node with
  | some head => Form.ofHead (h.stringOf head) = .attributes
  | none => false

variable (render : Node → Except StructureError String)

def concat (nodes : List Node) : Except StructureError String :=
  String.join <$> nodes.mapM render

def conditional : List Node → Except StructureError String
  | [] => .ok ""
  | cond :: branches => do
    let opening := "<% if (" ++ h.stringOf cond ++ ") \x7b %>"
    match branches with
    | [] => pure (opening ++ blockEnd)
    | [yes] => pure (opening ++ (← render yes) ++ blockEnd)
    | yes :: no :: _ =>
      let yes ← render yes
      let no ← render no
      pure (opening ++ yes ++ "<% \x7d else \x7b %>" ++ no ++ blockEnd)

/-- The second argument is the word between the variable and the expression, and is not written. -/
def loop : List Node → Except StructureError String
  | var :: _ :: expr :: body => do
    let opening :=
      "<% for (const " ++ h.stringOf var ++ " of " ++ h.stringOf expr ++ ") \x7b %>"
    pure (opening ++ (← concat render body) ++ blockEnd)
  | _ => .ok ""

/-- The texts of keys with their values, after those `seen`, the last one first. A key without a
value is dropped. -/
def attributeTexts : List Node → (seen : List String) → Except StructureError (List String)
  | key :: value :: rest, seen => do
    let key ← render key
    let value ← render value
    attributeTexts rest ((key ++ "=\"" ++ value ++ "\"") :: seen)
  | _, seen => .ok seen.reverse

def attributes (args : List Node) : Except StructureError String :=
  " ".intercalate <$> attributeTexts render args []

/-- The attributes of an element with a blank in front, and its children. -/
def splitAttributes : List Node → Except StructureError (String × List Node)
  | [] => .ok ("", [])
  | first :: rest =>
    if isAttributeList h first then do pure (" " ++ (← render first), rest)
    else .ok ("", first :: rest)

def element (tag : String) (args : List Node) : Except StructureError String := do
  let (attrs, children) ← splitAttributes h render args
  let content ← concat render children
  if content.isEmpty && isVoid tag then pure ("<" ++ tag ++ attrs ++ " />")
  else pure ("<" ++ tag ++ attrs ++ ">" ++ content ++ "</" ++ tag ++ ">")

/-- A list from its items. -/
def form : List Node → Except StructureError String
  | [] => .ok ""
  | head :: args =>
    let head := h.stringOf head
    match Form.ofHead head with
    | .escaped => .ok (escaped h args)
    | .raw => .ok (raw h args)
    | .conditional => conditional h render args
    | .loop => loop h render args
    | .attributes => attributes render args
    | .element => element h render head args

end
end Markup

namespace Heap

/-- The markup of a node with `levels` levels left. -/
def markupAt (h : Heap) : (levels : Nat) → Node → Except StructureError String
  | 0, _ => .error .nestingTooDeep
  | _ + 1, .atom a => .ok (h.stringOf (.atom a))
  | levels + 1, node => do
    let items ← h.sequence node
    Markup.form h (h.markupAt levels) items

def markup (h : Heap) (node : Node) : Except StructureError String :=
  h.markupAt (maxNesting + 1) node

end Heap
end ListPress
