import ListPress.Node.Printer
import ListPress.Text.Reference

/-! # Style sheets

Rules are pressed into CSS. Every text goes through the variables; the resolved head of a rule
decides its kind. Rules and properties that are not lists, or too short, are left out. -/

namespace ListPress

inductive RuleKind where
  | media
  | keyframes
  | selector
deriving DecidableEq

def RuleKind.ofHead : String → RuleKind
  | "@media" | "@" => .media
  | "@keyframes" | "keyframes" => .keyframes
  | _ => .selector

/-- The text of a node with its variables resolved. -/
def Heap.resolve (h : Heap) (vars : Bindings) (node : Node) : String :=
  resolveVars vars (h.stringOf node)

namespace Style

/-- One step of indentation. -/
def indentStep : String := "  "

def block (indent header body : String) : String :=
  indent ++ header ++ " \x7b\n" ++ body ++ indent ++ "\x7d\n"

section
variable (h : Heap) (vars : Bindings)

def property (indent : String) (node : Node) : Except StructureError String := do
  match ← h.sequence node with
  | name :: value :: _ =>
    pure (indent ++ h.resolve vars name ++ ": " ++ h.resolve vars value ++ ";\n")
  | _ => pure ""

def properties (indent : String) (nodes : List Node) : Except StructureError String :=
  String.join <$> nodes.mapM (property h vars indent)

/-- A frame of an animation: a label and its properties. -/
def frame (indent : String) (node : Node) : Except StructureError String := do
  match ← h.sequence node with
  | [] => pure ""
  | label :: nodes =>
    block indent (h.resolve vars label) <$> properties h vars (indent ++ indentStep) nodes

def keyframes (indent : String) : List Node → Except StructureError String
  | [] => .ok ""
  | name :: frames => do
    let frames ← frames.mapM (frame h vars (indent ++ indentStep))
    pure (block indent ("@keyframes " ++ h.resolve vars name) (String.join frames))

variable (nested : List Node → Except StructureError String)

def media (indent : String) : List Node → Except StructureError String
  | query :: rule :: rules =>
    block indent ("@media " ++ h.resolve vars query) <$> nested (rule :: rules)
  | _ => .ok ""

/-- A rule; `nested` renders the rules inside it. -/
def rule (indent : String) (node : Node) : Except StructureError String := do
  match ← h.sequence node with
  | [] => pure ""
  | head :: args =>
    let head := h.resolve vars head
    match RuleKind.ofHead head with
    | .media => media h vars nested indent args
    | .keyframes => keyframes h vars indent args
    | .selector => block indent head <$> properties h vars (indent ++ indentStep) args

end

/-- A list of rules with `levels` levels left. -/
def rulesAt (h : Heap) (vars : Bindings) :
    (levels : Nat) → (indent : String) → List Node → Except StructureError String
  | 0, _, _ => .error .nestingTooDeep
  | levels + 1, indent, rules =>
    String.join <$> rules.mapM (rule h vars (rulesAt h vars levels (indent ++ indentStep)) indent)

def rules (h : Heap) (vars : Bindings) (indent : String) (nodes : List Node) :
    Except StructureError String :=
  rulesAt h vars (maxNesting + 1) indent nodes

end Style

/-- The style sheet of a list of rules. -/
def Heap.style (h : Heap) (vars : Bindings) (node : Node) : Except StructureError String := do
  Style.rules h vars "" (← h.sequence node)

end ListPress
