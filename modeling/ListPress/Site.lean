import ListPress.Markup
import ListPress.Registry
import ListPress.Style

/-! # Sites

A site holds templates, style sheets and the variables of its style sheets. A style sheet is pressed
when it is registered, with the variables as they are then. An operation that fails leaves the site
as it was. -/

namespace ListPress

structure Site where
  templates : Registry
  styles : Registry
  vars : Table String

namespace Site

def empty : Site := ⟨.empty "template", .empty "style", .empty⟩

/-- The name given to an operation, which has to be a string. -/
def nameOf (operation : String) (name : Node) : Except RegistryError String :=
  match name.string? with
  | some name => .ok name
  | none => .error (.nameExpected operation)

section
variable (h : Heap) (site : Site)

def registerTemplate (name tree : Node) : Except RegistryError (Site × String) := do
  let name ← nameOf "register_template" name
  let text ← (h.markup tree).mapError .malformed
  pure ({ site with templates := site.templates.register name text }, name)

/-- Register the text of a node as it is. -/
def registerTemplateSource (name source : Node) : Except RegistryError (Site × String) := do
  let name ← nameOf "register_template_source" name
  pure ({ site with templates := site.templates.register name (h.stringOf source) }, name)

def registerStyle (name rules : Node) : Except RegistryError (Site × String) := do
  let name ← nameOf "register_style" name
  let text ← (h.style site.vars.get? rules).mapError .malformed
  pure ({ site with styles := site.styles.register name text }, name)

def defineVar (name value : Node) : Except RegistryError (Site × String) := do
  let name ← nameOf "define_var" name
  pure ({ site with vars := site.vars.insert name (h.stringOf value) }, name)

end

def template (site : Site) (name : String) : Except RegistryError String :=
  site.templates.get name

def style (site : Site) (name : String) : Except RegistryError String :=
  site.styles.get name

def var (site : Site) (name : String) : Option String := site.vars.get? name

end Site
end ListPress
