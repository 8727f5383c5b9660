import ListPress.Table
import ListPress.Toml.Parser

/-! # Manifests

A manifest names the variables, templates and style sheets of a site and the directory it is built
to. It is written in TOML; a record may be a table or an array of its fields in order. -/

namespace ListPress

/-- A named source file. -/
structure SourceEntry where
  name : String
  source : String
deriving DecidableEq

structure Manifest where
  outputDir : String
  vars : Table String
  templates : List SourceEntry
  styles : List SourceEntry
deriving DecidableEq

namespace Manifest

def defaultOutputDir : String := "dist"

/-- The one field of a date or time that is taken for a table. -/
def datetimeField : String := "$__toml_private_datetime"

def text? : Toml → Option String
  | .string text => some text
  | _ => none

/-- The fields of a record, as far as they are there. -/
def record? (names : List String) : Toml → Option (List (Option Toml))
  | .table _ entries => some (names.map (entries.lookup ·))
  | .array items => some (names.mapIdx fun i _ => items[i]?)
  | .tables earlier last =>
    let items := (last :: earlier).reverse.map (Toml.table .header)
    some (names.mapIdx fun i _ => items[i]?)
  | .datetime _ => some (names.map fun _ => none)
  | _ => none

def outputDir? (value : Toml) : Option String := do
  match ← record? ["dir"] value with
  | [some dir] => text? dir
  | _ => some defaultOutputDir

def vars? : Toml → Option (Table String)
  | .table _ entries => do
    let pairs ← entries.mapM fun (name, value) => do pure (name, ← text? value)
    pure (Table.ofList pairs)
  | .datetime text => some (Table.ofList [(datetimeField, text)])
  | _ => none

def entry? (value : Toml) : Option SourceEntry := do
  match ← record? ["name", "source"] value with
  | [some name, some source] => pure ⟨← text? name, ← text? source⟩
  | _ => none

def entries? : Toml → Option (List SourceEntry)
  | .array items => items.mapM entry?
  | .tables earlier last => ((last :: earlier).reverse.map (Toml.table .header)).mapM entry?
  | _ => none

/-- A field of the root table, or what stands for it when it is missing. -/
def field? (root : Toml.Entries) (name : String) (missing : α) (decode : Toml → Option α) :
    Option α :=
  match root.lookup name with
  | some value => decode value
  | none => some missing

/-- The manifest of a TOML text. None if it is not TOML or a field has the wrong type. -/
def parse? (text : String) : Option Manifest := do
  let root ← Toml.parse? text
  let outputDir ← field? root "output" defaultOutputDir outputDir?
  let vars ← field? root "vars" .empty vars?
  let templates ← field? root "template" [] entries?
  let styles ← field? root "style" [] entries?
  pure { outputDir, vars, templates, styles }

end Manifest
end ListPress
