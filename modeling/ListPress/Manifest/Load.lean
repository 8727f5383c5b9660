import ListPress.Datum.Reader
import ListPress.Files.Error
import ListPress.Files.Path
import ListPress.Manifest.Basic
import ListPress.Site

/-! # Loading a manifest into a site

The variables come first, then the templates, then the style sheets, in order. Loading stops at the
first entry that fails and keeps what was loaded before. -/

namespace ListPress

inductive ManifestError where
  | file (path : String) (error : FileError)
  | notManifest
  | source (path : String) (error : ReadError)
  | registry (error : RegistryError)
deriving DecidableEq

def ManifestError.message : ManifestError → String
  | .file path error => s!"failed to read {path}: " ++ error.message
  | .notManifest => "invalid manifest"
  | .source path error => s!"failed to parse {path}: " ++ error.message
  | .registry error => error.message

/-- The contents of the files under their paths. -/
abbrev Reading := String → Except FileError String

namespace Manifest

section
variable (read : Reading)

def readFile (path : String) : Except ManifestError String :=
  (read path).mapError (.file path)

def readSource (path : String) : Except ManifestError Datum := do
  let text ← readFile read path
  (Datum.readDocument text).mapError (.source path)

/-- Read the manifest in a file. -/
def ofFile (path : String) : Except ManifestError Manifest := do
  match Manifest.parse? (← readFile read path) with
  | some manifest => pure manifest
  | none => .error .notManifest

variable (base : String)

/-- A template with the extension `ejs` is taken as it is. -/
def loadTemplate (site : Site) (entry : SourceEntry) : Except ManifestError Site := do
  let path := Path.join base entry.source
  let result ←
    if Path.extension? path = some "ejs" then do
      let text ← readFile read path
      pure (site.registerTemplateSource .empty (.string entry.name) (.string text))
    else do
      let (h, tree) := Heap.empty.store (← readSource read path)
      pure (site.registerTemplate h (.string entry.name) tree)
  let (site, _) ← result.mapError .registry
  pure site

def loadStyle (site : Site) (entry : SourceEntry) : Except ManifestError Site := do
  let path := Path.join base entry.source
  let (h, rules) := Heap.empty.store (← readSource read path)
  let (site, _) ← (site.registerStyle h (.string entry.name) rules).mapError .registry
  pure site

end

/-- Load entries until one fails. -/
def loadEach (load : Site → α → Except ManifestError Site) :
    Site → List α → Site × Except ManifestError Unit
  | site, [] => (site, .ok ())
  | site, entry :: entries =>
    match load site entry with
    | .ok site => loadEach load site entries
    | .error e => (site, .error e)

def defineVars (manifest : Manifest) (site : Site) : Site :=
  { site with vars := site.vars.insertAll manifest.vars.entries }

/-- Load a manifest; source paths are taken from `base` on. Returns the site as far as it was
loaded. -/
def load (read : Reading) (base : String) (manifest : Manifest) (site : Site) :
    Site × Except ManifestError Unit :=
  match loadEach (loadTemplate read base) (manifest.defineVars site) manifest.templates with
  | (site, .ok ()) => loadEach (loadStyle read base) site manifest.styles
  | failed => failed

/-- The paths of all sources. -/
def sourcePaths (base : String) (manifest : Manifest) : List String :=
  (manifest.templates ++ manifest.styles).map fun entry => Path.join base entry.source

end Manifest
end ListPress
