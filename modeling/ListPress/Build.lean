import ListPress.Files.Volume
import ListPress.Manifest.Load

/-! # Building a site

A build first loads the whole site, and only then writes. What it writes is a plan: a directory, and
the texts of the files in it. -/

namespace ListPress

/-- What a build writes, in order. -/
structure Plan where
  directory : String
  files : List (String × String)

/-- The files of a site in a directory: templates, then style sheets, each in the order of names. -/
def Site.plan (site : Site) (directory : String) : Plan where
  directory := directory
  files :=
    site.templates.texts.entries.map (fun (name, text) =>
      (Path.join directory (name ++ ".ejs"), text)) ++
    site.styles.texts.entries.map (fun (name, text) =>
      (Path.join directory (name ++ ".css"), text))

/-- The directory of a manifest, which its paths are taken from. -/
def Manifest.baseOf (path : String) : String := (Path.parent? path).getD "."

/-- Plan the build of a manifest. Its sources, and its output directory unless `out` is given, are
taken from its own directory on. -/
def Manifest.plan (read : Reading) (path : String) (out : Option String) :
    Except ManifestError Plan := do
  let manifest ← Manifest.ofFile read path
  let base := Manifest.baseOf path
  match manifest.load read base .empty with
  | (_, .error e) => .error e
  | (site, .ok ()) => pure (site.plan (out.getD (Path.join base manifest.outputDir)))

namespace Volume

/-- Write files until one fails. -/
def writeEach (volume : Volume) : List (String × String) → Volume × Except FileError Unit
  | [] => (volume, .ok ())
  | (path, text) :: files =>
    match volume.writeText path text with
    | .ok volume => volume.writeEach files
    | .error e => (volume, .error e)

/-- Carry out a plan. Returns the volume as far as it was changed. -/
def carryOut (volume : Volume) (plan : Plan) : Volume × Except FileError Unit :=
  match volume.makeDirs plan.directory with
  | (volume, .ok ()) => volume.writeEach plan.files
  | failed => failed

end Volume
end ListPress
