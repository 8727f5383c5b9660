import ListPress.Files.Error
import ListPress.Files.Path

/-! # Volumes

A volume holds files and directories. Paths are followed component by component, from the working
directory on or from the root. Of what lies outside the working directory, only the directories above
it and the root are known to be there. -/

namespace ListPress

inductive Entry where
  | file (bytes : ByteArray)
  | directory

/-- Where a path leads: components from the working directory on. Places above it start with `..`,
and places under the root with `/`. -/
abbrev Place := List String

structure Volume where
  entries : List (Place × Entry)

namespace Place

def workingDirectory : Place := []

def root : Place := ["/"]

/-- The working directory and the directories above it. -/
def isAbove (place : Place) : Bool := place == root || place.all (· == "..")

def parent (place : Place) : Place :=
  match place.getLast? with
  | none | some ".." => place ++ [".."]
  | some "/" => place
  | some _ => place.dropLast

/-- The longest name of a file, in bytes. -/
def maxName : Nat := 255

/-- Follow one component of a path. -/
def follow (place : Place) (name : String) : Except FileError Place :=
  if name = "" ∨ name = "." then .ok place
  else if name = ".." then .ok place.parent
  else if maxName < name.utf8ByteSize then .error .nameTooLong
  else .ok (place ++ [name])

end Place

namespace Volume

def empty : Volume := ⟨[]⟩

def get? (volume : Volume) (place : Place) : Option Entry :=
  if place.isAbove then some .directory else volume.entries.lookup place

def put (volume : Volume) (place : Place) (entry : Entry) : Volume :=
  ⟨volume.entries.filter (·.1 != place) ++ [(place, entry)]⟩

/-- Check that a place is a directory. -/
def enter (volume : Volume) (place : Place) : Except FileError Unit :=
  match volume.get? place with
  | some .directory => .ok ()
  | some (.file _) => .error .notDirectory
  | none => .error .notFound

/-! ## Following paths -/

/-- The longest path is one byte less. -/
def maxPath : Nat := 4096

/-- The place that a path starts at, and its parts. -/
def start (path : String) : Except FileError (Place × List String) :=
  if path.toList.contains '\x00' then .error .nulInPath
  else if path.isEmpty then .error .notFound
  else if maxPath ≤ path.utf8ByteSize then .error .nameTooLong
  else .ok (if Path.isAbsolute path then .root else .workingDirectory, Path.parts path)

/-- Follow parts of a path. All places on the way but the last have to be directories. -/
def walk (volume : Volume) (place : Place) (parts : List String) : Except FileError Place :=
  parts.foldlM (fun place part => do
    volume.enter place
    place.follow part) place

/-- Where a path leads. -/
def locate (volume : Volume) (path : String) : Except FileError Place := do
  let (place, parts) ← start path
  volume.walk place parts

def isDirectory (volume : Volume) (path : String) : Bool :=
  match volume.locate path with
  | .error _ => false
  | .ok place => (volume.enter place).isOk

/-! ## Files -/

def readBytes (volume : Volume) (path : String) : Except FileError ByteArray := do
  match volume.get? (← volume.locate path) with
  | some (.file bytes) => .ok bytes
  | some .directory => .error .isDirectory
  | none => .error .notFound

def readText (volume : Volume) (path : String) : Except FileError String := do
  decodeText (← volume.readBytes path)

/-- Write a file, in place of an earlier one. -/
def writeText (volume : Volume) (path text : String) : Except FileError Volume := do
  let place ← volume.locate path
  match volume.get? place with
  | some .directory => .error .isDirectory
  | _ => .ok (volume.put place (.file text.toUTF8))

/-! ## Directories -/

/-- Make a directory. The last component of its path may be followed by slashes, but not by a dot. -/
def makeDir (volume : Volume) (path : String) : Except FileError Volume := do
  let (place, parts) ← start path
  match parts.reverse.dropWhile (· == "") with
  | [] => .error .alreadyExists
  | name :: parts =>
    let place ← volume.walk place parts.reverse
    volume.enter place
    if name = "." ∨ name = ".." then .error .alreadyExists
    let place ← place.follow name
    match volume.get? place with
    | some _ => .error .alreadyExists
    | none => .ok (volume.put place .directory)

/-- Make a directory that may be there already. -/
def ensureDir (volume : Volume) (path : String) : Except FileError Volume :=
  match volume.makeDir path with
  | .ok volume => .ok volume
  | .error e => if volume.isDirectory path then .ok volume else .error e

/-- Make a directory that may be there already, and first up to `levels` directories above it, as far
as they are missing. Returns the volume as far as it was changed. -/
def makeDirsUp (volume : Volume) : (levels : Nat) → (path : String) → Volume × Except FileError Unit
  | levels, path =>
    if path.isEmpty then (volume, .ok ())
    else match volume.ensureDir path, levels, Path.parent? path with
      | .ok volume, _, _ => (volume, .ok ())
      | .error .notFound, levels + 1, some parent =>
        match volume.makeDirsUp levels parent with
        | (volume, .error e) => (volume, .error e)
        | (volume, .ok ()) =>
          match volume.ensureDir path with
          | .ok volume => (volume, .ok ())
          | .error e => (volume, .error e)
      | .error e, _, _ => (volume, .error e)

def makeDirs (volume : Volume) (path : String) : Volume × Except FileError Unit :=
  volume.makeDirsUp (Path.parts path).length path

end Volume
end ListPress
