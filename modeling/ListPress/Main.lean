import ListPress.Command

/-! # The program -/

namespace ListPress

def readFromDisk (path : String) : IO (Except FileError String) := do
  try
    return decodeText (← IO.FS.readBinFile path)
  catch e => return .error (.other (toString e))

/-- The contents of some files. -/
def readAllFromDisk (paths : List String) : IO Reading := do
  let contents ← paths.mapM fun path => do return (path, ← readFromDisk path)
  return fun path => (contents.lookup path).getD (.error .notFound)

/-- Read what a command may ask for. -/
def Command.gather : Command → IO Inputs
  | .markup file _ | .style file _ _ => do
    if file = "-" then
      return ⟨decodeText (← (← IO.getStdin).readBinToEnd), fun _ => .error .notFound⟩
    else return ⟨.ok "", ← readAllFromDisk [file]⟩
  | .build manifest _ => do
    let read ← readAllFromDisk [manifest]
    let sources := match Manifest.ofFile read manifest with
      | .ok parsed => parsed.sourcePaths (Manifest.baseOf manifest)
      | .error _ => []
    return ⟨.ok "", ← readAllFromDisk (manifest :: sources)⟩

/-- Whether a path leads to a directory: then its dot is there already. -/
def isDirOnDisk (path : String) : IO Bool := do
  try
    IO.FS.createDir (path ++ "/.")
    return true
  catch
    | .alreadyExists .. => return true
    | _ => return false

def ensureDirOnDisk (path : String) : IO Unit := do
  try
    IO.FS.createDir path
  catch e =>
    unless ← isDirOnDisk path do throw e

/-- Make a directory that may be there already, and first up to `levels` directories above it. -/
def makeDirsOnDisk : (levels : Nat) → (path : String) → IO Unit
  | 0, path => ensureDirOnDisk path
  | levels + 1, path => do
    if path.isEmpty then return
    try
      ensureDirOnDisk path
    catch
      | .noFileOrDirectory .. =>
        if let some parent := Path.parent? path then makeDirsOnDisk levels parent
        ensureDirOnDisk path
      | e => throw e

def Plan.writeToDisk (plan : Plan) : IO Unit := do
  makeDirsOnDisk ((Path.parts plan.directory).length + 1) plan.directory
  for (path, text) in plan.files do
    IO.FS.writeFile path text

def Command.perform (command : Command) : IO UInt32 := do
  match command.run (← command.gather) with
  | .error failure =>
    IO.eprintln s!"Error: {failure.message}"
    return 1
  | .ok (.print text) =>
    IO.print text
    return 0
  | .ok (.write plan) =>
    try
      plan.writeToDisk
      return 0
    catch e =>
      IO.eprintln s!"Error: {e}"
      return 1

end ListPress

def main (args : List String) : IO UInt32 := do
  match ListPress.Command.parse args with
  | .error .help =>
    IO.println ListPress.ArgumentError.help.message
    return 0
  | .error error =>
    IO.eprintln s!"error: {error.message}"
    return 2
  | .ok command => command.perform
