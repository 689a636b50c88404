import ContentGraph.Commands

/-! The command line on the files that are really there. What a command may look at is read before it
runs, and what it has changed is written afterwards. -/

namespace ContentGraph

def Place.text (place : Place) : String :=
  "/" ++ "/".intercalate place

/-- Adds what stands at a place, if anything does. -/
def Disk.observe (disk : Disk) (place : Place) : IO Disk := do
  let there := System.mkFilePath [place.text]
  if ← there.isDir then return disk.set place .directory
  else if ← there.pathExists then return disk.set place (.file (← IO.FS.readBinFile there).toList)
  else return disk

/-- Adds all places that names lead through. -/
def Disk.observeAlong (disk : Disk) (place : Place) : List String → IO Disk
  | [] => return disk
  | name :: names => do
    let next := place.step name
    (← disk.observe next).observeAlong next names

def Disk.observePath (disk : Disk) (path : Path) : IO Disk :=
  disk.observeAlong (if path.isAbsolute then [] else disk.workingDirectory) path.steps

/-- Adds a directory with everything in it. -/
def Disk.observeBelow (disk : Disk) (path : Path) : IO Disk := do
  let disk ← disk.observePath path
  match disk.place path with
  | .error _ => return disk
  | .ok place =>
    let there := System.mkFilePath [place.text]
    if ← there.isDir then
      (← there.walkDir).foldlM
        (fun disk found => disk.observe (Path.steps ⟨found.toString⟩)) disk
    else return disk

def Command.files : Command → List String
  | .importFiles files _ => files
  | .publishContext file => [file]
  | _ => []

/-- Everything that a command may look at. -/
def Invocation.observe (invocation : Invocation) : IO Disk := do
  let here := Path.steps ⟨(← IO.currentDir).toString⟩
  let named := invocation.configFile.toList ++ invocation.command.files
  let disk ← (named.map Path.mk).foldlM Disk.observePath (Disk.workingIn here)
  match Commands.loadSettings disk invocation.configFile with
  | .error _ => return disk
  | .ok settings =>
    disk.observeBelow ⟨invocation.storeDirectory.getD settings.storeDirectory⟩

def Disk.writeChanges (before after : Disk) : IO Unit :=
  after.entries.reverse.forM fun (place, entry) => do
    if before.find? place ≠ some entry then
      match entry with
      | .directory => IO.FS.createDirAll place.text
      | .file data =>
        IO.FS.createDirAll (Place.text place.dropLast)
        IO.FS.writeBinFile place.text ⟨data.toArray⟩

end ContentGraph

open ContentGraph

def main (words : List String) : IO UInt32 := do
  match Invocation.ofWords words with
  | .error e =>
    IO.eprintln e.message
    return if e = .helpWanted ∨ e = .versionWanted then 0 else 2
  | .ok invocation =>
    let before ← invocation.observe
    let (result, console) := Commands.run invocation { state := before }
    before.writeChanges console.state
    IO.print console.output
    match result with
    | .ok () => return 0
    | .error messages =>
      IO.eprintln ("Error: " ++ "\n  caused by: ".intercalate messages)
      return 1
