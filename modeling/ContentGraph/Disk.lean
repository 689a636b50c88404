import ContentGraph.Outcome
import ContentGraph.Path
import ContentGraph.StoreError

/-! A tree of files and directories, as the state that file operations act on. A path is followed name
by name, and every name but the last has to be that of a directory. -/

namespace ContentGraph

inductive DiskEntry
  | file (data : Bytes)
  | directory
  deriving DecidableEq

/-- How many bytes a name and a path may have, if there is a limit. -/
structure DiskLimits where
  name : Option Nat := some 255
  path : Option Nat := some 4095

/-- Everything that is there but the root. -/
structure Disk where
  entries : List (Place × DiskEntry)
  workingDirectory : Place := []
  limits : DiskLimits := {}

namespace Disk

def empty : Disk := { entries := [] }

/-- A disk with nothing but a working directory and what it stands in. -/
def workingIn (place : Place) : Disk where
  entries := (List.range place.length).map fun n => (place.take (n + 1), .directory)
  workingDirectory := place

def find? (d : Disk) (place : Place) : Option DiskEntry :=
  if place = [] then some .directory else d.entries.lookup place

def set (d : Disk) (place : Place) (entry : DiskEntry) : Disk :=
  { d with entries := (place, entry) :: d.entries.filter fun e => e.1 ≠ place }

def noSuchFile : IoError := ⟨.notFound, "No such file or directory (os error 2)"⟩

def fileExists : IoError := ⟨.alreadyExists, "File exists (os error 17)"⟩

def notADirectory : IoError := ⟨.notADirectory, "Not a directory (os error 20)"⟩

def isADirectory : IoError := ⟨.isADirectory, "Is a directory (os error 21)"⟩

def nameTooLong : IoError := ⟨.invalidName, "File name too long (os error 36)"⟩

def nulInName : IoError := ⟨.invalidInput, "file name contained an unexpected NUL byte"⟩

def exceeds (limit : Option Nat) (s : String) : Bool :=
  limit.any fun n => n < s.utf8ByteSize

/-- Goes on from a place, which has to be a directory. There need not be anything at the place that it
leads to. -/
def enter (d : Disk) (place : Place) (name : String) : Except IoError Place :=
  match d.find? place with
  | none => .error noSuchFile
  | some (.file _) => .error notADirectory
  | some .directory =>
    if exceeds d.limits.name name then .error nameTooLong else .ok (place.step name)

def walk (d : Disk) (start : Place) (names : List String) : Except IoError Place :=
  names.foldlM d.enter start

/-- Where a path begins, if it can be a path at all. -/
def start (d : Disk) (p : Path) : Except IoError Place :=
  if p.text.toList.contains '\x00' then .error nulInName
  else if exceeds d.limits.path p.text then .error nameTooLong
  else if p.text = "" then .error noSuchFile
  else .ok (if p.isAbsolute then [] else d.workingDirectory)

/-- The place that a path leads to, whether or not there is anything. -/
def place (d : Disk) (p : Path) : Except IoError Place := do
  d.walk (← d.start p) p.steps

/-- What stands at the end of a path. A slash behind it is like a dot. -/
def look (d : Disk) (p : Path) : Except IoError DiskEntry := do
  let place ← d.place p
  let place ← if p.endsInSlash then d.enter place "." else pure place
  match d.find? place with
  | some entry => return entry
  | none => throw noSuchFile

def exists? (d : Disk) (p : Path) : Bool :=
  (d.look p).toOption.isSome

def readFile (d : Disk) (p : Path) : Except IoError Bytes := do
  match ← d.look p with
  | .file data => return data
  | .directory => throw isADirectory

def notText : IoError := ⟨.invalidData, "stream did not contain valid UTF-8"⟩

def readText (d : Disk) (p : Path) : Except IoError String := do
  match textOfUtf8 (← d.readFile p) with
  | .ok s => return s
  | .error _ => throw notText

def writeFile (p : Path) (data : Bytes) : Stateful IoError Disk Unit := fun d =>
  match d.place p with
  | .error e => (.error e, d)
  | .ok place =>
    match d.find? place with
    | some .directory => (.error isADirectory, d)
    | _ => (.ok (), d.set place (.file data))

/-- Makes the directory that names lead to, if it is not there. -/
def makeDirectory (start : Place) (names : List String) : Stateful IoError Disk Unit := fun d =>
  match d.walk start names with
  | .error e => (.error e, d)
  | .ok place =>
    match d.find? place with
    | some .directory => (.ok (), d)
    | some (.file _) => (.error fileExists, d)
    | none => (.ok (), d.set place .directory)

/-- Does `make`, and if something is missing for it, does it again after `prepare`. -/
def preparing (prepare make : Stateful IoError Disk Unit) : Stateful IoError Disk Unit :=
  tryCatch make fun e => do
    if e.kind = .notFound then
      prepare
      make
    else throw e

/-- Makes a directory and those on the way to it, whose names are given innermost first. -/
def makeDirectories (start : Place) : List String → Stateful IoError Disk Unit
  | [] => return ()
  | name :: outer =>
    preparing (makeDirectories start outer) (makeDirectory start (name :: outer).reverse)

/-- Makes a directory and those on the way to it, as far as they are missing. A dot at the end of a
path is no name, so what stands before it is not on the way to it. -/
def createDirectories (p : Path) : Stateful IoError Disk Unit := fun d =>
  if p.text = "" then (.ok (), d)
  else
    match d.start p with
    | .error e => (.error e, d)
    | .ok start =>
      preparing (makeDirectories start p.names.reverse.tail) (makeDirectory start p.steps) d

/-- The files below a directory, by the names on the way from there, in order. -/
def filesBelow (d : Disk) (directory : Place) : List String :=
  let inside := d.entries.filterMap fun e =>
    match e.2 with
    | .file _ =>
      if directory.isPrefixOf e.1 then some ("/".intercalate (e.1.drop directory.length)) else none
    | .directory => none
  inside.mergeSort fun a b => a ≤ b

end Disk

end ContentGraph
