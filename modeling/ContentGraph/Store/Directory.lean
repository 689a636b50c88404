import ContentGraph.Disk
import ContentGraph.Quoted
import ContentGraph.Store.Backend

/-! A backend in a directory: one file for each entry, in a subdirectory named for the last two
characters of its key, since the first ones are the same in all addresses. -/

namespace ContentGraph

structure DirectoryStore where
  root : Path
  disk : Disk

def isKeyChar (c : Char) : Bool :=
  c.isAlphanum || c = '-' || c = '_'

namespace DirectoryStore

/-- Makes the directory if it is missing. -/
def «open» (root : Path) (disk : Disk) : Except IoError Unit × DirectoryStore :=
  (Disk.createDirectories root disk).map id fun disk => ⟨root, disk⟩

/-- Keys of at least two characters, all of them letters, digits, `-` and `_`, name files. -/
def isKey (key : String) : Bool :=
  2 ≤ key.length && key.toList.all isKeyChar

def shardOf (key : String) : String :=
  String.ofList (key.toList.drop (key.length - 2))

def shardPath (s : DirectoryStore) (key : String) : Path :=
  s.root.join (shardOf key)

def entryPath (s : DirectoryStore) (key : String) : Except IoError Path :=
  if isKey key then .ok ((s.shardPath key).join key)
  else .error ⟨.invalidInput, s!"invalid datastore key {quoted key}"⟩

def read (s : DirectoryStore) (key : String) : Except IoError (Option Bytes) := do
  match s.disk.readFile (← s.entryPath key) with
  | .ok data => return some data
  | .error e => if e.kind = .notFound then return none else throw e

def createEntry (s : DirectoryStore) (key : String) (path : Path) (value : Bytes) :
    Stateful IoError Disk Unit := do
  Disk.createDirectories (s.shardPath key)
  Disk.writeFile path value

/-- An entry that is there is left as it is. -/
def write (s : DirectoryStore) (key : String) (value : Bytes) :
    Except IoError Unit × DirectoryStore :=
  match s.entryPath key with
  | .error e => (.error e, s)
  | .ok path =>
    if s.disk.exists? path then (.ok (), s)
    else (s.createEntry key path value s.disk).map id fun disk => { s with disk }

def has (s : DirectoryStore) (key : String) : Except IoError Bool := do
  return s.disk.exists? (← s.entryPath key)

/-- The entries' files, in order. -/
def files (s : DirectoryStore) : List String :=
  match s.disk.place s.root with
  | .ok directory => s.disk.filesBelow directory
  | .error _ => []

end DirectoryStore

instance : Backend DirectoryStore where
  read := DirectoryStore.read
  write := DirectoryStore.write
  has := DirectoryStore.has

end ContentGraph
