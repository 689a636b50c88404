import ContentGraph.Causes
import ContentGraph.CommandLine
import ContentGraph.Converter
import ContentGraph.JsonReader
import ContentGraph.Settings
import ContentGraph.Store.Directory
import ContentGraph.Toml.Document

/-! What the commands do to a disk, and what they print. A command that fails leaves what it has done
and printed until then. -/

namespace ContentGraph

/-- The messages of an error and its causes, outermost first. -/
abbrev Failure := List String

structure Console (σ : Type) where
  state : σ
  output : String := ""

abbrev Run (σ α : Type) := Stateful Failure (Console σ) α

namespace Commands

def printLine {σ : Type} (line : String) : Run σ Unit :=
  modify fun console => { console with output := console.output ++ line ++ "\n" }

/-- Goes on with a result, or fails with what `describe` says. -/
def orFail {σ ε α : Type} (describe : ε → Failure) : Except ε α → Run σ α
  | .ok a => return a
  | .error e => throw (describe e)

/-- Runs what changes the state. -/
def onState {σ ε α : Type} (describe : ε → Failure) (change : Stateful ε σ α) : Run σ α :=
  fun console =>
    match change console.state with
    | (.ok a, state) => (.ok a, { console with state })
    | (.error e, state) => (.error (describe e), { console with state })

def loadSettings (disk : Disk) : Option String → Except Failure Settings
  | none => .ok {}
  | some file =>
    match disk.readText ⟨file⟩ with
    | .error e => .error [s!"reading config {file}", e.message]
    | .ok text =>
      match (readToml? text).bind (Settings.ofDatum? true) with
      | none => .error [s!"parsing config {file}"]
      | some settings => .ok settings

/-- A directory can be opened, but not read. -/
def openFile (disk : Disk) (file : String) : Except Failure Bytes :=
  match disk.readFile ⟨file⟩ with
  | .ok data => .ok data
  | .error e =>
    if e.kind = .isADirectory then
      let message := s!"I/O error: {e.message}"
      .error [s!"importing {file}", s!"xml error: {message}", message, e.message]
    else .error [s!"opening {file}", e.message]

def importFile (converter : Converter) (file : String) : Run DirectoryStore Unit := do
  let data ← orFail id (openFile (← get).state.disk file)
  let root ← onState (fun e => s!"importing {file}" :: e.chain) (converter.convert data)
  printLine s!"✓ {root.text}  {file}"

/-- Imports files in their order up to the first that fails. -/
def importFiles (settings : Settings) (files : List String) (contexts : List Address) :
    Run DirectoryStore Unit := do
  let loaded := Converter.load (← get).state (settings.contexts ++ contexts)
  let converter ← orFail IngestError.chain loaded
  files.forM (importFile { converter with config := settings.encoder })

/-- A context is written as one table of names and their types. -/
def contextOf? (d : Datum) : Option Context :=
  match d with
  | .table members => do
    return Context.ofTerms (← members.mapM fun m => do return (m.1, ← m.2.text?))
  | _ => none

def publishContext (file : String) : Run DirectoryStore Unit := do
  let text ← orFail (fun e => [s!"reading {file}", e.message])
    ((← get).state.disk.readText ⟨file⟩)
  match (readJson? text).bind contextOf? with
  | none => throw [s!"{file} is not a JSON map of names to types"]
  | some context =>
    let o ← orFail StoreError.chain context.toObject
    onState StoreError.chain (Store.put o)
    printLine o.address.text

def printJson {σ : Type} (n : Node) : Run σ Unit :=
  printLine n.toJson.pretty

def getObject (a : Address) : Run DirectoryStore Unit := do
  let o ← orFail StoreError.chain (Store.get (← get).state a)
  printJson o.tree

/-- The segments of a path between slashes. Slashes around it do not count. -/
def pathOfArgument (argument : String) : List String :=
  let trimmed := (argument.toList.dropWhile (· = '/')).reverse.dropWhile (· = '/')
  segments (String.ofList trimmed.reverse)

def resolvePath (settings : Settings) (a : Address) (argument : String) :
    Run DirectoryStore Unit := do
  let graph ← orFail GraphError.chain (Graph.open (Store.get (← get).state) a)
  let graph := { graph with config := settings.graph }
  match ← orFail GraphError.chain (graph.get (pathOfArgument argument)) with
  | .object root => printJson root.tree
  | .value (.link target) => printLine target.text
  | .value (.string s) => printLine s
  | .value tree => printJson tree

def runCommand (settings : Settings) : Command → Run DirectoryStore Unit
  | .importFiles files contexts => importFiles settings files contexts
  | .publishContext file => publishContext file
  | .get a => getObject a
  | .resolve a path => resolvePath settings a path

/-- Settings are loaded before the store is opened. -/
def run (invocation : Invocation) : Run Disk Unit := fun console =>
  match loadSettings console.state invocation.configFile with
  | .error failure => (.error failure, console)
  | .ok settings =>
    let directory := invocation.storeDirectory.getD settings.storeDirectory
    match DirectoryStore.open ⟨directory⟩ console.state with
    | (.error e, store) =>
      (.error [s!"opening store {directory}", e.message], { console with state := store.disk })
    | (.ok (), store) =>
      let (result, after) := runCommand settings invocation.command { console with state := store }
      (result, { after with state := after.state.disk })

end Commands

end ContentGraph
