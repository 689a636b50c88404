import ContentGraph.Address

/-! The words of a command line read as a command and its arguments. Options may stand before and
behind the name of the command, and two hyphens end them. A value is looked at when the next argument
begins, so of two faults the earlier one is found unless the next word is no argument at all. -/

namespace ContentGraph

inductive CommandName
  | importFiles
  | publishContext
  | get
  | resolve
  deriving DecidableEq

def CommandName.ofWord? : String → Option CommandName
  | "import" => some .importFiles
  | "context" => some .publishContext
  | "get" => some .get
  | "resolve" => some .resolve
  | _ => none

inductive Command
  | importFiles (files : List String) (contexts : List Address)
  | publishContext (file : String)
  | get (address : Address)
  | resolve (address : Address) (path : String)

structure Invocation where
  command : Command
  configFile : Option String
  storeDirectory : Option String

/-- Why words are no command. Asking for help or the version counts as a reason as well. -/
inductive UsageError
  | missingArgument
  | unknownArgument
  | unknownCommand
  | badValue
  | missingValue
  | needlessValue
  | repeatedOption
  | helpWanted
  | versionWanted
  | nothingGiven
  | missingCommand
  deriving DecidableEq

def UsageError.message : UsageError → String
  | .missingArgument => "a required argument is missing"
  | .unknownArgument => "an argument is unknown"
  | .unknownCommand => "there is no such command"
  | .badValue => "a value is no address"
  | .missingValue => "an option is without its value"
  | .needlessValue => "an option takes no value"
  | .repeatedOption => "an option is given twice"
  | .helpWanted | .nothingGiven | .missingCommand =>
    "usage: [--config FILE] [--store DIRECTORY] " ++
      "import FILE... [--context ADDRESS]... | context FILE | get ADDRESS | resolve ADDRESS PATH"
  | .versionWanted => "0.1.0"

namespace CommandLine

/-- What values are given for. -/
inductive Slot
  | config
  | store
  | verbose
  | help
  | version
  | extraContext
  | files
  | file
  | address
  | path
  deriving DecidableEq

inductive Argument
  | flag
  | text (value : String)
  | address (value : Address)

namespace Slot

def takesValue : Slot → Bool
  | .verbose | .help | .version => false
  | _ => true

def mayRepeat : Slot → Bool
  | .extraContext | .files => true
  | _ => false

/-- File names must not be empty. -/
def read (slot : Slot) (word : String) : Except UsageError Argument :=
  match slot with
  | .extraContext | .address =>
    match Address.ofText word with
    | .ok a => .ok (.address a)
    | .error _ => .error .badValue
  | .path => .ok (.text word)
  | _ => if word = "" then .error .missingValue else .ok (.text word)

end Slot

/-- The option of a name, at the top or behind the name of a command. -/
def longOption? (command : Option CommandName) (name : String) : Option Slot :=
  match name with
  | "config" => some .config
  | "store" => some .store
  | "verbose" => some .verbose
  | "help" => some .help
  | "version" => if command = none then some .version else none
  | "context" => if command = some .importFiles then some .extraContext else none
  | _ => none

def shortOption? (command : Option CommandName) (c : Char) : Option Slot :=
  match c with
  | 'c' => some .config
  | 'v' => some .verbose
  | 'h' => some .help
  | 'V' => if command = none then some .version else none
  | _ => none

def positionals : Option CommandName → List Slot
  | none => []
  | some .importFiles => [.files]
  | some .publishContext => [.file]
  | some .get => [.address]
  | some .resolve => [.address, .path]

structure Reading where
  command : Option CommandName
  given : List (Slot × Argument) := []
  /-- What values were last given for, and those that have not been looked at. -/
  pending : Option (Slot × List String) := none
  /-- What values without options are still for. -/
  expected : List Slot := positionals command
  /-- No more options follow. -/
  literal : Bool := false

namespace Reading

def isGiven (r : Reading) (slot : Slot) : Bool :=
  r.given.any fun g => g.1 = slot

/-- An option is waiting for its value. -/
def isWaiting (r : Reading) : Bool :=
  match r.pending with
  | some (_, []) => true
  | _ => false

def give (r : Reading) (slot : Slot) (arguments : Except UsageError (List Argument)) :
    Except UsageError Reading :=
  if r.isGiven slot && !slot.mayRepeat then .error .repeatedOption
  else do return { r with given := r.given ++ (← arguments).map fun a => (slot, a) }

def giveWords (r : Reading) (slot : Slot) (words : List String) : Except UsageError Reading :=
  r.give slot (words.mapM slot.read)

/-- Looks at the values that are pending. -/
def settle (r : Reading) : Except UsageError Reading :=
  match r.pending with
  | none => .ok r
  | some (_, []) => .error .missingValue
  | some (slot, words) => { r with pending := none }.giveWords slot words

def flag (r : Reading) (slot : Slot) : Except UsageError Reading := do
  let r ← r.settle
  match slot with
  | .help => throw .helpWanted
  | .version => throw .versionWanted
  | slot => r.give slot (.ok [.flag])

/-- An option that takes a value, with the value that is attached to it. -/
def option (r : Reading) (slot : Slot) (attached : Option String) : Except UsageError Reading := do
  let r ← r.settle
  match attached with
  | some word => r.giveWords slot [word]
  | none => return { r with pending := some (slot, []) }

def long (r : Reading) (chars : List Char) : Except UsageError Reading :=
  let attached := match chars.dropWhile (· ≠ '=') with
    | _ :: value => some (String.ofList value)
    | [] => none
  match longOption? r.command (String.ofList (chars.takeWhile (· ≠ '='))) with
  | none => .error .unknownArgument
  | some slot =>
    if slot.takesValue then r.option slot attached
    else if attached.isSome then .error .needlessValue
    else r.flag slot

/-- Options of one letter. What stands behind one that takes a value is its value. -/
def short (r : Reading) : List Char → Except UsageError Reading
  | [] => .ok r
  | c :: rest =>
    match shortOption? r.command c with
    | none => .error .unknownArgument
    | some slot =>
      if slot.takesValue then
        match rest with
        | [] => r.option slot none
        | '=' :: value => r.option slot (some (String.ofList value))
        | value => r.option slot (some (String.ofList value))
      else do
        let r ← r.flag slot
        r.short rest

/-- A word that is no option. At the top it should have been the name of a command. -/
def plain (r : Reading) (word : String) : Except UsageError Reading :=
  match r.expected, r.command with
  | [], none =>
    if r.literal && (word = "help" || (CommandName.ofWord? word).isSome) then
      .error .unknownArgument
    else .error .unknownCommand
  | [], some _ => .error .unknownArgument
  | slot :: later, _ =>
    match r.pending with
    | some (.files, words) => .ok { r with pending := some (.files, words ++ [word]) }
    | _ => do
      let r ← r.settle
      return { r with
        pending := some (slot, [word])
        expected := if slot.mayRepeat then r.expected else later }

def word (r : Reading) (w : String) : Except UsageError Reading :=
  if r.literal then r.plain w
  else
    match w.toList with
    | ['-', '-'] => .ok { r with literal := true }
    | '-' :: '-' :: chars => r.long chars
    | '-' :: c :: chars => r.short (c :: chars)
    | _ =>
      match r.pending with
      | some (slot, []) => .ok { r with pending := some (slot, [w]) }
      | _ => r.plain w

def text? (r : Reading) (slot : Slot) : Option String :=
  r.given.findSome? fun
    | (s, .text value) => if s = slot then some value else none
    | _ => none

def texts (r : Reading) (slot : Slot) : List String :=
  r.given.filterMap fun
    | (s, .text value) => if s = slot then some value else none
    | _ => none

def addresses (r : Reading) (slot : Slot) : List Address :=
  r.given.filterMap fun
    | (s, .address value) => if s = slot then some value else none
    | _ => none

def command? (r : Reading) : CommandName → Option Command
  | .importFiles =>
    if r.texts .files = [] then none
    else some (.importFiles (r.texts .files) (r.addresses .extraContext))
  | .publishContext => Command.publishContext <$> r.text? .file
  | .get => Command.get <$> (r.addresses .address).head?
  | .resolve => do return .resolve (← (r.addresses .address).head?) (← r.text? .path)

end Reading

/-- The words behind `help` should be the name of one command. -/
def helpOn : List String → UsageError
  | [] => .helpWanted
  | [w] => if w = "help" || (CommandName.ofWord? w).isSome then .helpWanted else .unknownCommand
  | _ => .unknownCommand

/-- The words behind the name of a command. What options say there counts before what they say at the
top, where values are looked at last. -/
def readCommand (top : Reading) (name : CommandName) (words : List String) :
    Except UsageError Invocation := do
  let r ← words.foldlM Reading.word { command := some name }
  let r ← r.settle
  match r.command? name with
  | none => throw .missingArgument
  | some command =>
    let top ← top.settle
    return {
      command
      configFile := (r.text? .config).or (top.text? .config)
      storeDirectory := (r.text? .store).or (top.text? .store) }

def readTop (r : Reading) : List String → Except UsageError Invocation
  | [] => do
    let r ← r.settle
    throw (if r.given.isEmpty then .nothingGiven else .missingCommand)
  | w :: rest =>
    if r.literal || r.isWaiting then do readTop (← r.word w) rest
    else if w = "help" then .error (helpOn rest)
    else
      match CommandName.ofWord? w with
      | some name => readCommand r name rest
      | none => do readTop (← r.word w) rest

end CommandLine

def Invocation.ofWords (words : List String) : Except UsageError Invocation :=
  CommandLine.readTop { command := none } words

end ContentGraph
