import ContentGraph.Commands
import ContentGraph.Proofs.EncodingRuns
import ContentGraph.Proofs.GrowingDisk

/-! What commands do to a disk. All of them add directories and files at most, and what was there
before is found as it was. -/

namespace ContentGraph

namespace DirectoryStore

variable {s later : DirectoryStore}

theorem Grown.get (h : s.Grown later) {a : Address} {o : Object} (hget : Store.get s a = .ok o) :
    Store.get later a = .ok o := by
  unfold Store.get at hget ⊢
  cases hread : Backend.read s a.text with
  | error e =>
    rw [hread] at hget
    cases hget
  | ok found =>
    cases found with
    | none =>
      rw [hread] at hget
      cases hget
    | some data =>
      have hagain : Backend.read later a.text = .ok (some data) := h.read hread
      rw [hread] at hget
      rw [hagain]
      exact hget

theorem IsOpen.put (h : s.IsOpen) (o : Object) : s.Grown (Store.put o s).2 := by
  have hwrite : s.Grown (Backend.write s o.address.text o.data).2 := h.write _ _
  unfold Store.put
  rcases hresult : Backend.write s o.address.text o.data with ⟨_ | _, _⟩ <;>
  · rw [hresult] at hwrite
    exact hwrite

theorem IsOpen.replays (h : s.IsOpen) {calls : List PutCall}
    (hreplay : Replays Store.put s calls later) : s.Grown later := by
  induction hreplay with
  | nil => exact h.refl
  | @stored s next last o calls hput _ ih =>
    have hfirst := h.put o
    rw [hput] at hfirst
    exact hfirst.trans (ih (hfirst.isOpen h))
  | @refused s next last o cause calls hput _ ih =>
    have hfirst := h.put o
    rw [hput] at hfirst
    exact hfirst.trans (ih (hfirst.isOpen h))

theorem IsOpen.convert (h : s.IsOpen) (c : Converter) (document : Bytes) :
    s.Grown (c.convert document s).2 := by
  have hencode : s.Grown (c.encoder.encodeDocument Store.put document s).2 := by
    unfold Encoder.encodeDocument
    cases Xml.parseDocument c.encoder.config.maxDepth document with
    | error cause => exact h.refl
    | ok root =>
      obtain ⟨calls, -, hreplay⟩ := Encoder.exists_elementRun Store.put c.encoder 1 root s
      exact h.replays hreplay
  unfold Converter.convert
  rcases hresult : c.encoder.encodeDocument Store.put document s with ⟨_ | _, _⟩ <;>
  · rw [hresult] at hencode
    exact hencode

end DirectoryStore

namespace Commands

open DirectoryStore (Grown IsOpen)

/-- Changes nothing in a store that is open, but may add to it. -/
def Adds {α : Type} (command : Run DirectoryStore α) : Prop :=
  ∀ console : Console DirectoryStore,
    console.state.IsOpen → console.state.Grown (command console).2.state

section

variable {α β ε : Type} {command : Run DirectoryStore α}

theorem Adds.bind {next : α → Run DirectoryStore β} (h : Adds command)
    (hnext : ∀ a, Adds (next a)) : Adds (command >>= next) := by
  intro console hopen
  have hfirst := h console hopen
  rcases hresult : command console with ⟨e | a, after⟩
  · rw [hresult] at hfirst
    rw [Stateful.bind_of_error hresult]
    exact hfirst
  · rw [hresult] at hfirst
    rw [Stateful.bind_of_ok hresult]
    exact hfirst.trans (hnext a after (hfirst.isOpen hopen))

theorem adds_of_same (h : ∀ console, (command console).2.state = console.state) : Adds command := by
  intro console hopen
  rw [h console]
  exact hopen.refl

theorem get_console {σ : Type} (console : Console σ) :
    (get : Run σ (Console σ)) console = (.ok console, console) := rfl

theorem orFail_ok {σ : Type} (describe : ε → Failure) (a : α) (console : Console σ) :
    orFail describe (.ok a) console = (.ok a, console) := rfl

theorem adds_get : Adds (get : Run DirectoryStore (Console DirectoryStore)) :=
  adds_of_same fun _ => rfl

theorem adds_printLine (line : String) : Adds (printLine line) :=
  adds_of_same fun _ => rfl

theorem adds_orFail (describe : ε → Failure) (result : Except ε α) :
    Adds (orFail describe result) := by
  apply adds_of_same
  cases result <;> exact fun _ => rfl

theorem adds_onState {describe : ε → Failure} {change : Stateful ε DirectoryStore α}
    (h : ∀ s : DirectoryStore, s.IsOpen → s.Grown (change s).2) : Adds (onState describe change) := by
  intro console hopen
  have hchange := h console.state hopen
  unfold onState
  rcases hresult : change console.state with ⟨_ | _, _⟩ <;>
  · rw [hresult] at hchange
    exact hchange

theorem adds_forM {each : α → Run DirectoryStore PUnit} (h : ∀ a, Adds (each a)) (as : List α) :
    Adds (as.forM each) := by
  induction as with
  | nil => exact adds_of_same fun _ => rfl
  | cons a rest ih => exact (h a).bind fun _ => ih

end

theorem adds_importFile (converter : Converter) (file : String) :
    Adds (importFile converter file) := by
  refine adds_get.bind fun console => (adds_orFail _ _).bind fun data => ?_
  refine Adds.bind (adds_onState fun s hopen => ?_) fun root => adds_printLine _
  exact hopen.convert converter data

theorem adds_publishContext (file : String) : Adds (publishContext file) := by
  refine adds_get.bind fun console => (adds_orFail _ _).bind fun text => ?_
  split
  · exact adds_of_same fun _ => rfl
  · refine (adds_orFail _ _).bind fun o => ?_
    refine Adds.bind (adds_onState fun s hopen => ?_) fun _ => adds_printLine _
    exact hopen.put o

theorem adds_resolvePath (settings : Settings) (a : Address) (argument : String) :
    Adds (resolvePath settings a argument) := by
  refine adds_get.bind fun console => (adds_orFail _ _).bind fun graph => ?_
  refine (adds_orFail _ _).bind fun found => ?_
  split <;> exact adds_printLine _

theorem adds_runCommand (settings : Settings) (command : Command) :
    Adds (runCommand settings command) := by
  cases command with
  | importFiles files contexts =>
    refine adds_get.bind fun console => (adds_orFail _ _).bind fun converter => ?_
    exact adds_forM (adds_importFile _) files
  | publishContext file => exact adds_publishContext file
  | get a =>
    refine adds_get.bind fun console => (adds_orFail _ _).bind fun o => ?_
    exact adds_printLine _
  | resolve a path => exact adds_resolvePath settings a path

/-- What a command does to a store that is open, as what it does to the disk. -/
def onDisk (root : Path) (command : Run DirectoryStore Unit) : Run Disk Unit := fun console =>
  ((command { console with state := ⟨root, console.state⟩ }).1,
    { (command { console with state := ⟨root, console.state⟩ }).2 with
      state := (command { console with state := ⟨root, console.state⟩ }).2.state.disk })

def rootOf (storeDirectory : Option String) (settings : Settings) : Path :=
  ⟨storeDirectory.getD settings.storeDirectory⟩

section

variable {command : Command} {configFile storeDirectory : Option String} {settings : Settings}
  {console : Console Disk}

theorem run_of_unreadable {failure : Failure}
    (h : loadSettings console.state configFile = .error failure) :
    run ⟨command, configFile, storeDirectory⟩ console = (.error failure, console) := by
  simp only [run, h]

theorem run_of_unopened {e : IoError} {disk : Disk}
    (hsettings : loadSettings console.state configFile = .ok settings)
    (hopen : Disk.createDirectories (rootOf storeDirectory settings) console.state =
      (.error e, disk)) :
    run ⟨command, configFile, storeDirectory⟩ console =
      (.error [s!"opening store {storeDirectory.getD settings.storeDirectory}", e.message],
        { console with state := disk }) := by
  rw [rootOf] at hopen
  simp only [run, hsettings, DirectoryStore.open, hopen]
  rfl

theorem run_of_opened {disk : Disk}
    (hsettings : loadSettings console.state configFile = .ok settings)
    (hopen : Disk.createDirectories (rootOf storeDirectory settings) console.state =
      (.ok (), disk)) :
    run ⟨command, configFile, storeDirectory⟩ console =
      onDisk (rootOf storeDirectory settings) (runCommand settings command)
        { console with state := disk } := by
  rw [rootOf] at hopen
  simp only [run, hsettings, DirectoryStore.open, hopen]
  rfl

end

theorem openFile_of_grows {d later : Disk} (h : d.Grows later) {file : String} {data : Bytes}
    (hfile : openFile d file = .ok data) : openFile later file = .ok data := by
  unfold openFile at hfile ⊢
  split at hfile
  · next hread =>
    cases hfile
    rw [h.readFile hread]
  · split at hfile <;> cases hfile

theorem loadSettings_of_grows {d later : Disk} (h : d.Grows later) {configFile : Option String}
    {settings : Settings} (hsettings : loadSettings d configFile = .ok settings) :
    loadSettings later configFile = .ok settings := by
  cases configFile with
  | none => exact hsettings
  | some file =>
    rw [loadSettings] at hsettings ⊢
    cases htext : d.readText ⟨file⟩ with
    | error e =>
      rw [htext] at hsettings
      cases hsettings
    | ok text =>
      rw [htext] at hsettings
      rw [h.readText htext]
      exact hsettings

/-- What a command does to the disk of an open store leaves the store open and the rest as it was. -/
theorem grown_onDisk (settings : Settings) (command : Command) {root : Path}
    {console : Console Disk} (h : IsOpen ⟨root, console.state⟩) :
    Grown ⟨root, console.state⟩
      ⟨root, (onDisk root (runCommand settings command) console).2.state⟩ := by
  have hgrown := adds_runCommand settings command { console with state := ⟨root, console.state⟩ } h
  exact ⟨rfl, hgrown.grows, hgrown.tree⟩

/-- An invocation fails before its store is open, or its command acts on the disk of the store. -/
theorem run_cases (invocation : Invocation) {console : Console Disk} (h : console.state.IsTree) :
    (∃ failure disk, console.state.Grows disk ∧ disk.IsTree ∧
      run invocation console = (.error failure, { console with state := disk })) ∨
    ∃ settings disk, console.state.Grows disk ∧
      loadSettings disk invocation.configFile = .ok settings ∧
      IsOpen ⟨rootOf invocation.storeDirectory settings, disk⟩ ∧
      run invocation console =
        onDisk (rootOf invocation.storeDirectory settings) (runCommand settings invocation.command)
          { console with state := disk } := by
  obtain ⟨command, configFile, storeDirectory⟩ := invocation
  cases hsettings : loadSettings console.state configFile with
  | error failure => exact .inl ⟨failure, console.state, .refl _, h, run_of_unreadable hsettings⟩
  | ok settings =>
    have hadds := h.createDirectories (rootOf storeDirectory settings)
    rcases hopen : Disk.createDirectories (rootOf storeDirectory settings) console.state with
      ⟨e | done, disk⟩
    · rw [hopen] at hadds
      exact .inl ⟨_, disk, hadds.toGrows, hadds.isTree, run_of_unopened hsettings hopen⟩
    · rw [hopen] at hadds
      exact .inr ⟨settings, disk, hadds.toGrows, loadSettings_of_grows hadds.toGrows hsettings,
        ⟨hadds.isTree, Disk.opens_of_createDirectories hopen⟩, run_of_opened hsettings hopen⟩

/-- No invocation changes what is on a disk, or takes anything away. -/
theorem run_grows (invocation : Invocation) {console : Console Disk} (h : console.state.IsTree) :
    console.state.Grows (run invocation console).2.state ∧
      (run invocation console).2.state.IsTree := by
  rcases run_cases invocation h with
    ⟨failure, disk, hgrows, htree, hrun⟩ | ⟨settings, disk, hgrows, -, hopen, hrun⟩
  · rw [hrun]
    exact ⟨hgrows, htree⟩
  · have hgrown := @grown_onDisk settings invocation.command _ { console with state := disk } hopen
    rw [hrun]
    exact ⟨hgrows.trans hgrown.grows, hgrown.tree⟩

end Commands

end ContentGraph
