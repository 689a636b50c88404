import ContentGraph.Proofs.CommandGrowth

/-! What an import may do. When siblings are encoded at the same time it is not settled in which order
their objects are put, and if one of them fails, which of the others are left out and whose failure
is reported. The import that takes siblings in their order is one of those that may happen, and it is
the only one unless siblings are encoded at the same time. -/

namespace ContentGraph

/-- One thing after the other is done, up to the first that fails. -/
inductive OneByOne {α ε σ : Type} (Does : α → σ → Except ε Unit → σ → Prop) :
    List α → σ → Except ε Unit → σ → Prop
  | done {s : σ} : OneByOne Does [] s (.ok ()) s
  | failed {a : α} {rest : List α} {s last : σ} {e : ε} (h : Does a s (.error e) last) :
    OneByOne Does (a :: rest) s (.error e) last
  | next {a : α} {rest : List α} {s next last : σ} {result : Except ε Unit}
    (h : Does a s (.ok ()) next) (hrest : OneByOne Does rest next result last) :
    OneByOne Does (a :: rest) s result last

namespace OneByOne

variable {α ε σ : Type} {Does Does' : α → σ → Except ε Unit → σ → Prop} {as : List α} {s last : σ}
  {result : Except ε Unit}

theorem cons_iff {a : α} {rest : List α} : OneByOne Does (a :: rest) s result last ↔
    (∃ e, result = .error e ∧ Does a s (.error e) last) ∨
      ∃ next, Does a s (.ok ()) next ∧ OneByOne Does rest next result last := by
  constructor
  · intro h
    cases h with
    | failed h => exact .inl ⟨_, rfl, h⟩
    | next h hrest => exact .inr ⟨_, h, hrest⟩
  · rintro (⟨e, rfl, h⟩ | ⟨next, h, hrest⟩)
    · exact .failed h
    · exact .next h hrest

theorem singleton_iff {a : α} : OneByOne Does [a] s result last ↔ Does a s result last := by
  constructor
  · intro h
    cases h with
    | failed h => exact h
    | next h hrest =>
      cases hrest
      exact h
  · intro h
    cases result with
    | error e => exact .failed h
    | ok done => exact .next h .done

theorem mono (h : OneByOne Does as s result last)
    (hdoes : ∀ a s result next, Does a s result next → Does' a s result next) :
    OneByOne Does' as s result last := by
  induction h with
  | done => exact .done
  | failed hfirst => exact .failed (hdoes _ _ _ _ hfirst)
  | next hfirst _ ih => exact .next (hdoes _ _ _ _ hfirst) ih

/-- What is kept from each thing to the next one may be used to do it otherwise. -/
theorem imp {Keeps : σ → Prop} (h : OneByOne Does as s result last)
    (hdoes : ∀ a s result next, Keeps s → Does a s result next → Does' a s result next)
    (hkeeps : ∀ a s next, Keeps s → Does a s (.ok ()) next → Keeps next) (hs : Keeps s) :
    OneByOne Does' as s result last := by
  induction h with
  | done => exact .done
  | failed hfirst => exact .failed (hdoes _ _ _ _ hs hfirst)
  | next hfirst _ ih => exact .next (hdoes _ _ _ _ hs hfirst) (ih (hkeeps _ _ _ hs hfirst))

theorem congr {Keeps : σ → Prop}
    (hsame : ∀ a s result next, Keeps s → (Does a s result next ↔ Does' a s result next))
    (hkeeps : ∀ a s next, Keeps s → Does a s (.ok ()) next → Keeps next) (hs : Keeps s) :
    OneByOne Does as s result last ↔ OneByOne Does' as s result last :=
  ⟨fun h => h.imp (fun a s result next hs => (hsame a s result next hs).mp) hkeeps hs,
    fun h => h.imp (fun a s result next hs => (hsame a s result next hs).mpr)
      (fun a s next hs hdoes => hkeeps a s next hs ((hsame a s _ next hs).mpr hdoes)) hs⟩

end OneByOne

namespace Stateful

variable {ε σ α : Type} {f : α → Stateful ε σ Unit} {x : α} {s next : σ}

theorem forM_of_ok (h : f x s = (.ok (), next)) (rest : List α) :
    (x :: rest).forM f s = rest.forM f next :=
  bind_of_ok h

theorem forM_of_error {e : ε} (h : f x s = (.error e, next)) (rest : List α) :
    (x :: rest).forM f s = (.error e, next) :=
  bind_of_error h

theorem oneByOne_iff_forM {as : List α} {result : Except ε Unit} {last : σ} :
    OneByOne (fun a s result next => f a s = (result, next)) as s result last ↔
      as.forM f s = (result, last) := by
  constructor
  · intro h
    induction h with
    | done => rfl
    | failed h => exact forM_of_error h _
    | next h _ ih => rw [forM_of_ok h, ih]
  · intro h
    induction as generalizing s with
    | nil =>
      cases h
      exact .done
    | cons a rest ih =>
      rcases hfirst : f a s with ⟨e | done, next⟩
      · rw [forM_of_error hfirst] at h
        cases h
        exact .failed hfirst
      · rw [forM_of_ok hfirst] at h
        exact .next hfirst (ih h)

end Stateful

/-- What may come of converting a document into a store in a directory. -/
abbrev Conversions :=
  Converter → Bytes → DirectoryStore → Except IngestError Address → DirectoryStore → Prop

namespace Conversions

/-- Siblings are encoded in their order. -/
def InOrder : Conversions := fun c document s result last =>
  c.convert document s = (result, last)

/-- Siblings are encoded in their order or, if that is configured, at the same time: each put by
itself changes the store, in an order in which an element comes after all below it. -/
inductive Scheduled : Converter → Bytes → DirectoryStore → Except IngestError Address →
    DirectoryStore → Prop
  | inOrder {c : Converter} {document : Bytes} {s last : DirectoryStore}
    {result : Except IngestError Address} (h : InOrder c document s result last) :
    Scheduled c document s result last
  | atOnce {c : Converter} {document : Bytes} {root : Xml.Element} {calls : List PutCall}
    {outcome : Except EncodeError Address} {s last : DirectoryStore}
    (hparallel : c.config.parallel = true)
    (hparse : Xml.parseDocument c.config.maxDepth document = .ok root)
    (hrun : c.encoder.ElementRun 1 root calls outcome) (hreplay : Replays Store.put s calls last) :
    Scheduled c document s (outcome.mapError .encode) last

/-- Whatever is converted, a store that is open goes on to hold what it held. -/
def Grow (Converts : Conversions) : Prop :=
  ∀ c document s result last, s.IsOpen → Converts c document s result last → s.Grown last

theorem grow_inOrder : Grow InOrder := by
  intro c document s result last hopen h
  have hgrown := hopen.convert c document
  rw [show c.convert document s = _ from h] at hgrown
  exact hgrown

theorem grow_scheduled : Grow Scheduled := by
  intro c document s result last hopen h
  cases h with
  | inOrder h => exact grow_inOrder c document s result last hopen h
  | atOnce _ _ _ hreplay => exact hopen.replays hreplay

/-- Unless siblings are encoded at the same time, there is one schedule. -/
theorem scheduled_iff_of_not_parallel {c : Converter} {document : Bytes} {s last : DirectoryStore}
    {result : Except IngestError Address} (h : c.config.parallel = false) :
    Scheduled c document s result last ↔ InOrder c document s result last := by
  refine ⟨fun hscheduled => ?_, .inOrder⟩
  cases hscheduled with
  | inOrder horder => exact horder
  | atOnce hparallel => simp [h] at hparallel

end Conversions

namespace Commands

open DirectoryStore (Grown IsOpen)

section

variable (Converts : Conversions)

/-- What may come of a file that is imported into the store below `root`. -/
inductive ImportsFile (root : Path) (c : Converter) (file : String) (console : Console Disk) :
    Except Failure Unit → Console Disk → Prop
  | unread {failure : Failure} (hfile : openFile console.state file = .error failure) :
    ImportsFile root c file console (.error failure) console
  | refused {data : Bytes} {e : IngestError} {last : DirectoryStore}
    (hfile : openFile console.state file = .ok data)
    (hconverts : Converts c data ⟨root, console.state⟩ (.error e) last) :
    ImportsFile root c file console (.error (s!"importing {file}" :: e.chain))
      { console with state := last.disk }
  | imported {data : Bytes} {a : Address} {last : DirectoryStore}
    (hfile : openFile console.state file = .ok data)
    (hconverts : Converts c data ⟨root, console.state⟩ (.ok a) last) :
    ImportsFile root c file console (.ok ())
      ⟨last.disk, console.output ++ s!"✓ {a.text}  {file}" ++ "\n"⟩

/-- What an import begins with: its settings, the store and the contexts. -/
def prepareImport (contexts : List Address) (configFile storeDirectory : Option String) :
    Stateful Failure Disk (Path × Converter) := fun disk =>
  match loadSettings disk configFile with
  | .error failure => (.error failure, disk)
  | .ok settings =>
    match Disk.createDirectories (rootOf storeDirectory settings) disk with
    | (.error e, disk) =>
      (.error [s!"opening store {storeDirectory.getD settings.storeDirectory}", e.message], disk)
    | (.ok (), disk) =>
      match Converter.load (DirectoryStore.mk (rootOf storeDirectory settings) disk)
          (settings.contexts ++ contexts) with
      | .error e => (.error e.chain, disk)
      | .ok c =>
        (.ok (rootOf storeDirectory settings, { c with config := settings.encoder }), disk)

/-- What may come of an import, and what it prints. -/
inductive ImportRun (files : List String) (contexts : List Address)
    (configFile storeDirectory : Option String) (console : Console Disk) :
    Except Failure Unit → Console Disk → Prop
  | unprepared {failure : Failure} {disk : Disk}
    (hprepare : prepareImport contexts configFile storeDirectory console.state =
      (.error failure, disk)) :
    ImportRun files contexts configFile storeDirectory console (.error failure)
      { console with state := disk }
  | prepared {root : Path} {c : Converter} {disk : Disk} {result : Except Failure Unit}
    {after : Console Disk}
    (hprepare : prepareImport contexts configFile storeDirectory console.state =
      (.ok (root, c), disk))
    (hfiles : OneByOne (ImportsFile Converts root c) files { console with state := disk } result
      after) :
    ImportRun files contexts configFile storeDirectory console result after

end

section

variable {Converts : Conversions} {root : Path} {c : Converter} {console after : Console Disk}
  {result : Except Failure Unit}

theorem ImportsFile.mono {Converts' : Conversions} {file : String}
    (h : ImportsFile Converts root c file console result after)
    (hconverts : ∀ document s result last,
      Converts c document s result last → Converts' c document s result last) :
    ImportsFile Converts' root c file console result after := by
  cases h with
  | unread hfile => exact .unread hfile
  | refused hfile h => exact .refused hfile (hconverts _ _ _ _ h)
  | imported hfile h => exact .imported hfile (hconverts _ _ _ _ h)

theorem ImportsFile.grown {file : String} (h : ImportsFile Converts root c file console result after)
    (hgrow : Converts.Grow) (hopen : IsOpen ⟨root, console.state⟩) :
    Grown ⟨root, console.state⟩ ⟨root, after.state⟩ := by
  cases h with
  | unread => exact hopen.refl
  | refused _ hconverts | imported _ hconverts =>
    have hgrown := hgrow _ _ _ _ _ hopen hconverts
    exact ⟨rfl, hgrown.grows, hgrown.tree⟩

variable {files : List String} {contexts : List Address} {configFile storeDirectory : Option String}
  {disk : Disk}

theorem importRun_iff_of_prepared
    (h : prepareImport contexts configFile storeDirectory console.state = (.ok (root, c), disk)) :
    ImportRun Converts files contexts configFile storeDirectory console result after ↔
      OneByOne (ImportsFile Converts root c) files { console with state := disk } result after := by
  refine ⟨fun himport => ?_, .prepared h⟩
  cases himport with
  | unprepared hprepare =>
    rw [h] at hprepare
    cases hprepare
  | prepared hprepare hfiles =>
    rw [h] at hprepare
    cases hprepare
    exact hfiles

theorem importRun_iff_of_unprepared {failure : Failure}
    (h : prepareImport contexts configFile storeDirectory console.state = (.error failure, disk)) :
    ImportRun Converts files contexts configFile storeDirectory console result after ↔
      result = .error failure ∧ after = { console with state := disk } := by
  constructor
  · intro himport
    cases himport with
    | unprepared hprepare =>
      rw [h] at hprepare
      cases hprepare
      exact ⟨rfl, rfl⟩
    | prepared hprepare =>
      rw [h] at hprepare
      cases hprepare
  · rintro ⟨rfl, rfl⟩
    exact .unprepared h

theorem exists_of_prepareImport {opened : Disk}
    (h : prepareImport contexts configFile storeDirectory disk = (.ok (root, c), opened)) :
    ∃ settings converter, loadSettings disk configFile = .ok settings ∧
      root = rootOf storeDirectory settings ∧
      Disk.createDirectories root disk = (.ok (), opened) ∧
      Converter.load (DirectoryStore.mk root opened) (settings.contexts ++ contexts) =
        .ok converter ∧
      c = { converter with config := settings.encoder } := by
  unfold prepareImport at h
  split at h
  · cases h
  · next settings hsettings =>
    split at h
    · cases h
    · next made hopen =>
      split at h
      · cases h
      · next converter hload =>
        cases h
        exact ⟨settings, converter, hsettings, rfl, hopen, hload, rfl⟩

end

section InOrder

variable {root : Path} {c : Converter} {console after : Console Disk} {result : Except Failure Unit}

theorem importFile_of_unread {file : String} {failure : Failure}
    (hfile : openFile console.state file = .error failure) :
    onDisk root (importFile c file) console = (.error failure, console) := by
  rw [onDisk, importFile, Stateful.bind_of_ok (get_console _), hfile]
  rfl

theorem importFile_of_refused {file : String} {data : Bytes} {e : IngestError}
    {last : DirectoryStore} (hfile : openFile console.state file = .ok data)
    (hconvert : c.convert data ⟨root, console.state⟩ = (.error e, last)) :
    onDisk root (importFile c file) console =
      (.error (s!"importing {file}" :: e.chain), { console with state := last.disk }) := by
  have hstate : onState (fun e => s!"importing {file}" :: e.chain) (c.convert data)
      { console with state := ⟨root, console.state⟩ } =
        (.error (s!"importing {file}" :: e.chain), { console with state := last }) := by
    rw [onState, hconvert]
  have himport : importFile c file { console with state := ⟨root, console.state⟩ } =
      (.error (s!"importing {file}" :: e.chain), { console with state := last }) := by
    rw [importFile, Stateful.bind_of_ok (get_console _), hfile, Stateful.bind_of_ok (orFail_ok _ _ _),
      Stateful.bind_of_error hstate]
  rw [onDisk, himport]

theorem importFile_of_imported {file : String} {data : Bytes} {a : Address} {last : DirectoryStore}
    (hfile : openFile console.state file = .ok data)
    (hconvert : c.convert data ⟨root, console.state⟩ = (.ok a, last)) :
    onDisk root (importFile c file) console =
      (.ok (), ⟨last.disk, console.output ++ s!"✓ {a.text}  {file}" ++ "\n"⟩) := by
  have hstate : onState (fun e => s!"importing {file}" :: e.chain) (c.convert data)
      { console with state := ⟨root, console.state⟩ } =
        (.ok a, { console with state := last }) := by
    rw [onState, hconvert]
  have himport : importFile c file { console with state := ⟨root, console.state⟩ } =
      printLine s!"✓ {a.text}  {file}" { console with state := last } := by
    rw [importFile, Stateful.bind_of_ok (get_console _), hfile, Stateful.bind_of_ok (orFail_ok _ _ _),
      Stateful.bind_of_ok hstate]
  rw [onDisk, himport]
  rfl

/-- In their order, siblings leave one thing that may come of a file. -/
theorem importsFile_inOrder_iff {file : String} :
    ImportsFile .InOrder root c file console result after ↔
      onDisk root (importFile c file) console = (result, after) := by
  constructor
  · intro h
    cases h with
    | unread hfile => exact importFile_of_unread hfile
    | refused hfile hconvert => exact importFile_of_refused hfile hconvert
    | imported hfile hconvert => exact importFile_of_imported hfile hconvert
  · intro h
    cases hfile : openFile console.state file with
    | error failure =>
      rw [importFile_of_unread hfile] at h
      cases h
      exact .unread hfile
    | ok data =>
      rcases hconvert : c.convert data (DirectoryStore.mk root console.state) with ⟨e | a, last⟩
      · rw [importFile_of_refused hfile hconvert] at h
        cases h
        exact .refused hfile hconvert
      · rw [importFile_of_imported hfile hconvert] at h
        cases h
        exact .imported hfile hconvert

/-- The store stays where it is, so it may be taken from the disk again for each file. -/
theorem forM_onDisk (c : Converter) {console : Console Disk} (h : IsOpen ⟨root, console.state⟩)
    (files : List String) : files.forM (fun file => onDisk root (importFile c file)) console =
      onDisk root (files.forM (importFile c)) console := by
  let importOne (file : String) : Run Disk Unit := onDisk root (importFile c file)
  induction files generalizing console with
  | nil => rfl
  | cons file rest ih =>
    have hgrown := adds_importFile c file { console with state := ⟨root, console.state⟩ } h
    rcases hfile : importFile c file { console with state := ⟨root, console.state⟩ } with
      ⟨failure | done, ⟨⟨root', disk⟩, output⟩⟩
    · have hone : importOne file console = (.error failure, ⟨disk, output⟩) := by
        show onDisk root (importFile c file) console = _
        rw [onDisk, hfile]
      rw [onDisk, Stateful.forM_of_error hfile]
      exact Stateful.forM_of_error hone rest
    · rw [hfile] at hgrown
      obtain rfl : root' = root := hgrown.root
      have hone : importOne file console = (.ok (), ⟨disk, output⟩) := by
        show onDisk root' (importFile c file) console = _
        rw [onDisk, hfile]
      rw [onDisk, Stateful.forM_of_ok hfile]
      exact (Stateful.forM_of_ok hone rest).trans (@ih ⟨disk, output⟩ (hgrown.isOpen h))

theorem oneByOne_inOrder_iff (h : IsOpen ⟨root, console.state⟩) (files : List String) :
    OneByOne (ImportsFile .InOrder root c) files console result after ↔
      onDisk root (files.forM (importFile c)) console = (result, after) := by
  rw [← forM_onDisk c h, ← Stateful.oneByOne_iff_forM]
  simp only [← importsFile_inOrder_iff]

end InOrder

section Program

variable {files : List String} {contexts : List Address} {configFile storeDirectory : Option String}
  {console after : Console Disk} {result : Except Failure Unit} {root : Path} {c : Converter}
  {disk : Disk}

theorem importFiles_eq (settings : Settings) (files : List String) (contexts : List Address)
    (console : Console DirectoryStore) :
    importFiles settings files contexts console =
      match Converter.load console.state (settings.contexts ++ contexts) with
      | .error e => (.error e.chain, console)
      | .ok converter =>
        files.forM (importFile { converter with config := settings.encoder }) console := by
  rw [importFiles, Stateful.bind_of_ok (get_console _)]
  cases Converter.load console.state (settings.contexts ++ contexts) <;> rfl

theorem run_of_unprepared {failure : Failure}
    (h : prepareImport contexts configFile storeDirectory console.state = (.error failure, disk)) :
    run ⟨.importFiles files contexts, configFile, storeDirectory⟩ console =
      (.error failure, { console with state := disk }) := by
  unfold prepareImport at h
  split at h
  · next hsettings =>
    cases h
    exact run_of_unreadable hsettings
  · next hsettings =>
    split at h
    · next hopen =>
      cases h
      exact run_of_unopened hsettings hopen
    · next hopen =>
      split at h
      · next hload =>
        cases h
        rw [run_of_opened hsettings hopen, onDisk, runCommand, importFiles_eq]
        simp only [hload]
      · cases h

theorem run_of_prepared
    (h : prepareImport contexts configFile storeDirectory console.state = (.ok (root, c), disk)) :
    run ⟨.importFiles files contexts, configFile, storeDirectory⟩ console =
      onDisk root (files.forM (importFile c)) { console with state := disk } := by
  obtain ⟨settings, converter, hsettings, rfl, hopen, hload, rfl⟩ := exists_of_prepareImport h
  rw [run_of_opened hsettings hopen]
  simp only [onDisk, runCommand, importFiles_eq, hload]

/-- What is made on the way are directories. -/
theorem addsDirectories_of_prepareImport {opened : Disk} (htree : disk.IsTree)
    (h : prepareImport contexts configFile storeDirectory disk = (.ok (root, c), opened)) :
    disk.AddsDirectories opened := by
  obtain ⟨settings, converter, -, rfl, hopen, -, -⟩ := exists_of_prepareImport h
  have hadds := htree.createDirectories (rootOf storeDirectory settings)
  rw [hopen] at hadds
  exact hadds

theorem isOpen_of_prepareImport {opened : Disk} (htree : disk.IsTree)
    (h : prepareImport contexts configFile storeDirectory disk = (.ok (root, c), opened)) :
    IsOpen ⟨root, opened⟩ := by
  obtain ⟨settings, converter, -, -, hopen, -, -⟩ := exists_of_prepareImport h
  exact ⟨(addsDirectories_of_prepareImport htree h).isTree,
    Disk.opens_of_createDirectories hopen⟩

theorem importRun_inOrder_iff (htree : console.state.IsTree) :
    ImportRun .InOrder files contexts configFile storeDirectory console result after ↔
      run ⟨.importFiles files contexts, configFile, storeDirectory⟩ console = (result, after) := by
  rcases hprepare : prepareImport contexts configFile storeDirectory console.state with
    ⟨failure | ⟨root, c⟩, disk⟩
  · rw [importRun_iff_of_unprepared hprepare, run_of_unprepared hprepare, Prod.mk.injEq]
    exact and_congr eq_comm eq_comm
  · have hopen := isOpen_of_prepareImport htree hprepare
    rw [importRun_iff_of_prepared hprepare, run_of_prepared hprepare]
    exact oneByOne_inOrder_iff hopen files

theorem ImportRun.mono {Converts Converts' : Conversions}
    (h : ImportRun Converts files contexts configFile storeDirectory console result after)
    (hconverts : ∀ root c disk,
      prepareImport contexts configFile storeDirectory console.state = (.ok (root, c), disk) →
      ∀ document s result last, Converts c document s result last →
        Converts' c document s result last) :
    ImportRun Converts' files contexts configFile storeDirectory console result after := by
  cases h with
  | unprepared hprepare => exact .unprepared hprepare
  | prepared hprepare hfiles =>
    have hfile := hconverts _ _ _ hprepare
    exact .prepared hprepare (hfiles.mono fun _ _ _ _ h => h.mono hfile)

/-- What the program does is one of the things that may happen. -/
theorem importRun_run (htree : console.state.IsTree) :
    ImportRun .Scheduled files contexts configFile storeDirectory console
      (run ⟨.importFiles files contexts, configFile, storeDirectory⟩ console).1
      (run ⟨.importFiles files contexts, configFile, storeDirectory⟩ console).2 :=
  ((importRun_inOrder_iff htree).mpr rfl).mono fun _ _ _ _ _ _ _ _ => .inOrder

/-- If the settings have siblings encoded in their order, nothing else may happen. -/
theorem importRun_iff_run (htree : console.state.IsTree)
    (horder : ∀ settings, loadSettings console.state configFile = .ok settings →
      settings.encoder.parallel = false) :
    ImportRun .Scheduled files contexts configFile storeDirectory console result after ↔
      run ⟨.importFiles files contexts, configFile, storeDirectory⟩ console = (result, after) := by
  rw [← importRun_inOrder_iff htree]
  refine ⟨fun h => h.mono fun root c disk hprepare document s result last hconverts => ?_,
    fun h => h.mono fun _ _ _ _ _ _ _ _ => .inOrder⟩
  obtain ⟨settings, converter, hsettings, -, -, -, rfl⟩ := exists_of_prepareImport hprepare
  exact (Conversions.scheduled_iff_of_not_parallel (horder settings hsettings)).mp hconverts

end Program

end Commands

end ContentGraph
