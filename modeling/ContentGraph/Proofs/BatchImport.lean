import ContentGraph.Proofs.DirectoryRefinement
import ContentGraph.Proofs.ImportRuns
import ContentGraph.Proofs.Reingestion

/-! Files that are imported together, and one by one. Each import opens the store and loads its
settings and contexts again, and finds them as they were, since the files before it have only added to
the disk. So the same may come of both, whatever turns siblings take. -/

namespace ContentGraph

namespace Commands

open DirectoryStore (Grown IsOpen)

/-- An import of one file. -/
def importAlone (contexts : List Address) (configFile storeDirectory : Option String)
    (file : String) : Run Disk Unit :=
  run ⟨.importFiles [file] contexts, configFile, storeDirectory⟩

/-- An import finds its settings, its store and its contexts, and has nothing to make. -/
structure Ready (contexts : List Address) (configFile storeDirectory : Option String)
    (root : Path) (c : Converter) (disk : Disk) : Prop where
  prepares : prepareImport contexts configFile storeDirectory disk = (.ok (root, c), disk)
  isOpen : IsOpen ⟨root, disk⟩

section

variable {Converts : Conversions} {contexts : List Address}
  {configFile storeDirectory : Option String} {root : Path} {c : Converter} {disk later : Disk}

/-- What the first import has loaded, a later one finds. -/
theorem ready_of_prepareImport {opened : Disk} (htree : disk.IsTree)
    (h : prepareImport contexts configFile storeDirectory disk = (.ok (root, c), opened))
    (hgrown : Grown ⟨root, opened⟩ ⟨root, later⟩) :
    Ready contexts configFile storeDirectory root c later := by
  obtain ⟨settings, converter, hsettings, rfl, -, hload, rfl⟩ := exists_of_prepareImport h
  have hadds := addsDirectories_of_prepareImport htree h
  have hopen := hgrown.isOpen (isOpen_of_prepareImport htree h)
  have hsettings' := loadSettings_of_grows (hadds.toGrows.trans hgrown.grows) hsettings
  have hmade := hopen.opens.createDirectories_eq
  have hload' := Converter.load_of_get (fun _ _ => hgrown.get) hload
  exact ⟨by simp only [prepareImport, hsettings', hmade, hload'], hopen⟩

theorem Ready.grow (h : Ready contexts configFile storeDirectory root c disk)
    (hgrown : Grown ⟨root, disk⟩ ⟨root, later⟩) :
    Ready contexts configFile storeDirectory root c later :=
  ready_of_prepareImport h.isOpen.tree h.prepares hgrown

variable {console after : Console Disk} {result : Except Failure Unit}

theorem Ready.importRun_iff_oneByOne (hgrow : Converts.Grow)
    (h : Ready contexts configFile storeDirectory root c console.state) (files : List String) :
    ImportRun Converts files contexts configFile storeDirectory console result after ↔
      OneByOne (fun file => ImportRun Converts [file] contexts configFile storeDirectory) files
        console result after := by
  have hone (file : String) (s : Console Disk) (result : Except Failure Unit) (next : Console Disk)
      (hs : Ready contexts configFile storeDirectory root c s.state) :
      ImportsFile Converts root c file s result next ↔
        ImportRun Converts [file] contexts configFile storeDirectory s result next :=
    ((importRun_iff_of_prepared hs.prepares).trans OneByOne.singleton_iff).symm
  rw [importRun_iff_of_prepared h.prepares]
  exact OneByOne.congr hone (fun file s next hs hfile => hs.grow (hfile.grown hgrow hs.isOpen)) h

/-- However documents are converted, the same may come of a batch and of its files one by one. -/
theorem importRun_iff_oneByOne (hgrow : Converts.Grow) (htree : console.state.IsTree)
    (first : String) (others : List String) :
    ImportRun Converts (first :: others) contexts configFile storeDirectory console result after ↔
      OneByOne (fun file => ImportRun Converts [file] contexts configFile storeDirectory)
        (first :: others) console result after := by
  rcases hprepare : prepareImport contexts configFile storeDirectory console.state with
    ⟨failure | ⟨root, c⟩, disk⟩
  · -- before the first file is looked at, both fail alike
    simp only [OneByOne.cons_iff, importRun_iff_of_unprepared hprepare]
    constructor
    · rintro ⟨rfl, rfl⟩
      exact .inl ⟨failure, rfl, rfl, rfl⟩
    · rintro (⟨e, rfl, hsame, rfl⟩ | ⟨next, ⟨hok, -⟩, -⟩)
      · exact ⟨hsame, rfl⟩
      · cases hok
  · have hready := ready_of_prepareImport htree hprepare (isOpen_of_prepareImport htree hprepare).refl
    let opened : Console Disk := { console with state := disk }
    have hopened (files : List String) (result : Except Failure Unit) (after : Console Disk) :
        ImportRun Converts files contexts configFile storeDirectory console result after ↔
          ImportRun Converts files contexts configFile storeDirectory opened result after :=
      (importRun_iff_of_prepared hprepare).trans
        (@importRun_iff_of_prepared _ _ _ opened _ _ _ _ _ _ _ hready.prepares).symm
    have hfiles : ImportRun Converts (first :: others) contexts configFile storeDirectory opened
        result after ↔ _ := hready.importRun_iff_oneByOne hgrow (first :: others)
    rw [hopened, hfiles, OneByOne.cons_iff, OneByOne.cons_iff]
    simp only [hopened [first]]

end

/-- Of files that are imported together the same may come as of each file imported by itself, up to
the first that fails: the same output, result and disk, whatever turns siblings take. If they are
taken in their order, there is one thing that comes of both. -/
theorem batch_import_eq (first : String) (others : List String) (contexts : List Address)
    (configFile storeDirectory : Option String) (console : Console Disk)
    (h : console.state.IsTree) :
    (∀ result after,
      ImportRun .Scheduled (first :: others) contexts configFile storeDirectory console result after ↔
        OneByOne (fun file => ImportRun .Scheduled [file] contexts configFile storeDirectory)
          (first :: others) console result after) ∧
    run ⟨.importFiles (first :: others) contexts, configFile, storeDirectory⟩ console =
      (first :: others).forM (importAlone contexts configFile storeDirectory) console := by
  refine ⟨fun result after => importRun_iff_oneByOne Conversions.grow_scheduled h first others, ?_⟩
  have hrun := (importRun_inOrder_iff h).mpr
    (Eq.refl (run ⟨.importFiles (first :: others) contexts, configFile, storeDirectory⟩ console))
  have hfiles := (importRun_iff_oneByOne Conversions.grow_inOrder h first others).mp hrun
  have hone (file : String) (s : Console Disk) (result : Except Failure Unit) (next : Console Disk)
      (hs : s.state.IsTree)
      (hfile : ImportRun .InOrder [file] contexts configFile storeDirectory s result next) :
      importAlone contexts configFile storeDirectory file s = (result, next) :=
    (importRun_inOrder_iff hs).mp hfile
  have htree (file : String) (s next : Console Disk) (hs : s.state.IsTree)
      (hfile : ImportRun .InOrder [file] contexts configFile storeDirectory s (.ok ()) next) :
      next.state.IsTree := by
    have hgrows := run_grows ⟨.importFiles [file] contexts, configFile, storeDirectory⟩ hs
    rw [(importRun_inOrder_iff hs).mp hfile] at hgrows
    exact hgrows.2
  exact (Stateful.oneByOne_iff_forM.mp (hfiles.imp hone htree h)).symm

open Encoder (smallLeaf smallLeafObject smallLeafShape ElementRun ChildrenRun ShapeRun)

def leafWritten : Xml.Tree :=
  .pair ⟨⟨none, Xml.nameB⟩, [], List.nodup_nil⟩ (.last [.text "x"])

/-- The element `c` has no type. -/
def untypedWritten : Xml.Tree :=
  .single ⟨⟨none, ⟨"c", by decide, by simp⟩⟩, [], List.nodup_nil⟩

def brokenWritten : Xml.Tree :=
  .pair ⟨⟨none, Xml.nameA⟩, [], List.nodup_nil⟩
    (.child [] untypedWritten (.child [] smallWritten (.last [])))

def untypedElement : Xml.Element :=
  ⟨none, "c", [], [], [""]⟩

def brokenElement : Xml.Element :=
  ⟨none, "a", [], [untypedElement, parsedDocument], ["", "", ""]⟩

/-- A working directory with settings and two documents, and a directory for the store. -/
def newDesk : Disk where
  entries :=
    [(["desk", "c.toml"], .file (utf8 "[encoder]\nparallel = true\n")),
      (["desk", "a.xml"], .file (utf8 leafWritten.written)),
      (["desk", "b.xml"], .file (utf8 brokenWritten.written)),
      (["desk", ".meta"], .directory), (["desk"], .directory)]
  workingDirectory := ["desk"]
  limits := ⟨none, none⟩

def deskConverter : Converter :=
  { smallConverter with config := { parallel := true } }

theorem leafWritten_parse : Xml.parseDocument 256 (utf8 leafWritten.written) = .ok smallLeaf := by
  have hheight : leafWritten.height ≤ 256 := by decide
  rw [Xml.parseDocument_written hheight]
  rfl

theorem brokenWritten_parse :
    Xml.parseDocument 256 (utf8 brokenWritten.written) = .ok brokenElement := by
  have hheight : brokenWritten.height ≤ 256 := by decide
  rw [Xml.parseDocument_written hheight]
  rfl

theorem smallLeaf_run (depth : Nat) (h : depth ≤ 256) :
    deskConverter.encoder.ElementRun depth smallLeaf [.stored smallLeafObject]
      (.ok smallLeafObject.address) :=
  @ElementRun.of_childless _ depth smallLeaf "Title" smallLeafShape _ rfl h rfl rfl rfl

/-- One sibling fails, and the other one is stored. -/
theorem brokenElement_run :
    deskConverter.encoder.ElementRun 1 brokenElement
      [.stored smallLeafObject, .stored parsedObject] (.error (.missingContext "c")) := by
  have huntyped : deskConverter.encoder.ElementRun 2 untypedElement []
      (.error (.missingContext "c")) := .untyped (by decide) rfl
  have hparsed : deskConverter.encoder.ElementRun 2 parsedDocument
      [.stored smallLeafObject, .stored parsedObject] (.ok parsedObject.address) :=
    @ElementRun.built _ 2 parsedDocument "Title" [.stored smallLeafObject] _
      [smallLeafObject.address] _ (by decide) rfl
      (.run (smallLeaf_run 3 (by decide)) .nil (.left .nil)) (@ShapeRun.stored _ parsedShape _ rfl rfl)
  exact .childFailed (by decide) rfl (.run huntyped (.run hparsed .nil (Shuffle.nil_right _))
    (Shuffle.nil_left _)) List.mem_cons_self

theorem newDesk_isOpen : IsOpen ⟨⟨".meta"⟩, newDesk⟩ where
  tree := Disk.isTree_of_forall (by decide)
  opens := .inr ⟨["desk"], ["desk", ".meta"], by decide +kernel, by decide +kernel, by decide⟩

theorem newDesk_isEmpty : DirectoryStore.IsEmpty ⟨⟨".meta"⟩, newDesk⟩ := by
  refine ⟨["desk", ".meta"], by decide +kernel, by decide, fun names hnames => ?_⟩
  obtain ⟨name, rest, rfl⟩ := List.exists_cons_of_ne_nil hnames
  simp [newDesk, Disk.find?]

theorem newDesk_leaf : openFile newDesk "a.xml" = .ok (utf8 leafWritten.written) := by
  decide +kernel

theorem newDesk_broken : openFile newDesk "b.xml" = .ok (utf8 brokenWritten.written) := by
  decide +kernel

theorem newDesk_settings : ∃ settings, loadSettings newDesk (some "c.toml") = .ok settings ∧
    settings.storeDirectory = ".meta" ∧ settings.contexts = [] ∧
    settings.encoder = { parallel := true } := by
  have hread : ((loadSettings newDesk (some "c.toml")).toOption.map fun settings =>
      (settings.storeDirectory, settings.contexts, settings.encoder)) =
        some (".meta", [], { parallel := true }) := by
    decide +kernel
  cases hsettings : loadSettings newDesk (some "c.toml") with
  | error failure =>
    rw [hsettings] at hread
    cases hread
  | ok settings =>
    rw [hsettings] at hread
    obtain ⟨hdirectory, hcontexts, hencoder⟩ := by simpa [Except.toOption] using hread
    exact ⟨settings, rfl, hdirectory, hcontexts, hencoder⟩

section Desk

/-! The store on the desk, after a context has been put there. -/

variable {desk : DirectoryStore}
  (hdesk : Store.put smallContextObject (DirectoryStore.mk ⟨".meta"⟩ newDesk) = (.ok (), desk))
include hdesk

theorem desk_grown : Grown ⟨⟨".meta"⟩, newDesk⟩ desk := by
  have hgrown := newDesk_isOpen.put smallContextObject
  rw [hdesk] at hgrown
  exact hgrown

theorem desk_mirrors : ∃ base, desk.Mirrors base contextStore := by
  obtain ⟨base, hmirrors⟩ := DirectoryStore.mirrors_of_isEmpty newDesk_isEmpty rfl (by decide)
  obtain ⟨next, hput, hnext⟩ := hmirrors.put smallContextObject
  obtain rfl : next = desk := congrArg Prod.snd (hput.symm.trans hdesk)
  exact ⟨base, hnext⟩

theorem desk_ready :
    Ready [smallContextObject.address] (some "c.toml") none ⟨".meta"⟩ deskConverter desk.disk := by
  have hgrown := desk_grown hdesk
  obtain ⟨base, hmirrors⟩ := desk_mirrors hdesk
  have hopen := hgrown.isOpen newDesk_isOpen
  obtain ⟨root, disk⟩ := desk
  obtain rfl : root = ⟨".meta"⟩ := hgrown.root
  obtain ⟨settings, hsettings, hdirectory, hcontexts, hencoder⟩ := newDesk_settings
  have hsettings' := loadSettings_of_grows hgrown.grows hsettings
  have hroot : rootOf none settings = ⟨".meta"⟩ := by rw [rootOf, hdirectory]; rfl
  have hmade := hopen.opens.createDirectories_eq
  have hload : Converter.load (DirectoryStore.mk ⟨".meta"⟩ disk) [smallContextObject.address] =
      .ok smallConverter :=
    (Converter.load_congr hmirrors.getObject _).trans load_contextStore
  refine ⟨?_, hopen⟩
  simp only [prepareImport, hsettings', hroot, hmade, hcontexts, List.nil_append, hload, hencoder]
  rfl

theorem desk_lacks : Store.has desk parsedObject.address = .ok false := by
  obtain ⟨base, hmirrors⟩ := desk_mirrors hdesk
  have hmissing : contextStore.table.get? parsedObject.address.text = none := by
    rw [Option.eq_none_iff_forall_ne_some]
    intro data hdata
    have hsame := Address.text_injective (contextStore_entry hdata).1
    have hapart := smallBytes_apart
    simp [hsame] at hapart
  have habsent : contextStore.table.contains parsedObject.address.text = false := by
    simp [Table.contains, hmissing]
  rw [hmirrors.hasObject]
  simp [Store.has, Backend.has, habsent]

/-- The first document is stored. Of the other one an element fails, and its sibling is stored
nevertheless. -/
theorem desk_importRun : ∃ after,
    ImportRun .Scheduled ["a.xml", "b.xml"] [smallContextObject.address] (some "c.toml") none
      ⟨desk.disk, ""⟩ (.error ("importing b.xml" ::
        (IngestError.encode (.missingContext "c")).chain)) after ∧
    after.output = "✓ " ++ smallLeafObject.address.text ++ "  a.xml\n" ∧
    Store.has (DirectoryStore.mk ⟨".meta"⟩ after.state) parsedObject.address = .ok true := by
  have hgrown := desk_grown hdesk
  have hready := desk_ready hdesk
  obtain ⟨base, hmirrors⟩ := desk_mirrors hdesk
  have hopen := hgrown.isOpen newDesk_isOpen
  obtain ⟨root, disk⟩ := desk
  obtain rfl : root = ⟨".meta"⟩ := hgrown.root
  -- the puts that each document makes, in the order of one schedule
  obtain ⟨⟨root, middle⟩, held, hfirst, -, hmiddle⟩ := hmirrors.exists_replays [smallLeafObject]
  have hlater := hopen.replays hfirst
  obtain rfl : root = ⟨".meta"⟩ := hlater.root
  have hleaf : ImportsFile .Scheduled ⟨".meta"⟩ deskConverter "a.xml" ⟨disk, ""⟩ (.ok ()) _ :=
    .imported (openFile_of_grows hgrown.grows newDesk_leaf)
      (.atOnce rfl leafWritten_parse (smallLeaf_run 1 (by decide)) hfirst)
  obtain ⟨⟨root, last⟩, filled, hsecond, hfilled, hlast⟩ :=
    hmiddle.exists_replays [smallLeafObject, parsedObject]
  obtain rfl : root = ⟨".meta"⟩ := ((hlater.isOpen hopen).replays hsecond).root
  have hbroken (output : String) :
      ImportsFile .Scheduled ⟨".meta"⟩ deskConverter "b.xml" ⟨middle, output⟩ _ _ :=
    .refused (openFile_of_grows (hgrown.grows.trans hlater.grows) newDesk_broken)
      (.atOnce rfl brokenWritten_parse brokenElement_run hsecond)
  have hheld := MemoryStore.contains_of_replays hfilled
    (List.mem_cons_of_mem smallLeafObject (List.mem_singleton_self parsedObject))
  refine ⟨_, (importRun_iff_of_prepared hready.prepares).mpr (.next hleaf (.failed (hbroken _))),
    ?_, ?_⟩
  · show "" ++ ("✓ " ++ smallLeafObject.address.text ++ "  " ++ "a.xml") ++ "\n" = _
    have hline : "  " ++ ("a.xml" ++ "\n") = "  a.xml\n" := rfl
    rw [String.empty_append, String.append_assoc, String.append_assoc, hline]
  · rw [hlast.hasObject]
    simp [Store.has, Backend.has, hheld]

end Desk

theorem batch_import_eq_on_desk : ∃ desk : DirectoryStore,
    Store.put smallContextObject (DirectoryStore.mk ⟨".meta"⟩ newDesk) = (.ok (), desk) ∧
    desk.disk.IsTree ∧ Store.has desk parsedObject.address = .ok false ∧
    ∃ after,
      ImportRun .Scheduled ["a.xml", "b.xml"] [smallContextObject.address] (some "c.toml") none
        ⟨desk.disk, ""⟩ (.error ("importing b.xml" ::
          (IngestError.encode (.missingContext "c")).chain)) after ∧
      after.output = "✓ " ++ smallLeafObject.address.text ++ "  a.xml\n" ∧
      Store.has (DirectoryStore.mk ⟨".meta"⟩ after.state) parsedObject.address = .ok true ∧
      OneByOne (fun file => ImportRun .Scheduled [file] [smallContextObject.address]
          (some "c.toml") none) ["a.xml", "b.xml"] ⟨desk.disk, ""⟩ (.error ("importing b.xml" ::
          (IngestError.encode (.missingContext "c")).chain)) after := by
  obtain ⟨base, hempty⟩ := DirectoryStore.mirrors_of_isEmpty newDesk_isEmpty rfl (by decide)
  obtain ⟨desk, hdesk, -⟩ := hempty.put smallContextObject
  have htree := (desk_grown hdesk).tree
  obtain ⟨after, himport, houtput, hstored⟩ := desk_importRun hdesk
  exact ⟨desk, hdesk, htree, desk_lacks hdesk, after, himport, houtput, hstored,
    ((batch_import_eq "a.xml" ["b.xml"] [smallContextObject.address] (some "c.toml") none
      ⟨desk.disk, ""⟩ htree).1 _ _).mp himport⟩

end Commands

end ContentGraph
