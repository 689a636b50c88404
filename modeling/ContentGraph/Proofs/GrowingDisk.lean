import ContentGraph.Proofs.DirectoryEntries

/-! Disks that only grow. A store that is open adds directories and files to its disk and changes
none, so whatever could be opened or read stays as it was. -/

namespace ContentGraph

namespace Disk

/-- All that is there stands in a directory. -/
def IsTree (d : Disk) : Prop :=
  ∀ place name entry, d.find? (place ++ [name]) = some entry → d.find? place = some .directory

/-- The later disk has the files of the first one as well. -/
structure Grows (d later : Disk) : Prop extends d.Keeps later where
  file : ∀ place data, d.find? place = some (.file data) → later.find? place = some (.file data)

/-- The later disk has no other files than the first one. -/
structure AddsDirectories (d later : Disk) : Prop extends d.Grows later where
  file_back : ∀ place data, later.find? place = some (.file data) →
    d.find? place = some (.file data)
  isTree : later.IsTree

section

variable {d middle later : Disk} {place outer : Place} {name : String} {p : Path}

theorem isTree_of_forall (h : ∀ e ∈ d.entries, d.find? e.1.dropLast = some .directory) :
    d.IsTree := by
  intro place name entry hfound
  rw [find?, if_neg (by simp)] at hfound
  obtain ⟨front, back, hentries, -⟩ := List.lookup_eq_some_iff.mp hfound
  have hmem : (place ++ [name], entry) ∈ d.entries := by simp [hentries]
  simpa using h _ hmem

theorem Grows.refl (d : Disk) : d.Grows d := ⟨.refl d, fun _ _ => id⟩

theorem Grows.trans (h : d.Grows middle) (hlater : middle.Grows later) : d.Grows later :=
  ⟨h.toKeeps.trans hlater.toKeeps,
    fun place data hplace => hlater.file place data (h.file place data hplace)⟩

theorem IsTree.dropLast (h : d.IsTree) {entry : DiskEntry} (hplace : d.find? place = some entry) :
    d.find? place.dropLast = some .directory := by
  rcases List.eq_nil_or_concat place with rfl | ⟨outer, name, rfl⟩
  · rfl
  · rw [List.concat_eq_append] at hplace ⊢
    rw [List.dropLast_concat]
    exact h outer name entry hplace

/-- A step leads out to a directory that is there, or down. -/
theorem IsTree.step (h : d.IsTree) (hplace : d.find? place = some .directory) (name : String) :
    d.find? (place.step name) = some .directory ∨ place.step name = place ++ [name] := by
  rw [Place.step]
  by_cases hdot : name = "."
  · rw [if_pos hdot]
    exact .inl hplace
  · rw [if_neg hdot]
    by_cases hdots : name = ".."
    · rw [if_pos hdots]
      exact .inl (h.dropLast hplace)
    · rw [if_neg hdots]
      exact .inr rfl

theorem directory_of_enter {next : Place} (h : d.enter place name = .ok next) :
    d.find? place = some .directory := by
  unfold enter at h
  split at h
  · cases h
  · cases h
  · next hplace => exact hplace

/-- What is missing at the end of a walk is missing in a directory. -/
theorem IsTree.walk (h : d.IsTree) {start : Place} {names : List String}
    (hwalk : d.walk start names = .ok place) (hroot : names = [] → start = [])
    (hfree : d.find? place = none) :
    ∃ outer name, place = outer ++ [name] ∧ d.find? outer = some .directory := by
  rcases List.eq_nil_or_concat names with rfl | ⟨front, name, rfl⟩
  · obtain rfl := hroot rfl
    obtain rfl := Except.ok.inj hwalk
    cases hfree
  · rw [Disk.walk, List.concat_eq_append, List.foldlM_append] at hwalk
    obtain ⟨outer, -, hlast⟩ := bind_eq_ok_iff.mp hwalk
    obtain ⟨next, henter, hnext⟩ := bind_eq_ok_iff.mp hlast
    obtain rfl := Except.ok.inj hnext
    have houter := directory_of_enter henter
    obtain rfl := eq_step_of_enter henter
    rcases h.step houter name with hthere | hdown
    · rw [hthere] at hfree
      cases hfree
    · exact ⟨outer, name, hdown, houter⟩

theorem Grows.set (hfree : d.find? place = none) (entry : DiskEntry) :
    d.Grows (d.set place entry) := by
  refine ⟨.set (by simp [hfree]) entry, fun other data hother => ?_⟩
  have hroot : place ≠ [] := by
    rintro rfl
    cases hfree
  rw [find?_set d hroot, if_neg (by rintro rfl; simp [hfree] at hother)]
  exact hother

theorem IsTree.set (h : d.IsTree) (houter : d.find? outer = some .directory)
    (hfree : d.find? (outer ++ [name]) = none) (entry : DiskEntry) :
    (d.set (outer ++ [name]) entry).IsTree := by
  have hkept := (Grows.set hfree entry).directory
  intro place last found hfound
  rw [find?_set d (by simp)] at hfound
  by_cases hnew : place ++ [last] = outer ++ [name]
  · obtain ⟨rfl, -⟩ := List.append_inj' hnew rfl
    exact hkept _ houter
  · rw [if_neg hnew] at hfound
    exact hkept _ (h place last found hfound)

theorem AddsDirectories.refl (h : d.IsTree) : d.AddsDirectories d :=
  ⟨.refl d, fun _ _ => id, h⟩

theorem AddsDirectories.trans (h : d.AddsDirectories middle)
    (hlater : middle.AddsDirectories later) : d.AddsDirectories later :=
  ⟨h.toGrows.trans hlater.toGrows,
    fun place data hplace => h.file_back place data (hlater.file_back place data hplace),
    hlater.isTree⟩

theorem IsTree.makeDirectory (h : d.IsTree) {start : Place} {names : List String}
    (hroot : names = [] → start = []) : d.AddsDirectories (Disk.makeDirectory start names d).2 := by
  unfold Disk.makeDirectory
  split
  · exact .refl h
  · next place hwalk =>
    split
    · exact .refl h
    · exact .refl h
    · next hfree =>
      obtain ⟨outer, name, rfl, houter⟩ := h.walk hwalk hroot hfree
      refine ⟨.set hfree _, fun place data hplace => ?_, h.set houter hfree _⟩
      rw [find?_set d (by simp)] at hplace
      split at hplace
      · cases hplace
      · exact hplace

theorem IsTree.createDirectories (h : d.IsTree) (p : Path) :
    d.AddsDirectories (Disk.createDirectories p d).2 := by
  let Adds (d later : Disk) : Prop := d.IsTree → d.AddsDirectories later
  have hrefl (d : Disk) : Adds d d := .refl
  have htrans (d middle later : Disk) (h : Adds d middle) (hlater : Adds middle later) :
      Adds d later := fun htree => (h htree).trans (hlater (h htree).isTree)
  exact related_createDirectories hrefl htrans (fun _ _ _ hroot htree => htree.makeDirectory hroot)
    p d h

theorem Keeps.start (h : d.Keeps later) (p : Path) : later.start p = d.start p := by
  rw [Disk.start, Disk.start, h.limits, h.workingDirectory]

theorem Keeps.enter_eq (h : d.Keeps later) (hplace : d.find? place = some .directory)
    (name : String) : later.enter place name = d.enter place name := by
  rw [Disk.enter, Disk.enter, h.directory place hplace, hplace, h.limits]

theorem Grows.find? (h : d.Grows later) {entry : DiskEntry} (hplace : d.find? place = some entry) :
    later.find? place = some entry := by
  cases entry with
  | file data => exact h.file place data hplace
  | directory => exact h.directory place hplace

theorem place_eq_ok_iff : d.place p = .ok place ↔
    (∃ start, d.start p = .ok start) ∧ d.walkPath p = .ok place := by
  rw [Disk.place, bind_eq_ok_iff]
  constructor
  · rintro ⟨start, hstart, hwalk⟩
    rw [(start_eq_ok hstart).2] at hwalk
    exact ⟨⟨start, hstart⟩, hwalk⟩
  · rintro ⟨⟨start, hstart⟩, hwalk⟩
    rw [walkPath, ← (start_eq_ok hstart).2] at hwalk
    exact ⟨start, hstart, hwalk⟩

theorem look_eq_ok_iff {entry : DiskEntry} : d.look p = .ok entry ↔
    ∃ place last, d.place p = .ok place ∧
      (if p.endsInSlash then d.enter place "." else .ok place) = .ok last ∧
      d.find? last = some entry := by
  by_cases hslash : p.endsInSlash = true
  · simp only [look, hslash, if_true, bind_eq_ok_iff]
    constructor
    · rintro ⟨place, hplace, last, hlast, hentry⟩
      cases hfound : d.find? last with
      | none => simp [hfound] at hentry
      | some found =>
        simp only [hfound, pure_eq_ok_iff] at hentry
        exact ⟨place, last, hplace, hlast, by rw [hfound, hentry]⟩
    · rintro ⟨place, last, hplace, hlast, hentry⟩
      exact ⟨place, hplace, last, hlast, by rw [hentry]; rfl⟩
  · simp only [look, if_neg hslash, bind_eq_ok_iff, pure_eq_ok_iff]
    constructor
    · rintro ⟨place, hplace, last, rfl, hentry⟩
      cases hfound : d.find? place with
      | none => simp [hfound] at hentry
      | some found =>
        simp only [hfound, pure_eq_ok_iff] at hentry
        exact ⟨place, place, hplace, rfl, by rw [hfound, hentry]⟩
    · rintro ⟨place, last, hplace, hlast, hentry⟩
      cases hlast
      exact ⟨place, hplace, place, rfl, by rw [hentry]; rfl⟩

theorem Keeps.place_eq (h : d.Keeps later) (hplace : d.place p = .ok place) :
    later.place p = .ok place := by
  obtain ⟨⟨start, hstart⟩, hwalk⟩ := place_eq_ok_iff.mp hplace
  exact place_eq_ok_iff.mpr ⟨⟨start, (h.start p).trans hstart⟩, h.walkPath hwalk⟩

theorem Grows.look (h : d.Grows later) {entry : DiskEntry} (hlook : d.look p = .ok entry) :
    later.look p = .ok entry := by
  obtain ⟨place, last, hplace, hlast, hentry⟩ := look_eq_ok_iff.mp hlook
  refine look_eq_ok_iff.mpr ⟨place, last, h.place_eq hplace, ?_, h.find? hentry⟩
  by_cases hslash : p.endsInSlash = true
  · rw [if_pos hslash] at hlast ⊢
    exact h.enter hlast
  · rw [if_neg hslash] at hlast ⊢
    exact hlast

theorem Grows.readFile (h : d.Grows later) {data : Bytes} (hread : d.readFile p = .ok data) :
    later.readFile p = .ok data := by
  obtain ⟨entry, hlook, hentry⟩ := bind_eq_ok_iff.mp hread
  exact bind_eq_ok_iff.mpr ⟨entry, h.look hlook, hentry⟩

theorem Grows.readText (h : d.Grows later) {text : String} (hread : d.readText p = .ok text) :
    later.readText p = .ok text := by
  obtain ⟨data, hdata, htext⟩ := bind_eq_ok_iff.mp hread
  exact bind_eq_ok_iff.mpr ⟨data, h.readFile hdata, htext⟩

/-- The path can be opened as it is: it is empty, or it leads to a directory. -/
def Opens (d : Disk) (p : Path) : Prop :=
  p.text = "" ∨ ∃ start place, d.start p = .ok start ∧ d.walk start p.steps = .ok place ∧
    d.find? place = some .directory

theorem Opens.keep (h : d.Opens p) (hkeep : d.Keeps later) : later.Opens p := by
  rcases h with hempty | ⟨start, place, hstart, hwalk, hplace⟩
  · exact .inl hempty
  · exact .inr ⟨start, place, (hkeep.start p).trans hstart, hkeep.walk hwalk,
      hkeep.directory place hplace⟩

theorem makeDirectory_of_directory {start : Place} {names : List String}
    (hwalk : d.walk start names = .ok place) (hplace : d.find? place = some .directory) :
    makeDirectory start names d = (.ok (), d) := by
  simp only [makeDirectory, hwalk, hplace]

theorem exists_walk_of_makeDirectory {start : Place} {names : List String}
    (h : makeDirectory start names d = (.ok (), later)) :
    ∃ place, later.walk start names = .ok place ∧ later.find? place = some .directory := by
  have hkeep := Keeps.makeDirectory d start names
  rw [h] at hkeep
  unfold makeDirectory at h
  split at h
  · cases h
  · next place hwalk =>
    refine ⟨place, hkeep.walk hwalk, ?_⟩
    split at h
    · next hplace => exact hkeep.directory place hplace
    · cases h
    · next hfree =>
      obtain rfl := congrArg Prod.snd h
      have hroot : place ≠ [] := by
        rintro rfl
        cases hfree
      exact (find?_set d hroot _ _).trans (if_pos rfl)

theorem exists_of_preparing_eq_ok {prepare make : Stateful IoError Disk Unit}
    (h : preparing prepare make d = (.ok (), later)) : ∃ middle, make middle = (.ok (), later) := by
  rw [preparing, Stateful.tryCatch_eq] at h
  rcases hmade : make d with ⟨e | done, middle⟩
  · rw [hmade] at h
    by_cases hmissing : e.kind = .notFound
    · simp only [if_pos hmissing] at h
      obtain ⟨_, ready, -, hagain⟩ := Stateful.exists_of_bind_eq_ok h
      exact ⟨ready, hagain⟩
    · simp only [if_neg hmissing] at h
      cases h
  · rw [hmade] at h
    cases h
    exact ⟨d, hmade⟩

theorem opens_of_createDirectories (h : createDirectories p d = (.ok (), later)) :
    later.Opens p := by
  have hkeep := Keeps.createDirectories d p
  rw [h] at hkeep
  by_cases hempty : p.text = ""
  · exact .inl hempty
  · rw [createDirectories, if_neg hempty] at h
    split at h
    · cases h
    · next start hstart =>
      obtain ⟨middle, hmake⟩ := exists_of_preparing_eq_ok h
      obtain ⟨place, hwalk, hplace⟩ := exists_walk_of_makeDirectory hmake
      exact .inr ⟨start, place, (hkeep.start p).trans hstart, hwalk, hplace⟩

theorem Opens.createDirectories_eq (h : d.Opens p) : createDirectories p d = (.ok (), d) := by
  rcases h with hempty | ⟨start, place, hstart, hwalk, hplace⟩
  · rw [createDirectories, if_pos hempty]
  · have hmake := makeDirectory_of_directory hwalk hplace
    rw [createDirectories, if_neg (start_eq_ok hstart).1, hstart]
    show preparing _ _ d = _
    rw [preparing, Stateful.tryCatch_eq, hmake]

theorem Opens.exists_walkPath (h : d.Opens p) : ∃ base, d.walkPath p = .ok base := by
  rcases h with hempty | ⟨start, place, hstart, hwalk, -⟩
  · have hsteps : p.steps = [] := by
      rw [Path.steps, hempty]
      rfl
    rw [walkPath, hsteps]
    exact ⟨_, rfl⟩
  · rw [(start_eq_ok hstart).2] at hwalk
    exact ⟨place, hwalk⟩

end

end Disk

namespace DirectoryStore

open Disk (Keeps Grows)

variable {s later : DirectoryStore} {key : String}

/-- A store that is opened on a disk that is a tree. -/
structure IsOpen (s : DirectoryStore) : Prop where
  tree : s.disk.IsTree
  opens : s.disk.Opens s.root

/-- The later store is the same one, on a disk that has grown. -/
structure Grown (s later : DirectoryStore) : Prop where
  root : later.root = s.root
  grows : s.disk.Grows later.disk
  tree : later.disk.IsTree

theorem IsOpen.refl (h : s.IsOpen) : s.Grown s := ⟨rfl, .refl _, h.tree⟩

theorem Grown.isOpen (h : s.Grown later) (hopen : s.IsOpen) : later.IsOpen :=
  ⟨h.tree, h.root ▸ hopen.opens.keep h.grows.toKeeps⟩

theorem Grown.trans {last : DirectoryStore} (h : s.Grown later) (hlater : later.Grown last) :
    s.Grown last :=
  ⟨hlater.root.trans h.root, h.grows.trans hlater.grows, hlater.tree⟩

/-- Nothing stands yet where the file of a missing entry will. -/
theorem IsOpen.find?_entry (h : s.IsOpen) (hkey : IsEntryKey key) {middle : Disk}
    (hadds : s.disk.AddsDirectories middle) {place : Place}
    (hplace : middle.place ((s.shardPath key).join key) = .ok place)
    (hmissing : s.disk.exists? ((s.shardPath key).join key) = false) :
    ∃ shard, place = shard ++ [key] ∧ middle.find? shard = some .directory ∧
      ∀ data, middle.find? place ≠ some (.file data) := by
  have hname := isPlainName_key hkey
  have hshardName := isPlainName_shard hkey
  obtain ⟨⟨start, hstart⟩, hwalk⟩ := Disk.place_eq_ok_iff.mp hplace
  rw [middle.walkPath_join _ hname] at hwalk
  obtain ⟨shard, hshard, hentry⟩ := bind_eq_ok_iff.mp hwalk
  rw [shardPath, middle.walkPath_join _ hshardName] at hshard
  obtain ⟨base, hbase, hshard⟩ := bind_eq_ok_iff.mp hshard
  obtain ⟨base', hbase'⟩ := h.opens.exists_walkPath
  obtain rfl : base' = base := Except.ok.inj ((hadds.walkPath hbase').symm.trans hbase)
  have hshardPlace : shard = base' ++ [shardOf key] :=
    (Disk.eq_step_of_enter hshard).trans (hshardName.step base')
  have hentryPlace : place = shard ++ [key] :=
    (Disk.eq_step_of_enter hentry).trans (hname.step shard)
  refine ⟨shard, hentryPlace, Disk.directory_of_enter hentry, fun data hfile => ?_⟩
  -- such a file would have stood there before, in directories that lead to it
  have hfile' := hadds.file_back place data hfile
  have hshardThere := h.tree shard key _ (hentryPlace ▸ hfile')
  have hbaseThere := h.tree base' (shardOf key) _ (hshardPlace ▸ hshardThere)
  rw [hadds.enter_eq hbaseThere] at hshard
  rw [hadds.enter_eq hshardThere] at hentry
  have hwalk' : s.disk.walkPath ((s.shardPath key).join key) = .ok place := by
    rw [s.disk.walkPath_join _ hname, shardPath, s.disk.walkPath_join _ hshardName, hbase']
    exact bind_eq_ok_iff.mpr ⟨shard, hshard, hentry⟩
  have hplace' := Disk.place_eq_ok_iff.mpr ⟨⟨start, (hadds.start _).symm.trans hstart⟩, hwalk'⟩
  have hlook := Disk.look_of_place (Path.endsInSlash_join _ hname) hplace'
  rw [hfile'] at hlook
  simp [Disk.exists?, hlook, Except.toOption] at hmissing

theorem IsOpen.write (h : s.IsOpen) (key : String) (value : Bytes) :
    s.Grown (s.write key value).2 := by
  by_cases hkey : IsEntryKey key
  · rw [DirectoryStore.write, s.entryPath_of_isEntryKey hkey]
    cases hthere : s.disk.exists? ((s.shardPath key).join key) with
    | true =>
      simp only [hthere, if_true]
      exact h.refl
    | false =>
      have hadds := h.tree.createDirectories (s.shardPath key)
      simp only [hthere, Bool.false_eq_true, if_false, createEntry]
      rcases hmake : Disk.createDirectories (s.shardPath key) s.disk with ⟨e | done, middle⟩
      · rw [hmake] at hadds
        rw [Stateful.bind_of_error hmake]
        exact ⟨rfl, hadds.toGrows, hadds.isTree⟩
      · rw [hmake] at hadds
        rw [Stateful.bind_of_ok hmake]
        have hsame : s.Grown ⟨s.root, middle⟩ := ⟨rfl, hadds.toGrows, hadds.isTree⟩
        cases hplace : middle.place ((s.shardPath key).join key) with
        | error e =>
          simp only [Disk.writeFile, hplace]
          exact hsame
        | ok place =>
          obtain ⟨shard, rfl, hshard, hnoFile⟩ := h.find?_entry hkey hadds hplace hthere
          cases hfound : middle.find? (shard ++ [key]) with
          | none =>
            rw [Disk.writeFile_eq_ok hplace hfound]
            exact ⟨rfl, hadds.toGrows.trans (.set hfound _), hadds.isTree.set hshard hfound _⟩
          | some entry =>
            cases entry with
            | file data => exact absurd hfound (hnoFile data)
            | directory =>
              simp only [Disk.writeFile, hplace, hfound]
              exact hsame
  · have hrefused : s.write key value = _ := s.write_of_not_isEntryKey hkey value
    rw [hrefused]
    exact h.refl

theorem read_eq_some_iff {data : Bytes} : s.read key = .ok (some data) ↔
    ∃ path, s.entryPath key = .ok path ∧ s.disk.readFile path = .ok data := by
  rw [DirectoryStore.read, bind_eq_ok_iff]
  refine exists_congr fun path => and_congr_right fun _ => ?_
  cases s.disk.readFile path with
  | ok found => simp [pure, Except.pure]
  | error e =>
    by_cases hmissing : e.kind = .notFound
    · simp [hmissing, pure, Except.pure]
    · simp [hmissing]

theorem Grown.read (h : s.Grown later) {data : Bytes} (hread : s.read key = .ok (some data)) :
    later.read key = .ok (some data) := by
  obtain ⟨path, hpath, hfile⟩ := read_eq_some_iff.mp hread
  have hpath' : later.entryPath key = .ok path := by
    rw [← hpath, entryPath, entryPath, shardPath, shardPath, h.root]
  exact read_eq_some_iff.mpr ⟨path, hpath', h.grows.readFile hfile⟩

end DirectoryStore

end ContentGraph
