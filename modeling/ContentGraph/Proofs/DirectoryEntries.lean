import ContentGraph.Proofs.AsciiText
import ContentGraph.Proofs.DiskPlaces
import ContentGraph.Store.Directory
import ContentGraph.Store.Memory

/-! The entries of a directory, which hold what a memory holds. The file of an entry stands two levels
below the directory under its own key, and the subdirectory that it stands in is made with the first
entry there. -/

namespace ContentGraph

/-- At least two bytes, all of them ASCII letters, digits, hyphens and underscores. -/
def IsEntryKey (key : String) : Prop :=
  2 ≤ (utf8 key).length ∧ ∀ c ∈ key.toList, 'A' ≤ c ∧ c ≤ 'Z' ∨ 'a' ≤ c ∧ c ≤ 'z' ∨
    '0' ≤ c ∧ c ≤ '9' ∨ c = '-' ∨ c = '_'

theorem isKeyChar_iff {c : Char} : isKeyChar c = true ↔ 'A' ≤ c ∧ c ≤ 'Z' ∨ 'a' ≤ c ∧ c ≤ 'z' ∨
    '0' ≤ c ∧ c ≤ '9' ∨ c = '-' ∨ c = '_' := by
  have hupper : c.isUpper = true ↔ 'A' ≤ c ∧ c ≤ 'Z' := decide_eq_true_iff
  have hlower : c.isLower = true ↔ 'a' ≤ c ∧ c ≤ 'z' :=
    Bool.and_eq_true_iff.trans (and_congr decide_eq_true_iff decide_eq_true_iff)
  have hdigit : c.isDigit = true ↔ '0' ≤ c ∧ c ≤ '9' :=
    Bool.and_eq_true_iff.trans (and_congr decide_eq_true_iff decide_eq_true_iff)
  change (((c.isUpper || c.isLower) || c.isDigit) || decide (c = '-') || decide (c = '_')) = true ↔ _
  simp only [Bool.or_eq_true, hupper, hlower, hdigit, decide_eq_true_eq, or_assoc]

theorem isAscii_of_isKeyChar {c : Char} (h : isKeyChar c = true) : IsAscii c := by
  have hlt {d : Char} (hle : c ≤ d) (hd : IsAscii d) : IsAscii c :=
    Nat.lt_of_le_of_lt (UInt32.le_iff_toNat_le.mp hle) hd
  rcases isKeyChar_iff.mp h with ⟨-, hle⟩ | ⟨-, hle⟩ | ⟨-, hle⟩ | rfl | rfl
  · exact hlt hle (by decide)
  · exact hlt hle (by decide)
  · exact hlt hle (by decide)
  · decide
  · decide

theorem length_utf8_of_isAscii {s : String} (h : ∀ c ∈ s.toList, IsAscii c) :
    (utf8 s).length = s.length := by
  rw [utf8_of_isAscii h, List.length_map, String.length_toList]

namespace DirectoryStore

theorem isKey_iff {key : String} : isKey key = true ↔ IsEntryKey key := by
  rw [isKey, Bool.and_eq_true, decide_eq_true_iff, List.all_eq_true, IsEntryKey]
  simp only [← isKeyChar_iff]
  refine and_congr_left fun hchars => ?_
  rw [length_utf8_of_isAscii fun c hc => isAscii_of_isKeyChar (hchars c hc)]

instance (key : String) : Decidable (IsEntryKey key) :=
  decidable_of_iff _ isKey_iff

theorem isPlainName_of_isKeyChar {name : String} (hne : name ≠ "")
    (h : ∀ c ∈ name.toList, isKeyChar c = true) : IsPlainName name where
  ne_empty := hne
  no_slash hmem := absurd (h _ hmem) (by decide)
  no_nul hmem := absurd (h _ hmem) (by decide)
  ne_dot := by
    rintro rfl
    exact absurd (h '.' (by decide)) (by decide)
  ne_dots := by
    rintro rfl
    exact absurd (h '.' (by decide)) (by decide)

section

variable {key : String}

theorem isPlainName_key (h : IsEntryKey key) : IsPlainName key := by
  refine isPlainName_of_isKeyChar ?_ fun c hc => isKeyChar_iff.mpr (h.2 c hc)
  rintro rfl
  exact absurd h.1 (by decide)

theorem isPlainName_shard (h : IsEntryKey key) : IsPlainName (shardOf key) := by
  have hkey := isKey_iff.mpr h
  rw [isKey, Bool.and_eq_true, decide_eq_true_iff] at hkey
  obtain ⟨hlength, hchars⟩ := hkey
  have hshard : (shardOf key).toList = key.toList.drop (key.length - 2) := String.toList_ofList
  refine isPlainName_of_isKeyChar (fun hempty => ?_) fun c hc => ?_
  · have hshort := congrArg List.length hshard
    simp only [hempty, List.length_drop, String.length_toList, String.length_empty] at hshort
    omega
  · rw [hshard] at hc
    exact List.all_eq_true.mp hchars c (List.mem_of_mem_drop hc)

end

/-- The store's directory is there, on a disk without limits. -/
structure StandsAt (s : DirectoryStore) (base : Place) : Prop where
  ideal : s.disk.IsIdeal
  clean : '\x00' ∉ s.root.text.toList
  leads : s.disk.walkPath s.root = .ok base
  directory : s.disk.find? base = some .directory

namespace StandsAt

variable {s : DirectoryStore} {base : Place} {key : String}

theorem nul_not_mem_shardPath (h : s.StandsAt base) (hkey : IsEntryKey key) :
    '\x00' ∉ (s.shardPath key).text.toList :=
  Path.nul_not_mem_join h.clean (isPlainName_shard hkey)

theorem walkPath_shardPath (h : s.StandsAt base) (hkey : IsEntryKey key) :
    s.disk.walkPath (s.shardPath key) = .ok (base ++ [shardOf key]) := by
  rw [shardPath, s.disk.walkPath_join s.root (isPlainName_shard hkey), h.leads]
  exact h.ideal.enter h.directory (isPlainName_shard hkey)

/-- The shard has to be there for the entry to have a place. -/
theorem place_join (h : s.StandsAt base) (hkey : IsEntryKey key) :
    s.disk.place ((s.shardPath key).join key) = s.disk.enter (base ++ [shardOf key]) key := by
  have hname := isPlainName_key hkey
  have hclean := Path.nul_not_mem_join (h.nul_not_mem_shardPath hkey) hname
  rw [h.ideal.place hclean (Path.join_ne_empty _ hname), s.disk.walkPath_join _ hname,
    h.walkPath_shardPath hkey]
  rfl

theorem place_entry (h : s.StandsAt base) (hkey : IsEntryKey key)
    (hshard : s.disk.find? (base ++ [shardOf key]) = some .directory) :
    s.disk.place ((s.shardPath key).join key) = .ok (base ++ [shardOf key, key]) := by
  rw [h.place_join hkey, h.ideal.enter hshard (isPlainName_key hkey), List.append_assoc]
  rfl

theorem place_below (h : s.StandsAt base) {name : String} (hname : IsPlainName name) :
    s.disk.place (s.root.join name) = .ok (base ++ [name]) := by
  rw [h.ideal.place (Path.nul_not_mem_join h.clean hname) (Path.join_ne_empty _ hname),
    s.disk.walkPath_join _ hname, h.leads]
  exact h.ideal.enter h.directory hname

theorem keep (h : s.StandsAt base) {later : Disk} (hkeep : s.disk.Keeps later) :
    StandsAt { s with disk := later } base where
  ideal := hkeep.limits.trans h.ideal
  clean := h.clean
  leads := hkeep.walkPath h.leads
  directory := hkeep.directory base h.directory

end StandsAt

theorem entryPath_of_isEntryKey (s : DirectoryStore) {key : String} (h : IsEntryKey key) :
    s.entryPath key = .ok ((s.shardPath key).join key) :=
  if_pos (isKey_iff.mpr h)

def invalidKey (key : String) : IoError :=
  ⟨.invalidInput, s!"invalid datastore key {quoted key}"⟩

theorem entryPath_of_not_isEntryKey (s : DirectoryStore) {key : String} (h : ¬IsEntryKey key) :
    s.entryPath key = .error (invalidKey key) :=
  if_neg (mt isKey_iff.mp h)

theorem steps_entryPath (s : DirectoryStore) {key : String} (h : IsEntryKey key) :
    ∃ path, s.entryPath key = .ok path ∧ path.steps = s.root.steps ++ [shardOf key, key] := by
  refine ⟨_, s.entryPath_of_isEntryKey h, ?_⟩
  rw [Path.steps_join _ (isPlainName_key h), shardPath, Path.steps_join _ (isPlainName_shard h),
    List.append_assoc]
  rfl

/-- The place of the file of an entry. -/
def FiledAt (s : DirectoryStore) (key : String) (place : Place) : Prop :=
  ∃ path, s.entryPath key = .ok path ∧ s.disk.place path = .ok place

theorem StandsAt.eq_of_filedAt {s : DirectoryStore} {base place : Place} {key : String}
    (h : s.StandsAt base) (hfiled : s.FiledAt key place) :
    IsEntryKey key ∧ place = base ++ [shardOf key, key] := by
  obtain ⟨path, hpath, hplace⟩ := hfiled
  by_cases hkey : IsEntryKey key
  · rw [s.entryPath_of_isEntryKey hkey, Except.ok.injEq] at hpath
    rw [← hpath, h.place_join hkey] at hplace
    have hstep := Disk.eq_step_of_enter hplace
    rw [(isPlainName_key hkey).step, List.append_assoc] at hstep
    exact ⟨hkey, hstep⟩
  · rw [s.entryPath_of_not_isEntryKey hkey] at hpath
    cases hpath

/-- An entry's file is two levels below the directory, and neither another entry's file nor the
directory that another one stands in. -/
structure KeepsApart (s : DirectoryStore) (base : Place) : Prop where
  below : ∀ key place, s.FiledAt key place → place = base ++ [shardOf key, key]
  distinct : ∀ key other place, s.FiledAt key place → s.FiledAt other place → key = other
  noShard : ∀ key other place, s.FiledAt key place → IsEntryKey other →
    s.disk.place (s.shardPath other) ≠ .ok place

theorem StandsAt.keepsApart {s : DirectoryStore} {base : Place} (h : s.StandsAt base) :
    s.KeepsApart base where
  below key place hfiled := (h.eq_of_filedAt hfiled).2
  distinct key other place hfiled hother := by
    have hsame := (h.eq_of_filedAt hfiled).2.symm.trans (h.eq_of_filedAt hother).2
    simp only [List.append_cancel_left_eq, List.cons.injEq, and_true] at hsame
    exact hsame.2
  noShard key other place hfiled hother hshard := by
    rw [h.ideal.place (h.nul_not_mem_shardPath hother)
      (Path.join_ne_empty _ (isPlainName_shard hother)), h.walkPath_shardPath hother,
      (h.eq_of_filedAt hfiled).2, Except.ok.injEq] at hshard
    simpa using congrArg List.length hshard

/-- The directory holds what the memory holds under the keys that it accepts. -/
structure Mirrors (s : DirectoryStore) (base : Place) (m : MemoryStore) : Prop
    extends s.StandsAt base where
  entry : ∀ key, IsEntryKey key →
    s.disk.find? (base ++ [shardOf key, key]) = (m.table.get? key).map .file
  shard : ∀ key, IsEntryKey key → s.disk.find? (base ++ [shardOf key]) = some .directory ∨
    s.disk.find? (base ++ [shardOf key]) = none ∧ m.table.get? key = none

section

variable {key : String}

theorem read_of_not_isEntryKey (s : DirectoryStore) (h : ¬IsEntryKey key) :
    Backend.read s key = .error (invalidKey key) := by
  show s.read key = _
  rw [DirectoryStore.read, s.entryPath_of_not_isEntryKey h]
  rfl

theorem has_of_not_isEntryKey (s : DirectoryStore) (h : ¬IsEntryKey key) :
    Backend.has s key = .error (invalidKey key) := by
  show s.has key = _
  rw [DirectoryStore.has, s.entryPath_of_not_isEntryKey h]
  rfl

theorem write_of_not_isEntryKey (s : DirectoryStore) (h : ¬IsEntryKey key) (value : Bytes) :
    Backend.write s key value = (.error (invalidKey key), s) := by
  show s.write key value = _
  rw [DirectoryStore.write, s.entryPath_of_not_isEntryKey h]

end

namespace Mirrors

variable {s : DirectoryStore} {base : Place} {m : MemoryStore} {key : String}

/-- What a memory holds under other keys does not show in the directory. -/
theorem of_same {other : MemoryStore} (h : s.Mirrors base m)
    (hsame : ∀ key, IsEntryKey key → other.table.get? key = m.table.get? key) :
    s.Mirrors base other where
  toStandsAt := h.toStandsAt
  entry key hkey := by rw [hsame key hkey, h.entry key hkey]
  shard key hkey := by rw [hsame key hkey]; exact h.shard key hkey

theorem filedAt (h : s.Mirrors base m) (hkey : IsEntryKey key) {data : Bytes}
    (hdata : m.table.get? key = some data) : s.FiledAt key (base ++ [shardOf key, key]) ∧
      s.disk.find? (base ++ [shardOf key, key]) = some (.file data) := by
  have hfile := h.entry key hkey
  rw [hdata] at hfile
  refine ⟨⟨_, s.entryPath_of_isEntryKey hkey, ?_⟩, hfile⟩
  rcases h.shard key hkey with hdirectory | ⟨-, habsent⟩
  · exact h.place_entry hkey hdirectory
  · rw [hdata] at habsent
    cases habsent

theorem look (h : s.Mirrors base m) (hkey : IsEntryKey key) :
    s.disk.look ((s.shardPath key).join key) =
      match m.table.get? key with
      | some data => .ok (.file data)
      | none => .error Disk.noSuchFile := by
  rcases h.shard key hkey with hdirectory | ⟨hmissing, habsent⟩
  · rw [Disk.look_of_place (Path.endsInSlash_join _ (isPlainName_key hkey))
      (h.place_entry hkey hdirectory), h.entry key hkey]
    cases m.table.get? key <;> rfl
  · have hplace := h.place_join hkey
    rw [Disk.enter_of_none hmissing] at hplace
    rw [Disk.look_of_error hplace, habsent]

theorem exists_eq (h : s.Mirrors base m) (hkey : IsEntryKey key) :
    s.disk.exists? ((s.shardPath key).join key) = m.table.contains key := by
  rw [Disk.exists?, h.look hkey, Table.contains]
  cases m.table.get? key <;> rfl

theorem read (h : s.Mirrors base m) (hkey : IsEntryKey key) :
    Backend.read s key = Backend.read m key := by
  show s.read key = .ok (m.table.get? key)
  have hpath := s.entryPath_of_isEntryKey hkey
  cases hheld : m.table.get? key with
  | some data =>
    have hfile : s.disk.readFile ((s.shardPath key).join key) = .ok data := by
      rw [Disk.readFile, h.look hkey, hheld]
      rfl
    refine bind_eq_ok_iff.mpr ⟨_, hpath, ?_⟩
    simp only [hfile]
    rfl
  | none =>
    have hfile : s.disk.readFile ((s.shardPath key).join key) = .error Disk.noSuchFile := by
      rw [Disk.readFile, h.look hkey, hheld]
      rfl
    refine bind_eq_ok_iff.mpr ⟨_, hpath, ?_⟩
    simp only [hfile]
    rfl

theorem has (h : s.Mirrors base m) (hkey : IsEntryKey key) :
    Backend.has s key = Backend.has m key := by
  show s.has key = .ok (m.table.contains key)
  rw [DirectoryStore.has, s.entryPath_of_isEntryKey hkey, ← h.exists_eq hkey]
  rfl

/-- The shard of a new entry is made if it is the first one there. -/
theorem exists_makeShard (h : s.Mirrors base m) (hkey : IsEntryKey key)
    (habsent : m.table.contains key = false) :
    ∃ ready, Disk.createDirectories (s.shardPath key) s.disk = (.ok (), ready) ∧
      s.disk.Keeps ready ∧ ready.find? (base ++ [shardOf key]) = some .directory ∧
      ready.find? (base ++ [shardOf key, key]) = none ∧
      ∀ place, place ≠ base ++ [shardOf key] → ready.find? place = s.disk.find? place := by
  obtain ⟨ready, hmake, hkeep, hready⟩ := Disk.createDirectories_of_walkPath h.ideal
    (h.nul_not_mem_shardPath hkey) (Path.join_ne_empty _ (isPlainName_shard hkey))
    (h.walkPath_shardPath hkey) ((h.shard key hkey).imp_right And.left)
  refine ⟨ready, hmake, hkeep, ?_, ?_, fun place hplace => ?_⟩
  · rw [hready, if_pos rfl]
  · rw [hready, if_neg (by simp), h.entry key hkey]
    simpa [Table.contains] using habsent
  · rw [hready, if_neg hplace]

theorem exists_createEntry (h : s.Mirrors base m) (hkey : IsEntryKey key)
    (habsent : m.table.contains key = false) (value : Bytes) :
    ∃ later, s.createEntry key ((s.shardPath key).join key) value s.disk = (.ok (), later) ∧
      s.disk.Keeps later ∧
      ∀ place, later.find? place =
        if place = base ++ [shardOf key, key] then some (.file value)
        else if place = base ++ [shardOf key] then some .directory
        else s.disk.find? place := by
  obtain ⟨ready, hmake, hkeep, hshard, hmissing, hready⟩ := h.exists_makeShard hkey habsent
  have hplace := (h.keep hkeep).place_entry hkey hshard
  refine ⟨ready.set (base ++ [shardOf key, key]) (.file value), ?_,
    hkeep.trans (.set (by simp [hmissing]) _), fun place => ?_⟩
  · rw [createEntry, Stateful.bind_of_ok hmake]
    exact Disk.writeFile_eq_ok hplace hmissing value
  · rw [Disk.find?_set _ (by simp)]
    by_cases hsame : place = base ++ [shardOf key]
    · rw [if_pos hsame, hsame, hshard]
    · rw [if_neg hsame, hready place hsame]

/-- An entry that is written under another name first, and moved to its place as a whole, is the same
in the end. -/
theorem createEntry_eq_of_temporary (h : s.Mirrors base m) (hkey : IsEntryKey key)
    (habsent : m.table.contains key = false) (value : Bytes) {temporary : String}
    (hname : IsPlainName temporary) (hother : temporary ≠ shardOf key)
    (hfree : s.disk.find? (base ++ [temporary]) = none) :
    (do
      Disk.createDirectories (s.shardPath key)
      Disk.writeFile (s.root.join temporary) value
      Disk.moveFile (s.root.join temporary) ((s.shardPath key).join key)) s.disk =
        s.createEntry key ((s.shardPath key).join key) value s.disk := by
  obtain ⟨ready, hmake, hkeep, hshard, hmissing, hready⟩ := h.exists_makeShard hkey habsent
  have hstands := h.keep hkeep
  have hunused : ready.find? (base ++ [temporary]) = none := by
    rw [hready _ (by simpa using hother), hfree]
  let written := ready.set (base ++ [temporary]) (.file value)
  have hwrite : Disk.writeFile (s.root.join temporary) value ready = (.ok (), written) :=
    Disk.writeFile_eq_ok (hstands.place_below hname) hunused value
  have hkept : ready.Keeps written := .set (by simp [hunused]) _
  have hstill := hstands.keep hkept
  have hwritten : written.find? (base ++ [temporary]) = some (.file value) :=
    (ready.find?_set (by simp) _ _).trans (if_pos rfl)
  have hfreeStill : written.find? (base ++ [shardOf key, key]) = none :=
    ((ready.find?_set (by simp) _ _).trans (if_neg (by simp))).trans hmissing
  have hmove := Disk.moveFile_eq_ok (hstill.place_below hname)
    (hstill.place_entry hkey (hkept.directory _ hshard)) hwritten hfreeStill
  rw [Disk.filter_set hunused] at hmove
  rw [createEntry, Stateful.bind_of_ok hmake, Stateful.bind_of_ok hmake, Stateful.bind_of_ok hwrite]
  exact hmove.trans (Disk.writeFile_eq_ok (hstands.place_entry hkey hshard) hmissing value).symm

theorem write (h : s.Mirrors base m) (hkey : IsEntryKey key) (value : Bytes) :
    ∃ next : DirectoryStore, Backend.write s key value = (.ok (), next) ∧
      next.Mirrors base (m.write key value) := by
  by_cases hheld : m.table.contains key = true
  · have hsame : s.write key value = (.ok (), s) := by
      rw [DirectoryStore.write, s.entryPath_of_isEntryKey hkey]
      simp only [h.exists_eq hkey, hheld, if_true]
    rw [MemoryStore.write, if_pos hheld]
    exact ⟨s, hsame, h⟩
  · have habsent := Bool.eq_false_iff.mpr hheld
    obtain ⟨later, hcreate, hkeep, hlater⟩ := h.exists_createEntry hkey habsent value
    have hwrite : s.write key value = (.ok (), { s with disk := later }) := by
      rw [DirectoryStore.write, s.entryPath_of_isEntryKey hkey]
      simp only [h.exists_eq hkey, habsent, hcreate]
      rfl
    rw [MemoryStore.write, if_neg hheld]
    -- every other file is where it was, and keys that share the shard now find it there
    refine ⟨_, hwrite, h.keep hkeep, fun other hother => ?_, fun other hother => ?_⟩
    · change later.find? _ = _
      rw [hlater, Table.get?_insert]
      by_cases hsame : other = key
      · rw [if_pos hsame, hsame, if_pos rfl]
        rfl
      · rw [if_neg hsame, if_neg (by simp [hsame]), if_neg (by simp), h.entry other hother]
    · change later.find? _ = _ ∨ later.find? _ = _ ∧ _
      rw [hlater, if_neg (by simp), Table.get?_insert]
      by_cases hsame : shardOf other = shardOf key
      · exact .inl (if_pos (by rw [hsame]))
      · have hne : other ≠ key := fun heq => hsame (congrArg shardOf heq)
        rw [if_neg (by simpa using hsame), if_neg hne]
        exact h.shard other hother

end Mirrors

end DirectoryStore

end ContentGraph
