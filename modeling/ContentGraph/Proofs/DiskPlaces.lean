import ContentGraph.Disk

/-! Where paths lead on a disk. A plain name joined to a path is one step more, and what is made or
written at a place changes nothing else, so paths lead on to where they led. -/

namespace ContentGraph

theorem splitChars_ne_nil (mark : Char) (cs : List Char) : splitChars mark cs ≠ [] := by
  cases cs with
  | nil => exact List.cons_ne_nil _ _
  | cons c cs =>
    rw [splitChars]
    split
    · exact List.cons_ne_nil _ _
    · split <;> exact List.cons_ne_nil _ _

theorem splitChars_append_cons (mark : Char) (front back : List Char) :
    splitChars mark (front ++ mark :: back) = splitChars mark front ++ splitChars mark back := by
  induction front with
  | nil => simp [splitChars]
  | cons c front ih =>
    by_cases hc : c = mark
    · simp [splitChars, hc, ih]
    · obtain ⟨part, parts, hfront⟩ := List.exists_cons_of_ne_nil (splitChars_ne_nil mark front)
      simp [splitChars, hc, ih, hfront]

theorem splitChars_of_not_mem {mark : Char} {cs : List Char} (h : mark ∉ cs) :
    splitChars mark cs = [cs] := by
  induction cs with
  | nil => rfl
  | cons c cs ih =>
    have hc : c ≠ mark := fun heq => h (heq ▸ List.mem_cons_self)
    simp [splitChars, hc, ih fun hmem => h (List.mem_cons_of_mem _ hmem)]

theorem segments_append_slash (s t : String) :
    segments (s ++ "/" ++ t) = segments s ++ segments t := by
  have hchars : (s ++ "/" ++ t).toList = s.toList ++ '/' :: t.toList := by
    simp [String.toList_append]
  rw [segments, hchars, splitChars_append_cons, List.map_append]
  rfl

theorem segments_of_no_slash {s : String} (h : '/' ∉ s.toList) : segments s = [s] := by
  rw [segments, splitChars_of_not_mem h, List.map_singleton, String.ofList_toList]

theorem segments_empty : segments "" = [""] := rfl

/-- The name of a step down, which is no other way of writing a path. -/
structure IsPlainName (name : String) : Prop where
  ne_empty : name ≠ ""
  no_slash : '/' ∉ name.toList
  no_nul : '\x00' ∉ name.toList
  ne_dot : name ≠ "."
  ne_dots : name ≠ ".."

theorem IsPlainName.segments_eq {name : String} (h : IsPlainName name) :
    segments name = [name] :=
  segments_of_no_slash h.no_slash

theorem IsPlainName.step {name : String} (h : IsPlainName name) (place : Place) :
    place.step name = place ++ [name] := by
  rw [Place.step, if_neg h.ne_dot, if_neg h.ne_dots]

namespace Path

variable {name : String}

/-- A name is joined to nothing, or behind a slash that is there or is put there. -/
theorem join_cases (p : Path) (name : String) :
    p.text = "" ∧ (p.join name).text = name ∨
      ∃ front, p.steps = (segments front).filter (· ≠ "") ∧
        (p.text = front ∧ p.text ≠ "" ∨ p.text = front ++ "/") ∧
        (p.join name).text = front ++ "/" ++ name := by
  by_cases hempty : p.text = ""
  · exact .inl ⟨hempty, by simp [join, hempty]⟩
  · by_cases hslash : p.endsInSlash = true
    · obtain ⟨front, hfront⟩ := List.getLast?_eq_some_iff.mp (of_decide_eq_true hslash)
      have htext : p.text = String.ofList front ++ "/" := by
        apply String.toList_inj.mp
        simp [hfront, String.toList_append]
      refine .inr ⟨String.ofList front, ?_, .inr htext, ?_⟩
      · have hsegments := segments_append_slash (String.ofList front) ""
        rw [String.append_empty, ← htext] at hsegments
        simp [steps, hsegments, segments_empty]
      · rw [join, if_pos (by simp [hslash]), htext]
    · refine .inr ⟨p.text, rfl, .inl ⟨rfl, hempty⟩, ?_⟩
      rw [join, if_neg (by simp [hempty, hslash])]

theorem steps_join (p : Path) (h : IsPlainName name) :
    (p.join name).steps = p.steps ++ [name] := by
  rcases p.join_cases name with ⟨hempty, hjoin⟩ | ⟨front, hsteps, -, hjoin⟩
  · simp [steps, hempty, hjoin, h.segments_eq, h.ne_empty, segments_empty]
  · rw [hsteps, steps, hjoin, segments_append_slash, h.segments_eq, List.filter_append]
    simp [h.ne_empty]

theorem isAbsolute_join (p : Path) (h : IsPlainName name) :
    (p.join name).isAbsolute = p.isAbsolute := by
  rcases p.join_cases name with ⟨hempty, hjoin⟩ | ⟨front, -, hfront, hjoin⟩
  · have hhead : name.toList.head? ≠ some '/' := fun hhead => h.no_slash (List.mem_of_head? hhead)
    simp [isAbsolute, hempty, hjoin, hhead]
  · rcases hfront with ⟨rfl, hne⟩ | hfront
    · have hchars : p.text.toList ≠ [] := by simpa using hne
      obtain ⟨c, cs, htext⟩ := List.exists_cons_of_ne_nil hchars
      simp [isAbsolute, hjoin, String.toList_append, htext]
    · rw [isAbsolute, isAbsolute, hjoin, hfront]
      simp [String.toList_append]

theorem endsInSlash_join (p : Path) (h : IsPlainName name) :
    (p.join name).endsInSlash = false := by
  obtain ⟨last, hlast⟩ : ∃ last, name.toList.getLast? = some last :=
    Option.ne_none_iff_exists'.mp (by simpa using h.ne_empty)
  have hne : last ≠ '/' := by
    rintro rfl
    exact h.no_slash (List.mem_of_getLast? hlast)
  rcases p.join_cases name with ⟨-, hjoin⟩ | ⟨outer, -, -, hjoin⟩
  · simp [endsInSlash, hjoin, hlast, hne]
  · rw [endsInSlash, hjoin, String.toList_append, List.getLast?_append, hlast]
    simp [hne]

theorem join_ne_empty (p : Path) (h : IsPlainName name) : (p.join name).text ≠ "" := by
  rcases p.join_cases name with ⟨-, hjoin⟩ | ⟨front, -, -, hjoin⟩
  · rw [hjoin]
    exact h.ne_empty
  · rw [hjoin]
    simp [h.ne_empty]

theorem nul_not_mem_join {p : Path} (hp : '\x00' ∉ p.text.toList) (h : IsPlainName name) :
    '\x00' ∉ (p.join name).text.toList := by
  rcases p.join_cases name with ⟨-, hjoin⟩ | ⟨front, -, hfront, hjoin⟩
  · rw [hjoin]
    exact h.no_nul
  · have hclean : '\x00' ∉ front.toList := by
      rcases hfront with ⟨rfl, -⟩ | hfront
      · exact hp
      · rw [hfront, String.toList_append] at hp
        exact fun hmem => hp (List.mem_append_left _ hmem)
    rw [hjoin]
    simp [String.toList_append, hclean, h.no_nul]

end Path

namespace Disk

theorem lookup_filter_ne (entries : List (Place × DiskEntry)) {place other : Place}
    (h : other ≠ place) :
    (entries.filter fun e => e.1 ≠ place).lookup other = entries.lookup other := by
  induction entries with
  | nil => rfl
  | cons e entries ih =>
    obtain ⟨key, entry⟩ := e
    by_cases hkey : key = place
    · have hother : (other == key) = false := by simpa [hkey] using h
      rw [List.filter_cons_of_neg (by simpa using hkey), ih, List.lookup_cons, hother]
    · rw [List.filter_cons_of_pos (by simpa using hkey), List.lookup_cons, List.lookup_cons, ih]

theorem find?_set (d : Disk) {place : Place} (hplace : place ≠ []) (entry : DiskEntry)
    (other : Place) :
    (d.set place entry).find? other = if other = place then some entry else d.find? other := by
  by_cases hother : other = place
  · rw [if_pos hother, find?, hother, if_neg hplace, set, List.lookup_cons_self]
  · have hkey : (other == place) = false := by simpa using hother
    rw [if_neg hother, find?, find?, set, List.lookup_cons, hkey]
    simp only [lookup_filter_ne d.entries hother]

/-- Where the names of a path lead, of which there may be none. -/
def walkPath (d : Disk) (p : Path) : Except IoError Place :=
  d.walk (if p.isAbsolute then [] else d.workingDirectory) p.steps

theorem walkPath_join (d : Disk) (p : Path) {name : String} (h : IsPlainName name) :
    d.walkPath (p.join name) = d.walkPath p >>= fun place => d.enter place name := by
  rw [walkPath, p.isAbsolute_join h, p.steps_join h, walk, List.foldlM_append]
  simp only [List.foldlM_cons, List.foldlM_nil, bind_pure]
  rfl

theorem start_eq_ok {d : Disk} {p : Path} {start : Place} (h : d.start p = .ok start) :
    p.text ≠ "" ∧ start = if p.isAbsolute then [] else d.workingDirectory := by
  unfold Disk.start at h
  split at h
  · cases h
  · split at h
    · cases h
    · split at h
      · cases h
      · next hne => exact ⟨hne, (Except.ok.inj h).symm⟩

/-- There is no limit to the length of names and paths. -/
def IsIdeal (d : Disk) : Prop :=
  d.limits = ⟨none, none⟩

namespace IsIdeal

variable {d : Disk} {p : Path}

theorem start (h : d.IsIdeal) (hclean : '\x00' ∉ p.text.toList) (hne : p.text ≠ "") :
    d.start p = .ok (if p.isAbsolute then [] else d.workingDirectory) := by
  rw [Disk.start, if_neg (by simpa using hclean), h, if_neg (by simp [exceeds]), if_neg hne]

theorem place (h : d.IsIdeal) (hclean : '\x00' ∉ p.text.toList) (hne : p.text ≠ "") :
    d.place p = d.walkPath p := by
  rw [Disk.place, h.start hclean hne]
  rfl

theorem enter (h : d.IsIdeal) {place : Place} (hplace : d.find? place = some .directory)
    {name : String} (hname : IsPlainName name) : d.enter place name = .ok (place ++ [name]) := by
  rw [Disk.enter, hplace, h]
  exact congrArg Except.ok (hname.step place)

end IsIdeal

theorem eq_step_of_enter {d : Disk} {place next : Place} {name : String}
    (h : d.enter place name = .ok next) : next = place.step name := by
  unfold enter at h
  split at h
  · cases h
  · cases h
  · split at h
    · cases h
    · exact (Except.ok.inj h).symm

theorem enter_of_none {d : Disk} {place : Place} (h : d.find? place = none) (name : String) :
    d.enter place name = .error noSuchFile := by
  rw [enter, h]

theorem look_of_place {d : Disk} {p : Path} {place : Place} (hslash : p.endsInSlash = false)
    (h : d.place p = .ok place) :
    d.look p = match d.find? place with
      | some entry => .ok entry
      | none => .error noSuchFile := by
  rw [look, h, hslash]
  rfl

theorem look_of_error {d : Disk} {p : Path} {e : IoError} (h : d.place p = .error e) :
    d.look p = .error e := by
  rw [look, h]
  rfl

theorem writeFile_eq_ok {d : Disk} {p : Path} {place : Place} (hplace : d.place p = .ok place)
    (hfree : d.find? place = none) (data : Bytes) :
    writeFile p data d = (.ok (), d.set place (.file data)) := by
  simp only [writeFile, hplace, hfree]

/-- Moves what stands at the end of a path, in place of a file if there is one. -/
def moveFile (source target : Path) : Stateful IoError Disk Unit := fun d =>
  match d.place source, d.place target with
  | .error e, _ | .ok _, .error e => (.error e, d)
  | .ok old, .ok new =>
    match d.find? old, d.find? new with
    | none, _ => (.error noSuchFile, d)
    | some _, some .directory => (.error isADirectory, d)
    | some entry, _ =>
      (.ok (), { d with entries := d.entries.filter fun e => e.1 ≠ old }.set new entry)

theorem moveFile_eq_ok {d : Disk} {source target : Path} {old new : Place} {entry : DiskEntry}
    (hold : d.place source = .ok old) (hnew : d.place target = .ok new)
    (hentry : d.find? old = some entry) (hfree : d.find? new = none) :
    moveFile source target d =
      (.ok (), { d with entries := d.entries.filter fun e => e.1 ≠ old }.set new entry) := by
  simp only [moveFile, hold, hnew, hentry, hfree]

/-- What is taken away again from a place where there was nothing leaves no trace. -/
theorem filter_set {d : Disk} {place : Place} (h : d.find? place = none) (entry : DiskEntry) :
    { d.set place entry with
      entries := (d.set place entry).entries.filter fun e => e.1 ≠ place } = d := by
  have hnone : ∀ e ∈ d.entries, e.1 ≠ place := by
    intro e he heq
    rw [find?] at h
    split at h
    · cases h
    · exact absurd heq.symm (by simpa using List.lookup_eq_none_iff.mp h e he)
  have hkept : d.entries.filter (fun e => e.1 ≠ place) = d.entries :=
    List.filter_eq_self.mpr fun e he => decide_eq_true (hnone e he)
  simp only [set, List.filter_cons_of_neg, hkept, ne_eq, not_true_eq_false, decide_false,
    Bool.false_eq_true, not_false_eq_true]

theorem isAbsolute_of_steps_eq_nil {p : Path} (hne : p.text ≠ "") (h : p.steps = []) :
    p.isAbsolute = true := by
  obtain ⟨c, cs, htext⟩ := List.exists_cons_of_ne_nil (by simpa using hne : p.text.toList ≠ [])
  by_cases hc : c = '/'
  · simp [Path.isAbsolute, htext, hc]
  · obtain ⟨part, parts, hparts⟩ := List.exists_cons_of_ne_nil (splitChars_ne_nil '/' cs)
    simp [Path.steps, segments, htext, splitChars, hc, hparts] at h

section Related

variable {R : Disk → Disk → Prop} (hrefl : ∀ d, R d d)
  (htrans : ∀ d middle later, R d middle → R middle later → R d later)
include htrans

theorem related_preparing {prepare make : Stateful IoError Disk Unit}
    (hprepare : ∀ d : Disk, R d (prepare d).2) (hmake : ∀ d : Disk, R d (make d).2) (d : Disk) :
    R d (preparing prepare make d).2 := by
  have hfirst := hmake d
  rw [preparing, Stateful.tryCatch_eq]
  rcases hmade : make d with ⟨_ | ⟨⟨⟩⟩, middle⟩
  · next e =>
    rw [hmade] at hfirst
    by_cases hmissing : e.kind = .notFound
    · simp only [if_pos hmissing]
      have hprepared := hprepare middle
      rcases hstep : prepare middle with ⟨_ | ⟨⟨⟩⟩, ready⟩
      · rw [hstep] at hprepared
        rw [Stateful.bind_of_error hstep]
        exact htrans _ _ _ hfirst hprepared
      · rw [hstep] at hprepared
        rw [Stateful.bind_of_ok hstep]
        exact htrans _ _ _ (htrans _ _ _ hfirst hprepared) (hmake ready)
    · simp only [if_neg hmissing]
      exact hfirst
  · rw [hmade] at hfirst
    exact hfirst

include hrefl

/-- What the making of one directory does to a disk, the making of all on the way does. The root is
never made. -/
theorem related_createDirectories (hmake : ∀ d start names, (names = [] → start = []) →
    R d (makeDirectory start names d).2) (p : Path) (d : Disk) :
    R d (createDirectories p d).2 := by
  have houter (start : Place) (names : List String) (d : Disk) :
      R d (makeDirectories start names d).2 := by
    induction names generalizing d with
    | nil => exact hrefl d
    | cons name outer ih =>
      have hlast (d : Disk) : R d (makeDirectory start (name :: outer).reverse d).2 :=
        hmake d start _ fun hnil => absurd (List.reverse_eq_nil_iff.mp hnil) (List.cons_ne_nil _ _)
      exact related_preparing htrans ih hlast d
  unfold createDirectories
  split
  · exact hrefl d
  · next hne =>
    split
    · exact hrefl d
    · next start hstart =>
      have hroot : p.steps = [] → start = [] := fun hsteps => by
        rw [(start_eq_ok hstart).2, isAbsolute_of_steps_eq_nil hne hsteps, if_pos rfl]
      have hinner (d : Disk) : R d (makeDirectory start p.steps d).2 := hmake d start _ hroot
      exact related_preparing htrans (houter start _) hinner d

end Related

/-- The later disk has the directories of the first one, and is walked in the same way. -/
structure Keeps (d later : Disk) : Prop where
  limits : later.limits = d.limits
  workingDirectory : later.workingDirectory = d.workingDirectory
  directory : ∀ place, d.find? place = some .directory → later.find? place = some .directory

namespace Keeps

variable {d middle later : Disk} {place : Place}

theorem refl (d : Disk) : d.Keeps d := ⟨rfl, rfl, fun _ => id⟩

theorem trans (h : d.Keeps middle) (hlater : middle.Keeps later) : d.Keeps later where
  limits := hlater.limits.trans h.limits
  workingDirectory := hlater.workingDirectory.trans h.workingDirectory
  directory place hplace := hlater.directory place (h.directory place hplace)

theorem set (hplace : d.find? place ≠ some .directory) (entry : DiskEntry) :
    d.Keeps (d.set place entry) where
  limits := rfl
  workingDirectory := rfl
  directory other hother := by
    have hne : place ≠ [] := by
      rintro rfl
      exact hplace rfl
    rw [find?_set d hne, if_neg (by rintro rfl; exact hplace hother)]
    exact hother

theorem enter (h : d.Keeps later) {name : String} {next : Place}
    (henter : d.enter place name = .ok next) : later.enter place name = .ok next := by
  unfold Disk.enter at henter
  split at henter
  · cases henter
  · cases henter
  · next hdirectory => rw [Disk.enter, h.directory place hdirectory, h.limits]; exact henter

/-- A path leads on to where it led. -/
theorem walk (h : d.Keeps later) {names : List String} {start : Place}
    (hwalk : d.walk start names = .ok place) : later.walk start names = .ok place := by
  induction names generalizing start with
  | nil => exact hwalk
  | cons name names ih =>
    rw [Disk.walk, List.foldlM_cons] at hwalk ⊢
    obtain ⟨next, henter, hrest⟩ := bind_eq_ok_iff.mp hwalk
    exact bind_eq_ok_iff.mpr ⟨next, h.enter henter, ih hrest⟩

theorem walkPath (h : d.Keeps later) {p : Path} (hwalk : d.walkPath p = .ok place) :
    later.walkPath p = .ok place := by
  rw [Disk.walkPath, h.workingDirectory]
  exact h.walk hwalk

theorem makeDirectory (d : Disk) (start : Place) (names : List String) :
    d.Keeps (Disk.makeDirectory start names d).2 := by
  unfold Disk.makeDirectory
  split
  · exact .refl d
  · split
    · exact .refl d
    · exact .refl d
    · next hnone => exact .set (by simp [hnone]) _

theorem createDirectories (d : Disk) (p : Path) : d.Keeps (Disk.createDirectories p d).2 :=
  related_createDirectories .refl (fun _ _ _ => .trans) (fun d _ _ _ => .makeDirectory d _ _) p d

end Keeps

/-- Only the directory itself is missing, if anything is. -/
theorem createDirectories_of_walkPath {d : Disk} {p : Path} {place : Place} (h : d.IsIdeal)
    (hclean : '\x00' ∉ p.text.toList) (hne : p.text ≠ "") (hwalk : d.walkPath p = .ok place)
    (hplace : d.find? place = some .directory ∨ d.find? place = none) :
    ∃ later, createDirectories p d = (.ok (), later) ∧ d.Keeps later ∧ ∀ other,
      later.find? other = if other = place then some .directory else d.find? other := by
  have hmake {later : Disk} (hlater : makeDirectory
      (if p.isAbsolute then [] else d.workingDirectory) p.steps d = (.ok (), later)) :
      createDirectories p d = (.ok (), later) := by
    rw [createDirectories, if_neg hne, h.start hclean hne]
    change preparing _ _ d = _
    rw [preparing, Stateful.tryCatch_eq, hlater]
  have hwalked : d.walk (if p.isAbsolute then [] else d.workingDirectory) p.steps = .ok place :=
    hwalk
  rcases hplace with hdirectory | hmissing
  · refine ⟨d, hmake ?_, .refl d, fun other => ?_⟩
    · simp only [makeDirectory, hwalked, hdirectory]
    · by_cases hother : other = place
      · rw [if_pos hother, hother, hdirectory]
      · rw [if_neg hother]
  · have hroot : place ≠ [] := by
      rintro rfl
      cases hmissing
    refine ⟨d.set place .directory, hmake ?_, .set (by simp [hmissing]) _, d.find?_set hroot _⟩
    simp only [makeDirectory, hwalked, hmissing]

end Disk

end ContentGraph
