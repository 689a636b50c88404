import Mathlib.Data.List.DropRight
import ContentGraph.Proofs.CommandGrowth
import ContentGraph.Proofs.Retrieval

/-! Paths as they are given on the command line. The argument is divided at its slashes and those
around it do not count, so it can stand for every path without slashes in its segments and without
empty ones at its ends, and for no other. What such a path leads to in the graph is what is printed.
The name of an attribute with its namespace may well have a slash in it, and then there is no argument
for its field. -/

namespace ContentGraph

section Segments

variable {mark c : Char} {cs : List Char}

theorem not_mem_of_mem_splitChars {part : List Char} (h : part ∈ splitChars mark cs) :
    mark ∉ part := by
  induction cs generalizing part with
  | nil =>
    obtain rfl := List.mem_singleton.mp h
    exact List.not_mem_nil
  | cons c cs ih =>
    obtain ⟨first, parts, hparts⟩ := List.exists_cons_of_ne_nil (splitChars_ne_nil mark cs)
    rw [splitChars, hparts] at h
    rw [hparts] at ih
    split at h
    · rcases List.mem_cons.mp h with rfl | h
      · exact List.not_mem_nil
      · exact ih h
    · next hc =>
      rcases List.mem_cons.mp h with rfl | h
      · rw [List.mem_cons, not_or]
        exact ⟨Ne.symm hc, ih List.mem_cons_self⟩
      · exact ih (List.mem_cons_of_mem _ h)

theorem head?_splitChars : (splitChars mark cs).head? = some [] ↔ cs = [] ∨ cs.head? = some mark := by
  cases cs with
  | nil => simp [splitChars]
  | cons c cs =>
    obtain ⟨first, parts, hparts⟩ := List.exists_cons_of_ne_nil (splitChars_ne_nil mark cs)
    by_cases hc : c = mark <;> simp [splitChars, hparts, hc]

theorem splitChars_concat (hc : c ≠ mark) (cs : List Char) :
    ∃ parts part, splitChars mark (cs ++ [c]) = parts ++ [part ++ [c]] := by
  induction cs with
  | nil => exact ⟨[], [], splitChars_of_not_mem (by simpa using hc.symm)⟩
  | cons c' cs ih =>
    obtain ⟨parts, part, hparts⟩ := ih
    rw [List.cons_append, splitChars, hparts]
    split
    · exact ⟨[] :: parts, part, rfl⟩
    · cases parts with
      | nil => exact ⟨[], c' :: part, rfl⟩
      | cons first parts => exact ⟨(c' :: first) :: parts, part, rfl⟩

theorem getLast?_splitChars :
    (splitChars mark cs).getLast? = some [] ↔ cs = [] ∨ cs.getLast? = some mark := by
  rcases List.eq_nil_or_concat cs with rfl | ⟨front, c, rfl⟩
  · simp [splitChars]
  · rw [List.concat_eq_append]
    by_cases hc : c = mark
    · subst hc
      simp [splitChars_append_cons, splitChars]
    · obtain ⟨parts, part, hparts⟩ := splitChars_concat hc front
      simp [hparts, hc]

theorem segments_intercalate {path : List String} (hne : path ≠ [])
    (h : ∀ segment ∈ path, '/' ∉ segment.toList) : segments ("/".intercalate path) = path := by
  induction path with
  | nil => exact absurd rfl hne
  | cons first rest ih =>
    obtain ⟨hfirst, hrest⟩ := List.forall_mem_cons.mp h
    by_cases hnil : rest = []
    · subst hnil
      rw [String.intercalate_singleton, segments_of_no_slash hfirst]
    · rw [String.intercalate_cons_of_ne_nil hnil, segments_append_slash,
        segments_of_no_slash hfirst, ih hnil hrest]
      rfl

theorem head?_segments {s : String} :
    (segments s).head? = some "" ↔ s = "" ∨ s.toList.head? = some '/' := by
  rw [segments, List.head?_map, Option.map_eq_some_iff]
  simp only [String.ofList_eq_empty_iff, exists_eq_right, head?_splitChars,
    String.toList_eq_nil_iff]

theorem getLast?_segments {s : String} :
    (segments s).getLast? = some "" ↔ s = "" ∨ s.toList.getLast? = some '/' := by
  rw [segments, List.getLast?_map, Option.map_eq_some_iff]
  simp only [String.ofList_eq_empty_iff, exists_eq_right, getLast?_splitChars,
    String.toList_eq_nil_iff]

end Segments

namespace Commands

open DirectoryStore (IsOpen)

/-- A path that can be given with slashes between its segments: none of them has a slash in it, and
the outermost ones are not empty, unless there is but one. -/
structure IsWritable (path : List String) : Prop where
  nonempty : path ≠ []
  undivided : ∀ segment ∈ path, '/' ∉ segment.toList
  first : path.head? = some "" → path = [""]
  last : path.getLast? = some "" → path = [""]

section Arguments

/-- Text without the slashes around it. -/
def withoutSlashes (s : String) : String :=
  String.ofList ((s.toList.dropWhile (· = '/')).rdropWhile (· = '/'))

theorem pathOfArgument_eq (argument : String) :
    pathOfArgument argument = segments (withoutSlashes argument) := rfl

theorem withoutSlashes_eq {s : String} (hhead : s.toList.head? ≠ some '/')
    (hlast : s.toList.getLast? ≠ some '/') : withoutSlashes s = s := by
  have hfront : s.toList.dropWhile (· = '/') = s.toList := by
    cases hchars : s.toList with
    | nil => rfl
    | cons c cs =>
      have hc : c ≠ '/' := by simpa [hchars] using hhead
      simp [hc]
  have hback : s.toList.rdropWhile (· = '/') = s.toList := by
    rw [List.rdropWhile_eq_self_iff]
    intro hne hslash
    rw [decide_eq_true_eq] at hslash
    exact hlast (by rw [List.getLast?_eq_some_getLast hne, hslash])
  rw [withoutSlashes, hfront, hback, String.ofList_toList]

theorem head?_withoutSlashes (s : String) : (withoutSlashes s).toList.head? ≠ some '/' := by
  have hfront := List.head?_dropWhile_not (· = '/') s.toList
  obtain ⟨back, hback⟩ := List.rdropWhile_prefix (· = '/') (s.toList.dropWhile (· = '/'))
  rw [withoutSlashes, String.toList_ofList]
  intro hslash
  rw [← hback, List.head?_append, hslash, Option.some_or] at hfront
  cases hfront

theorem getLast?_withoutSlashes (s : String) : (withoutSlashes s).toList.getLast? ≠ some '/' := by
  rw [withoutSlashes, String.toList_ofList]
  intro hslash
  have hne : (s.toList.dropWhile (· = '/')).rdropWhile (· = '/') ≠ [] := by
    intro hnil
    rw [hnil] at hslash
    cases hslash
  have hlast := List.rdropWhile_last_not (· = '/') (s.toList.dropWhile (· = '/')) hne
  rw [List.getLast?_eq_some_getLast hne] at hslash
  exact hlast (decide_eq_true (Option.some.inj hslash))

theorem isWritable_pathOfArgument (argument : String) : IsWritable (pathOfArgument argument) := by
  rw [pathOfArgument_eq]
  have hempty (h : withoutSlashes argument = "") : segments (withoutSlashes argument) = [""] := by
    rw [h, segments_empty]
  refine ⟨mt List.map_eq_nil_iff.mp (splitChars_ne_nil _ _), fun segment hsegment => ?_,
    fun hfirst => ?_, fun hlast => ?_⟩
  · obtain ⟨part, hpart, rfl⟩ := List.mem_map.mp hsegment
    rw [String.toList_ofList]
    exact not_mem_of_mem_splitChars hpart
  · exact hempty ((head?_segments.mp hfirst).resolve_right (head?_withoutSlashes argument))
  · exact hempty ((getLast?_segments.mp hlast).resolve_right (getLast?_withoutSlashes argument))

theorem IsWritable.pathOfArgument_intercalate {path : List String} (h : IsWritable path) :
    pathOfArgument ("/".intercalate path) = path := by
  by_cases hroot : path = [""]
  · subst hroot
    rw [String.intercalate_singleton]
    rfl
  · have hsegments := segments_intercalate h.nonempty h.undivided
    have hhead : path.head? ≠ some "" := mt h.first hroot
    have hlast : path.getLast? ≠ some "" := mt h.last hroot
    rw [← hsegments, ne_eq, head?_segments, not_or] at hhead
    rw [← hsegments, ne_eq, getLast?_segments, not_or] at hlast
    rw [pathOfArgument_eq, withoutSlashes_eq hhead.2 hlast.2, hsegments]

end Arguments

/-- The graph in which the paths of an address are resolved. -/
def openGraph (settings : Settings) (store : DirectoryStore) (a : Address) :
    Except GraphError Graph :=
  (fun g : Graph => { g with config := settings.graph }) <$> Graph.open (Store.get store) a

theorem openGraph_of_get (settings : Settings) {store : DirectoryStore} {a : Address} {o : Object}
    (h : Store.get store a = .ok o) :
    openGraph settings store a = .ok ⟨Store.get store, o, settings.graph⟩ := by
  rw [openGraph, Graph.open, h]
  rfl

/-- The text that is printed for what a path leads to. -/
def shown : Resolved → String
  | .object root => root.tree.toJson.pretty
  | .value (.link target) => target.text
  | .value (.string s) => s
  | .value tree => tree.toJson.pretty

section Resolving

variable {settings : Settings} {a : Address} {argument : String} {g : Graph} {found : Resolved}

theorem resolvePath_of_get {console : Console DirectoryStore}
    (hopen : openGraph settings console.state a = .ok g)
    (hget : g.get (pathOfArgument argument) = .ok found) :
    resolvePath settings a argument console =
      (.ok (), { console with output := console.output ++ shown found ++ "\n" }) := by
  obtain ⟨opened, hopened, rfl⟩ := map_eq_ok_iff.mp hopen
  rw [resolvePath, Stateful.bind_of_ok (get_console _), hopened,
    Stateful.bind_of_ok (orFail_ok _ _ _), hget, Stateful.bind_of_ok (orFail_ok _ _ _)]
  rcases found with root | ⟨_ | _ | _ | _ | _ | _ | _ | _ | _⟩ <;> rfl

variable {configFile storeDirectory : Option String} {console : Console Disk}

theorem run_resolve (hsettings : loadSettings console.state configFile = .ok settings)
    (hopen : IsOpen ⟨rootOf storeDirectory settings, console.state⟩)
    (hgraph : openGraph settings ⟨rootOf storeDirectory settings, console.state⟩ a = .ok g)
    (hget : g.get (pathOfArgument argument) = .ok found) :
    run ⟨.resolve a argument, configFile, storeDirectory⟩ console =
      (.ok (), { console with output := console.output ++ shown found ++ "\n" }) := by
  rw [run_of_opened hsettings hopen.opens.createDirectories_eq, onDisk, runCommand,
    @resolvePath_of_get _ _ _ _ _ { console with state := ⟨_, console.state⟩ } hgraph hget]

/-- An invocation that prints something has had its store open, and another one finds it so. -/
theorem exists_settings_of_printed (invocation : Invocation) (htree : console.state.IsTree)
    (hprinted : (run invocation console).2.output ≠ console.output) :
    ∃ settings,
      loadSettings (run invocation console).2.state invocation.configFile = .ok settings ∧
      IsOpen ⟨rootOf invocation.storeDirectory settings, (run invocation console).2.state⟩ := by
  rcases run_cases invocation htree with
    ⟨failure, disk, -, -, hrun⟩ | ⟨settings, disk, -, hsettings, hopen, hrun⟩
  · rw [hrun] at hprinted
    exact absurd rfl hprinted
  · have hgrown := @grown_onDisk settings invocation.command _ { console with state := disk } hopen
    rw [hrun]
    exact ⟨settings, loadSettings_of_grows hgrown.grows hsettings, hgrown.isOpen hopen⟩

end Resolving

/-- After an import that has printed a root, whatever became of the files behind it, a path leads
somewhere for some argument if it can be written, and what it leads to is printed. No argument stands
for any other path. -/
theorem written_paths_resolve {files : List String} {contexts : List Address}
    {configFile storeDirectory : Option String} {console after : Console Disk}
    {result : Except Failure Unit} (htree : console.state.IsTree)
    (himport : run ⟨.importFiles files contexts, configFile, storeDirectory⟩ console =
      (result, after))
    (hprinted : after.output ≠ console.output) :
    ∃ settings, loadSettings after.state configFile = .ok settings ∧
      ∀ root g, openGraph settings ⟨rootOf storeDirectory settings, after.state⟩ root = .ok g →
        ∀ path found, g.get path = .ok found →
          (IsWritable path → ∃ argument, pathOfArgument argument = path ∧
            run ⟨.resolve root argument, configFile, storeDirectory⟩ after =
              (.ok (), { after with output := after.output ++ shown found ++ "\n" })) ∧
          (¬IsWritable path → ∀ argument, pathOfArgument argument ≠ path) := by
  have hafter := @exists_settings_of_printed console
    ⟨.importFiles files contexts, configFile, storeDirectory⟩ htree
  rw [himport] at hafter
  obtain ⟨settings, hsettings, hopen⟩ := hafter hprinted
  refine ⟨settings, hsettings, fun root g hgraph path found hget => ⟨fun hpath => ?_, ?_⟩⟩
  · have hargument := hpath.pathOfArgument_intercalate
    exact ⟨_, hargument, run_resolve hsettings hopen hgraph (hargument.symm ▸ hget)⟩
  · rintro hpath argument rfl
    exact hpath (isWritable_pathOfArgument argument)

def slashedContext : Context :=
  .ofTerms [("a", "T")]

def slashedContextAddress : Address :=
  .derive .node slashedContext.toNode.encode

/-- A working directory with a stored context and with a document in which the namespace of an
attribute has a slash in it. -/
def slashedDisk : Disk where
  entries :=
    let key := "m016d1e20787f1c0f6354b8f0c46bd9fea34768bf6e9b7db378253665390ecddd42f79998"
    [(["desk", ".meta", "98", key], .file slashedContext.toNode.encode),
      (["desk", ".meta", "98"], .directory), (["desk", ".meta"], .directory),
      (["desk", "a.xml"], .file (utf8 "<a xmlns:p=\"u/v\" p:b=\"t\"/>")), (["desk"], .directory)]
  workingDirectory := ["desk"]

theorem slashedDisk_isTree : slashedDisk.IsTree :=
  Disk.isTree_of_forall (by decide)

def slashedNode : Node :=
  .map [(typeField, .string "T"), (valueField, .string ""), ("u/v:b", .string "t")]

theorem slashedNode_canonical : slashedNode.Canonical slashedNode.encode where
  encoded := rfl
  ordered := ⟨by decide, trivial, trivial, trivial, trivial⟩
  sized := Node.sized_of_length_encode_lt (by decide +kernel)
  shallow := by decide

def slashedRoot : Address :=
  .derive .node slashedNode.encode

def slashedImport : Invocation where
  command := .importFiles ["a.xml"] [slashedContextAddress]
  configFile := none
  storeDirectory := none

theorem slashedImport_ends : (run slashedImport ⟨slashedDisk, ""⟩).1.isOk = true ∧
    (run slashedImport ⟨slashedDisk, ""⟩).2.output = "✓ " ++ slashedRoot.text ++ "  a.xml\n" ∧
    (Backend.read (DirectoryStore.mk (rootOf none {}) (run slashedImport ⟨slashedDisk, ""⟩).2.state)
      slashedRoot.text).toOption = some (some slashedNode.encode) := by
  decide +kernel

/-- The document is imported, and its root holds the field of the attribute. -/
theorem slashedDisk_imported : ∃ after g, run slashedImport ⟨slashedDisk, ""⟩ = (.ok (), after) ∧
    after.output = "✓ " ++ slashedRoot.text ++ "  a.xml\n" ∧
    openGraph {} ⟨rootOf none {}, after.state⟩ slashedRoot = .ok g ∧ g.root.tree = slashedNode := by
  obtain ⟨hok, houtput, hheld⟩ := slashedImport_ends
  rcases hran : run slashedImport ⟨slashedDisk, ""⟩ with ⟨failure | done, after⟩
  · rw [hran] at hok
    cases hok
  · rw [hran] at houtput hheld
    have hread : Backend.read (DirectoryStore.mk (rootOf none {}) after.state) slashedRoot.text =
        .ok (some slashedNode.encode) := by
      cases hfound : Backend.read (DirectoryStore.mk (rootOf none {}) after.state)
          slashedRoot.text with
      | error e =>
        rw [hfound] at hheld
        cases hheld
      | ok found =>
        rw [hfound] at hheld
        exact congrArg Except.ok (Option.some.inj hheld)
    have hopens : Store.Opens (DirectoryStore.mk (rootOf none {}) after.state) slashedRoot
        slashedNode.encode slashedNode (some "T") :=
      ⟨hread, rfl, rfl, rfl, slashedNode_canonical, rfl⟩
    obtain ⟨o, hget, -, -, htree, -⟩ := hopens.exists_object
    exact ⟨after, _, rfl, houtput, openGraph_of_get {} hget, htree⟩

theorem get_slashedNode {g : Graph} (htree : g.root.tree = slashedNode) {segment s : String}
    (hsegment : segment ≠ "") (hchild : slashedNode.child? segment = some (.string s)) :
    g.get [segment] = .ok (.value (.string s)) := by
  have hdescend : slashedNode.descend [segment] = some (.string s, []) :=
    Node.descend_of_child? [] rfl hchild
  rw [Graph.get_eq (List.cons_ne_nil _ _) (by simpa using hsegment), htree,
    Graph.follow_end hdescend]
  rfl

theorem child?_slashedNode {segment : String} (h : '/' ∉ segment.toList) :
    slashedNode.child? segment = none ∨
      ∃ s ≠ "t", slashedNode.child? segment = some (.string s) := by
  by_cases htype : segment = typeField
  · exact .inr ⟨"T", by decide, by rw [htype]; rfl⟩
  · by_cases hvalue : segment = valueField
    · exact .inr ⟨"", by decide, by rw [hvalue]; rfl⟩
    · have hfield : segment ≠ "u/v:b" := fun heq => h (heq ▸ by decide)
      left
      rw [slashedNode, Node.child?, Entries.get?, List.lookup_eq_none_iff]
      simp [htype, hvalue, hfield]

/-- A path whose first segment has no slash in it leads past the field of the attribute. -/
theorem get_ne_of_isWritable {g : Graph} (htree : g.root.tree = slashedNode) {path : List String}
    (hpath : IsWritable path) : g.get path ≠ .ok (.value (.string "t")) := by
  intro h
  by_cases hroot : path = [""]
  · rw [hroot] at h
    cases h
  · obtain ⟨first, rest, rfl⟩ := List.exists_cons_of_ne_nil hpath.nonempty
    rw [Graph.get_eq hpath.nonempty hroot, htree] at h
    rcases child?_slashedNode (hpath.undivided first List.mem_cons_self) with
      hnone | ⟨s, hs, hsome⟩
    · have hdescend : slashedNode.descend (first :: rest) = none := by
        rw [Node.descend, hnone]
        rfl
      rw [Graph.follow_missing hdescend] at h
      cases h
    · have hdescend := Node.descend_of_child? rest rfl hsome
      cases rest with
      | nil =>
        rw [Graph.follow_end hdescend] at h
        cases h
        exact hs rfl
      | cons segment rest =>
        rw [Graph.follow, hdescend] at h
        cases h

/-- No argument leads to the value of the attribute in the namespace `u/v`. -/
theorem slashed_field_has_no_argument : ∃ after g,
    run slashedImport ⟨slashedDisk, ""⟩ = (.ok (), after) ∧
    after.output = "✓ " ++ slashedRoot.text ++ "  a.xml\n" ∧
    openGraph {} ⟨rootOf none {}, after.state⟩ slashedRoot = .ok g ∧
    g.get ["u/v:b"] = .ok (.value (.string "t")) ∧
    ∀ argument, g.get (pathOfArgument argument) ≠ .ok (.value (.string "t")) := by
  obtain ⟨after, g, hrun, houtput, hgraph, htree⟩ := slashedDisk_imported
  exact ⟨after, g, hrun, houtput, hgraph, get_slashedNode htree (by decide) rfl,
    fun argument => get_ne_of_isWritable htree (isWritable_pathOfArgument argument)⟩

theorem written_paths_resolve_in_slashedDisk :
    slashedDisk.IsTree ∧ ∃ after, run slashedImport ⟨slashedDisk, ""⟩ = (.ok (), after) ∧
      after.output ≠ "" ∧
      (∃ argument, pathOfArgument argument = [typeField] ∧
        run ⟨.resolve slashedRoot argument, none, none⟩ after =
          (.ok (), { after with output := after.output ++ "T" ++ "\n" })) ∧
      ∀ argument, pathOfArgument argument ≠ ["u/v:b"] := by
  obtain ⟨after, g, hrun, houtput, hgraph, htree⟩ := slashedDisk_imported
  have hprinted : after.output ≠ "" := by
    simp [houtput]
  have hwritable : IsWritable [typeField] := ⟨by decide, by decide, by decide, by decide⟩
  have hunwritable : ¬IsWritable ["u/v:b"] := fun h =>
    h.undivided "u/v:b" List.mem_cons_self (by decide)
  obtain ⟨settings, hsettings, hpaths⟩ := written_paths_resolve slashedDisk_isTree hrun hprinted
  obtain rfl : {} = settings := Except.ok.inj hsettings
  have hresolve := hpaths slashedRoot g hgraph
  exact ⟨slashedDisk_isTree, after, hrun, hprinted,
    (hresolve _ _ (get_slashedNode htree (by decide) rfl)).1 hwritable,
    (hresolve _ _ (get_slashedNode htree (by decide) rfl)).2 hunwritable⟩

end Commands

end ContentGraph
