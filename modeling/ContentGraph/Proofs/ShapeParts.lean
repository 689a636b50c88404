import ContentGraph.Proofs.FirstViolation

/-! The parts that an object is read to: from each of its entries an attribute, a field of links or a
text. As no two entries have the same key, each part is found by looking its key up in the object, and
there are parts exactly if every entry is one that can be read. -/

namespace ContentGraph

theorem typeField_ne_valueField : typeField ≠ valueField := by decide

theorem mapM_eq_some_iff {α β : Type} {f : α → Option β} {g : β → α}
    (h : ∀ x y, f x = some y ↔ x = g y) {xs : List α} {ys : List β} :
    xs.mapM f = some ys ↔ xs = ys.map g := by
  induction xs generalizing ys with
  | nil => cases ys <;> simp
  | cons x xs ih =>
    simp only [List.mapM_cons, bind, pure, Option.bind_eq_some_iff, h, ih]
    constructor
    · rintro ⟨y, rfl, rest, rfl, hys⟩
      cases hys
      rfl
    · intro hmap
      obtain ⟨y, rest, rfl, hy, hrest⟩ := List.map_eq_cons_iff.mp hmap.symm
      exact ⟨y, hy.symm, rest, hrest.symm, rfl⟩

namespace Entries

theorem get?_of_mem {α : Type} {entries : Entries α} (hsorted : Sorted entries) {e : String × α}
    (he : e ∈ entries) : get? entries e.1 = some e.2 := by
  induction entries with
  | nil => cases he
  | cons first rest ih =>
    obtain ⟨hfirst, hrest⟩ := List.pairwise_cons.mp hsorted
    rw [get?_cons]
    rcases List.mem_cons.mp he with rfl | he
    · exact if_pos rfl
    · have hne : e.1 ≠ first.1 := fun heq => String.lt_irrefl _ (heq ▸ hfirst e he)
      rw [if_neg hne, ih hrest he]

end Entries

namespace Table

variable {α : Type}

/-- Inserts a value if there is one. -/
def insertSome (t : Table α) (key : String) : Option α → Table α
  | some value => t.insert key value
  | none => t

theorem get?_insertSome (t : Table α) (name : String) (value : Option α) (key : String) :
    (t.insertSome name value).get? key = (if key = name then value else none).or (t.get? key) := by
  cases value with
  | none => simp [insertSome]
  | some value =>
    rw [insertSome, get?_insert]
    by_cases hkey : key = name
    · rw [if_pos hkey, if_pos hkey, Option.some_or]
    · rw [if_neg hkey, if_neg hkey, Option.none_or]

@[simp] theorem get?_empty (key : String) : (empty : Table α).get? key = none := rfl

theorem entries_eq_nil_iff {t : Table α} : t.entries = [] ↔ ∀ key, t.get? key = none := by
  constructor
  · intro h key
    rw [get?, h, Entries.get?_nil]
  · intro h
    have hempty : t = empty := eq_of_get?_eq h
    rw [hempty]
    rfl

end Table

namespace Shape

theorem textsOf?_eq_some_iff {items : List Node} {runs : List String} :
    textsOf? items = some runs ↔ items = runs.map .string := by
  refine mapM_eq_some_iff fun n s => ?_
  cases n <;> simp [Node.asString?]

theorem linksOf?_eq_some_iff {items : List Node} {targets : List Address} :
    linksOf? items = some targets ↔ items = targets.map .link := by
  refine mapM_eq_some_iff fun n a => ?_
  cases n <;> simp [Node.asLink?]

@[simp] theorem textsOf?_map (runs : List String) : textsOf? (runs.map .string) = some runs :=
  textsOf?_eq_some_iff.mpr rfl

@[simp] theorem linksOf?_map (targets : List Address) :
    linksOf? (targets.map .link) = some targets :=
  linksOf?_eq_some_iff.mpr rfl

/-- What can be read under a field: the type, a text, a link, a list of links, and as the text of an
element a list of its runs. -/
inductive Readable (name : String) : Node → Prop
  | type {n : Node} (h : name = typeField) : Readable name n
  | string (s : String) : Readable name (.string s)
  | link (target : Address) : Readable name (.link target)
  | links (targets : List Address) (h : name ≠ valueField) :
    Readable name (.list (targets.map .link))
  | runs (runs : List String) (h : name = valueField) : Readable name (.list (runs.map .string))

/-- The attribute that an entry is read as, if it is one. -/
def attribute? (name : String) (n : Node) : Option String :=
  if name = typeField ∨ name = valueField then none else n.asString?

def field? (name : String) : Node → Option Field
  | .link target => if name = typeField then none else some (.link target)
  | .list items =>
    if name = typeField ∨ name = valueField then none else (linksOf? items).map .links
  | _ => none

def value? (name : String) (n : Node) : Option String :=
  if name = valueField then n.asString? else none

def runs? (name : String) : Node → Option (List String)
  | .string s => if name = valueField then some [s] else none
  | .list items => if name = valueField then textsOf? items else none
  | _ => none

namespace Parts

/-- The parts with what an entry is read as. -/
def note (parts : Parts) (name : String) (n : Node) : Parts where
  attributes := parts.attributes.insertSome name (attribute? name n)
  fields := parts.fields.insertSome name (field? name n)
  value := (value? name n).or parts.value
  text := (runs? name n).getD parts.text

theorem note_type (parts : Parts) (n : Node) : parts.note typeField n = parts := by
  have hne := typeField_ne_valueField
  cases n <;> simp [note, attribute?, field?, value?, runs?, hne, Table.insertSome]

theorem add_of_readable {name : String} {n : Node} (h : Readable name n) (parts : Parts) :
    parts.add name n = .ok (parts.note name n) := by
  unfold add
  by_cases htype : name = typeField
  · rw [if_pos htype, htype, note_type]
  · rw [if_neg htype]
    cases h with
    | type h => exact absurd h htype
    | string s =>
      by_cases hvalue : name = valueField <;>
        simp [note, attribute?, field?, value?, runs?, htype, hvalue, Node.asString?,
          Table.insertSome]
    | link target =>
      simp [note, attribute?, field?, value?, runs?, htype, Node.asString?, Table.insertSome]
    | links targets hvalue =>
      simp [note, attribute?, field?, value?, runs?, htype, hvalue, Node.asString?,
        Table.insertSome]
    | runs runs hvalue =>
      simp [note, attribute?, field?, value?, runs?, hvalue, Node.asString?, Table.insertSome]

theorem readable_of_add {parts parts' : Parts} {name : String} {n : Node}
    (h : parts.add name n = .ok parts') : Readable name n := by
  unfold add at h
  by_cases htype : name = typeField
  · exact .type htype
  · rw [if_neg htype] at h
    split at h
    · exact .string _
    · split at h
      · next hvalue =>
        split at h
        · next hruns =>
          rw [textsOf?_eq_some_iff.mp hruns]
          exact .runs _ hvalue
        · cases h
      · next hvalue =>
        split at h
        · next htargets =>
          rw [linksOf?_eq_some_iff.mp htargets]
          exact .links _ hvalue
        · cases h
    · exact .link _
    · cases h

/-- An entry is added if it can be read, and otherwise refused, whatever has been read before. -/
theorem add_eq_ok_iff {parts parts' : Parts} {name : String} {n : Node} :
    parts.add name n = .ok parts' ↔ Readable name n ∧ parts' = parts.note name n := by
  constructor
  · intro h
    have hreadable := readable_of_add h
    rw [add_of_readable hreadable] at h
    exact ⟨hreadable, (Except.ok.inj h).symm⟩
  · rintro ⟨hreadable, rfl⟩
    exact add_of_readable hreadable parts

/-- The parts with what all entries are read as. -/
def noteAll (entries : List (String × Node)) (parts : Parts) : Parts :=
  entries.foldl (fun parts e => parts.note e.1 e.2) parts

theorem ofEntries_eq_ok_iff {entries : List (String × Node)} {last : Parts} :
    ofEntries entries = .ok last ↔
      (∀ e ∈ entries, Readable e.1 e.2) ∧ last = noteAll entries empty := by
  have general (parts : Parts) : entries.foldlM (fun parts e => parts.add e.1 e.2) parts = .ok last ↔
      (∀ e ∈ entries, Readable e.1 e.2) ∧ last = noteAll entries parts := by
    induction entries generalizing parts with
    | nil => simp [noteAll, pure, Except.pure, eq_comm]
    | cons e rest ih =>
      rw [List.foldlM_cons, bind_eq_ok_iff, List.forall_mem_cons]
      simp only [add_eq_ok_iff, ih]
      constructor
      · rintro ⟨_, ⟨hfirst, rfl⟩, hrest, hlast⟩
        exact ⟨⟨hfirst, hrest⟩, hlast⟩
      · rintro ⟨⟨hfirst, hrest⟩, hlast⟩
        exact ⟨_, ⟨hfirst, rfl⟩, hrest, hlast⟩
  exact general empty

/-- What each entry adds to a part is found in the end by looking its key up. -/
theorem view_noteAll {α : Type} (view : Parts → String → Option α) (shown : String → Node → Option α)
    (hnote : ∀ parts name n key, view (note parts name n) key =
      (if key = name then shown name n else none).or (view parts key))
    {entries : List (String × Node)} (hsorted : Entries.Sorted entries) (parts : Parts)
    (key : String) : view (noteAll entries parts) key =
      ((Entries.get? entries key).bind (shown key)).or (view parts key) := by
  induction entries generalizing parts with
  | nil => rfl
  | cons e rest ih =>
    obtain ⟨hfirst, hrest⟩ := List.pairwise_cons.mp hsorted
    have hlater : view (noteAll (e :: rest) parts) key =
        view (noteAll rest (parts.note e.1 e.2)) key := rfl
    rw [hlater, ih hrest, hnote, Entries.get?_cons]
    by_cases hkey : key = e.1
    · rw [if_pos hkey, if_pos hkey, hkey, Entries.get?_eq_none_of_lt hfirst]
      rfl
    · rw [if_neg hkey, if_neg hkey, Option.none_or]

/-- What only the text of an element shows is found under its field. -/
theorem eq_or_of_valueField {α : Type} {shown found : Option α} {name key : String}
    (h : name ≠ valueField → shown = none) :
    (if key = valueField then shown.or found else none) =
      (if key = name then shown else none).or (if key = valueField then found else none) := by
  by_cases hname : name = valueField
  · rw [hname]
    split <;> rfl
  · rw [h hname, Option.none_or, ite_self, Option.none_or]

section Found

variable {entries : List (String × Node)} (hsorted : Entries.Sorted entries)

include hsorted

theorem get?_attributes_noteAll (key : String) : (noteAll entries empty).attributes.get? key =
    (Entries.get? entries key).bind (attribute? key) := by
  have hnote (parts : Parts) (name : String) (n : Node) (key : String) :
      (parts.note name n).attributes.get? key =
        (if key = name then attribute? name n else none).or (parts.attributes.get? key) :=
    Table.get?_insertSome _ _ _ _
  rw [view_noteAll (fun parts => parts.attributes.get?) attribute? hnote hsorted, empty,
    Table.get?_empty, Option.or_none]

theorem get?_fields_noteAll (key : String) : (noteAll entries empty).fields.get? key =
    (Entries.get? entries key).bind (field? key) := by
  have hnote (parts : Parts) (name : String) (n : Node) (key : String) :
      (parts.note name n).fields.get? key =
        (if key = name then field? name n else none).or (parts.fields.get? key) :=
    Table.get?_insertSome _ _ _ _
  rw [view_noteAll (fun parts => parts.fields.get?) field? hnote hsorted, empty,
    Table.get?_empty, Option.or_none]

theorem value_noteAll_eq_some_iff {text : String} : (noteAll entries empty).value = some text ↔
    Entries.get? entries valueField = some (.string text) := by
  have hview := view_noteAll (fun parts key => if key = valueField then parts.value else none) value?
    (fun _ _ _ _ => eq_or_of_valueField fun hname => if_neg hname) hsorted empty valueField
  rw [if_pos rfl, if_pos rfl, show empty.value = none from rfl, Option.or_none] at hview
  rw [hview, Option.bind_eq_some_iff]
  constructor
  · rintro ⟨n, hn, htext⟩
    cases n with
    | string s =>
      cases htext
      exact hn
    | _ => cases htext
  · exact fun hn => ⟨_, hn, rfl⟩

theorem text_noteAll : (noteAll entries empty).text =
    ((Entries.get? entries valueField).bind (runs? valueField)).getD [] := by
  have hnone {name : String} {n : Node} (hname : name ≠ valueField) : runs? name n = none := by
    cases n <;> simp [runs?, hname]
  have hnote (parts : Parts) (name : String) (n : Node) (key : String) :
      (if key = valueField then some (parts.note name n).text else none) =
        (if key = name then runs? name n else none).or
          (if key = valueField then some parts.text else none) := by
    rw [note, ← Option.or_some]
    exact eq_or_of_valueField hnone
  have hview := view_noteAll (fun parts key => if key = valueField then some parts.text else none)
    runs? hnote hsorted empty valueField
  rw [if_pos rfl, if_pos rfl, Option.or_some] at hview
  exact Option.some.inj hview

end Found

end Parts

end Shape

end ContentGraph
