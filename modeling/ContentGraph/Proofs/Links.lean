import ContentGraph.Encoder

/-! The links in a tree, wherever they occur. The tree of an element links to its children and to
nothing else, and the tree of a context links to nothing. -/

namespace ContentGraph

namespace Node

mutual

def links : Node → List Address
  | .link target => [target]
  | .list items => linksOfItems items
  | .map entries => linksOfEntries entries
  | _ => []

def linksOfItems : List Node → List Address
  | [] => []
  | n :: rest => links n ++ linksOfItems rest

def linksOfEntries : List (String × Node) → List Address
  | [] => []
  | (_, n) :: rest => links n ++ linksOfEntries rest

end

theorem mem_links_list {items : List Node} {a : Address} :
    a ∈ (Node.list items).links ↔ ∃ n ∈ items, a ∈ n.links := by
  rw [links]
  induction items with
  | nil => simp [linksOfItems]
  | cons n rest ih => simp [linksOfItems, ih]

theorem mem_links_map {entries : List (String × Node)} {a : Address} :
    a ∈ (Node.map entries).links ↔ ∃ e ∈ entries, a ∈ e.2.links := by
  rw [links]
  induction entries with
  | nil => simp [linksOfEntries]
  | cons e rest ih => simp [linksOfEntries, ih]

theorem links_of_mem_mapValues_string {entries : Entries String} {e : String × Node}
    (h : e ∈ Entries.mapValues .string entries) : e.2.links = [] := by
  obtain ⟨p, -, rfl⟩ := List.mem_map.mp h
  rfl

end Node

namespace Shape

theorem links_of_mem_textEntries {text : List String} {e : String × Node}
    (h : e ∈ textEntries text) : e.2.links = [] := by
  have hlist : ∀ runs : List String, (Node.list (runs.map .string)).links = [] := by
    intro runs
    refine List.eq_nil_iff_forall_not_mem.mpr fun a ha => ?_
    obtain ⟨n, hn, ha⟩ := Node.mem_links_list.mp ha
    obtain ⟨run, -, rfl⟩ := List.mem_map.mp hn
    cases ha
  unfold textEntries at h
  split at h
  · cases h
  · rw [List.mem_singleton.mp h]
    rfl
  · rw [List.mem_singleton.mp h]
    exact hlist _

theorem mem_links_field {f : Field} {a : Address} :
    a ∈ f.toNode.links ↔ match f with
      | .link target => a = target
      | .links targets => a ∈ targets := by
  cases f with
  | link target => simp [Field.toNode, Node.links]
  | links targets =>
    rw [Field.toNode, Node.mem_links_list]
    constructor
    · rintro ⟨n, hn, ha⟩
      obtain ⟨target, htarget, rfl⟩ := List.mem_map.mp hn
      rwa [List.mem_singleton.mp ha]
    · exact fun ha => ⟨.link a, List.mem_map_of_mem ha, List.mem_singleton_self a⟩

theorem links_of_leaf {type value : String} {attributes : Table String} :
    (leaf type value attributes).toNode.links = [] := by
  refine List.eq_nil_iff_forall_not_mem.mpr fun a ha => ?_
  obtain ⟨e, he, ha⟩ := Node.mem_links_map.mp ha
  have he := Entries.mem_of_mem_ofList he
  rcases List.mem_append.mp he with he | he
  · rw [Node.links_of_mem_mapValues_string he] at ha
    cases ha
  · have hstrings : e.2.links = [] := by
      rcases List.mem_cons.mp he with rfl | he
      · rfl
      · rw [List.mem_singleton.mp he]
        rfl
    rw [hstrings] at ha
    cases ha

theorem exists_field_of_mem_links {type : String} {attributes : Table String} {fields : Table Field}
    {text : List String} {a : Address}
    (h : a ∈ (composite type attributes fields text).toNode.links) :
    ∃ e ∈ fields.entries, a ∈ e.2.toNode.links := by
  obtain ⟨e, he, ha⟩ := Node.mem_links_map.mp h
  have he := Entries.mem_of_mem_ofList he
  simp only [storedEntries, List.mem_append, List.mem_singleton] at he
  rcases he with ((he | he) | he) | rfl
  · rw [Node.links_of_mem_mapValues_string he] at ha
    cases ha
  · obtain ⟨p, hp, rfl⟩ := List.mem_map.mp he
    exact ⟨p, hp, ha⟩
  · rw [links_of_mem_textEntries he] at ha
    cases ha
  · cases ha

end Shape

namespace Encoder

open Xml (Element)

theorem mem_of_mem_groupByField {e : Element} {addresses : List Address} {field : String}
    {targets : List Address} (h : (field, targets) ∈ (groupByField e addresses).entries) :
    ∀ a ∈ targets, a ∈ addresses := by
  have general (pairs : List (Element × Address)) (groups : Table (List Address))
      (hgroups : ∀ p ∈ groups.entries, ∀ a ∈ p.2, a ∈ addresses)
      (hpairs : ∀ p ∈ pairs, p.2 ∈ addresses) :
      ∀ p ∈ (pairs.foldl (fun groups p => groups.insert (e.childFieldName p.1)
        ((groups.get? (e.childFieldName p.1)).getD [] ++ [p.2])) groups).entries,
        ∀ a ∈ p.2, a ∈ addresses := by
    induction pairs generalizing groups with
    | nil => exact hgroups
    | cons pair rest ih =>
      refine ih _ (fun p hp a ha => ?_) fun p hp => hpairs p (List.mem_cons_of_mem _ hp)
      rcases Entries.mem_insert hp with rfl | hp
      · rcases List.mem_append.mp ha with ha | ha
        · cases hold : groups.get? (e.childFieldName pair.1) with
          | none =>
            rw [hold] at ha
            cases ha
          | some old =>
            rw [hold] at ha
            exact hgroups _ (Entries.mem_of_get? hold) a ha
        · rw [List.mem_singleton.mp ha]
          exact hpairs pair List.mem_cons_self
      · exact hgroups p hp a ha
  refine general (e.children.zip addresses) .empty (fun p hp => nomatch hp) (fun p hp => ?_) _ h
  exact (List.of_mem_zip hp).2

theorem mem_links_fieldOf {targets : List Address} {a : Address} :
    a ∈ (fieldOf targets).toNode.links ↔ a ∈ targets := by
  unfold fieldOf
  split
  · rw [Shape.mem_links_field, List.mem_singleton]
  · rw [Shape.mem_links_field]

theorem mem_of_mem_links_shape {c : Encoder} {e : Element} {type : String}
    {addresses : List Address} {shape : Shape} (hshape : c.shapeOf e type addresses = .ok shape)
    {a : Address} (h : a ∈ shape.toNode.links) : a ∈ addresses := by
  unfold shapeOf at hshape
  split at hshape
  · cases hshape
    rw [Shape.links_of_leaf] at h
    cases h
  · split at hshape
    · cases hshape
    · cases hshape
      obtain ⟨entry, hentry, ha⟩ := Shape.exists_field_of_mem_links h
      obtain ⟨⟨field, targets⟩, hgroup, rfl⟩ := List.mem_map.mp hentry
      exact mem_of_mem_groupByField hgroup a (mem_links_fieldOf.mp ha)

end Encoder

theorem Context.links_toNode (context : Context) : context.toNode.links = [] := by
  refine List.eq_nil_iff_forall_not_mem.mpr fun a ha => ?_
  obtain ⟨e, he, ha⟩ := Node.mem_links_map.mp ha
  rcases List.mem_cons.mp (Entries.mem_of_mem_ofList he) with rfl | he
  · cases ha
  · rw [List.mem_singleton.mp he] at ha
    obtain ⟨term, hterm, ha⟩ := Node.mem_links_map.mp ha
    rw [Node.links_of_mem_mapValues_string hterm] at ha
    cases ha

theorem Object.tree_of_ofNode {n : Node} {o : Object} (h : Object.ofNode n = .ok o) :
    o.tree = n ∧ o.address = Address.derive .node n.encode ∧ o.data = n.encode := by
  unfold ofNode at h
  split at h
  · cases h
  · cases h
    exact ⟨rfl, rfl, rfl⟩

/-- Only a type that is no text keeps a tree from being an object. -/
theorem Object.exists_ofNode {n : Node} {type : Option String} (h : n.declaredType = .ok type) :
    ∃ o, ofNode n = .ok o ∧ o.declaredType = type := by
  unfold ofNode
  split
  · next hfail =>
    rw [h] at hfail
    cases hfail
  · next found hfound =>
    rw [h] at hfound
    exact ⟨_, rfl, (Except.ok.inj hfound).symm⟩

theorem Object.ofNode_of_untyped {n : Node} {e : StoreError} (h : n.declaredType = .error e) :
    ofNode n = .error e := by
  unfold ofNode
  split
  · next hfail =>
    rw [h] at hfail
    cases hfail
    rfl
  · next hfound =>
    rw [h] at hfound
    cases hfound

end ContentGraph
