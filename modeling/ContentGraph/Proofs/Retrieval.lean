import ContentGraph.Graph
import ContentGraph.Proofs.ElementPaths
import ContentGraph.Proofs.MatchingStore
import ContentGraph.Proofs.StoredObjects

/-! Everything that is encoded is found again: the path from the root to an element leads to its
object, and behind it stand the type, the text and the attributes of the element. -/

namespace ContentGraph

open Xml (Element)

/-- No field of the element hides another one, and none is the empty path. -/
structure Xml.Element.Findable (e : Element) : Prop where
  named : e.name ≠ ""
  attributesNamed : ∀ a ∈ e.attributes, a.name ≠ ""
  attributesFree : ∀ a ∈ e.attributes, a.fieldName ≠ typeField ∧ a.fieldName ≠ valueField
  attributesDistinct : (e.attributes.map Attribute.fieldName).Nodup
  childrenFree : ∀ child ∈ e.children,
    e.childFieldName child ≠ typeField ∧ e.childFieldName child ≠ valueField

namespace Xml

theorem qualifiedName_ne_empty (uri name : String) : qualifiedName uri name ≠ "" := by
  intro h
  have hlength := length_lt_qualifiedName uri name
  rw [h] at hlength
  exact Nat.not_lt_zero _ hlength

theorem Attribute.fieldName_ne_empty {a : Attribute} (h : a.name ≠ "") : a.fieldName ≠ "" := by
  unfold fieldName
  split
  · exact h
  · split
    · exact h
    · exact qualifiedName_ne_empty _ _

theorem Element.childFieldName_ne_empty {e child : Element} (h : child.name ≠ "") :
    e.childFieldName child ≠ "" := by
  unfold childFieldName fieldNameIn
  split
  · exact h
  · split
    · exact h
    · exact qualifiedName_ne_empty _ _

end Xml

namespace Graph

variable {g : Graph} {whole : List String} {hops : Nat} {tree : Node}

theorem follow_end {path : List String} {n : Node} (h : tree.descend path = some (n, [])) :
    (g.follow whole hops tree path).result = .ok n := by
  rw [follow, h]

theorem follow_missing {path : List String} (h : tree.descend path = none) :
    (g.follow whole hops tree path).result = .error (.pathNotFound whole) := by
  rw [follow, h]

theorem follow_link {path : List String} {a : Address} {segment : String} {rest : List String}
    {o : Object} (h : tree.descend path = some (.link a, segment :: rest)) (ho : g.fetch a = .ok o) :
    (g.follow whole (hops + 1) tree path).result =
      (g.follow whole hops o.tree (segment :: rest)).result := by
  rw [follow, h]
  simp only [ho]

end Graph

/-- What the graph answers for the path to an element, and for the paths that go on from it. -/
structure Graph.Finds (g : Graph) (c : Encoder) (path : List String) (e : Element) (o : Object) :
    Prop where
  element : g.get path = .ok (if path = [] then .object o else .value (.link o.address))
  type : ∃ type, c.resolve e.uri e.name = some type ∧
    g.get (path ++ [typeField]) = .ok (.value (.string type))
  value : g.get (path ++ [valueField]) = match c.storedValue? e with
    | some n => .ok (.value n)
    | none => .error (.pathNotFound (path ++ [valueField]))
  attributes : ∀ a ∈ e.attributes, g.get (path ++ [a.fieldName]) = .ok (.value (.string a.value))

/-- The address that an element comes to when it is encoded by itself. -/
def Encoder.addressOf (c : Encoder) (e : Element) : Except EncodeError Address :=
  (c.encode (fun _ s => (.ok (), s)) e ()).1

namespace Encoder

variable {c : Encoder} {held : Element → Object → Prop}

theorem StoredAs.holds {e : Element} {o : Object} (h : StoredAs c held e o) : held e o := by
  cases h
  assumption

/-- The path to an element below leads over links to its object. -/
theorem StoredAs.follow_leads {g : Graph}
    (hfetch : ∀ e o, held e o → g.fetch o.address = .ok o ∧ o.tree.Sized) {e target : Element}
    {path : List String} (hpath : e.Leads path target) {o : Object} (ho : StoredAs c held e o)
    (hfindable : ∀ path below, e.Leads path below → below.Findable) {hops : Nat}
    (hhops : e.height ≤ hops) :
    ∃ o', StoredAs c held target o' ∧
      ((path = [] ∧ o' = o) ∨ path ≠ [] ∧ ∀ whole,
        (g.follow whole hops o.tree path).result = .ok (.link o'.address)) ∧
      ∀ segment, ∃ left, ∀ whole, (g.follow whole hops o.tree (path ++ [segment])).result =
        (g.follow whole left o'.tree [segment]).result := by
  induction hpath generalizing o hops with
  | here => exact ⟨o, ho, .inl ⟨rfl, rfl⟩, fun _ => ⟨hops, fun _ => rfl⟩⟩
  | @child e child target i path hchild hpath ih =>
    cases ho with
    | @intro _ type objects shape _ htype hlength hchildren hshape hobject hheld =>
      obtain ⟨next, hnext⟩ : ∃ next, objects[i]? = some next := by
        have hi := (List.getElem?_eq_some_iff.mp hchild).1
        exact ⟨_, List.getElem?_eq_getElem (hlength ▸ hi)⟩
      have hstored := hchildren i child next hchild hnext
      have hmem := List.mem_of_getElem? hchild
      have hfree := (hfindable [] e .here).childrenFree child hmem
      have htree := (Object.tree_of_ofNode hobject).1
      have hsized := (hfetch _ _ hheld).2
      rw [htree] at hsized ⊢
      have hlink := descend_segmentsTo hshape hsized (by rwa [List.length_map]) hchild
        (by rw [List.getElem?_map, hnext, Option.map_some]) hfree.1 hfree.2
      have hlower := Xml.Element.height_lt_of_mem hmem
      obtain ⟨hops, rfl⟩ : ∃ less, hops = less + 1 := ⟨hops - 1, by omega⟩
      have hless : child.height ≤ hops := by omega
      obtain ⟨o', ho', hend, hbehind⟩ := ih hstored
        (fun path below h => hfindable _ below (.child hchild h)) hless
      have hfetched := (hfetch _ _ hstored.holds).1
      refine ⟨o', ho', .inr ⟨?_, fun whole => ?_⟩, fun segment => ?_⟩
      · obtain ⟨rest, hrest⟩ := e.segmentsTo_eq_cons i child
        rw [hrest]
        exact List.cons_ne_nil _ _
      · rcases hend with ⟨rfl, rfl⟩ | ⟨hne, hend⟩
        · exact Graph.follow_end (hlink [])
        · obtain ⟨segment, rest, rfl⟩ := List.exists_cons_of_ne_nil hne
          rw [Graph.follow_link (hlink _) hfetched, hend]
      · obtain ⟨left, hleft⟩ := hbehind segment
        refine ⟨left, fun whole => ?_⟩
        rw [List.append_assoc]
        obtain ⟨first, rest, hcons⟩ := List.exists_cons_of_ne_nil
          (List.append_ne_nil_of_right_ne_nil path (List.cons_ne_nil segment []))
        rw [hcons] at hleft ⊢
        rw [Graph.follow_link (hlink _) hfetched, hleft]

end Encoder

theorem Xml.Element.Leads.ne_empty_segment {e target : Element} {path : List String}
    (h : e.Leads path target) (hfindable : ∀ path below, e.Leads path below → below.Findable) :
    path ≠ [""] := by
  cases h with
  | here => exact nofun
  | @child _ child _ i _ hchild _ =>
    obtain ⟨rest, hrest⟩ := e.segmentsTo_eq_cons i child
    rw [hrest, List.cons_append]
    intro hpath
    have hnamed := (hfindable _ child (.child hchild .here)).named
    exact Element.childFieldName_ne_empty hnamed (List.cons.inj hpath).1

theorem Graph.get_eq {g : Graph} {path : List String} (hnil : path ≠ []) (hempty : path ≠ [""]) :
    g.get path = .value <$> (g.follow path g.config.maxHops g.root.tree path).result := by
  have hroot : isRootPath path = false := by simp [isRootPath, hnil, hempty]
  rw [get, traceGet, hroot]
  rfl

theorem append_singleton_ne_empty_segment {path : List String} {segment : String}
    (h : segment ≠ "") : path ++ [segment] ≠ [""] := by
  cases path with
  | nil => simpa using h
  | cons first rest => simp

namespace Encoder

theorem resolve_of_typeOf {c : Encoder} {e : Element} {type : String} (h : c.typeOf e = .ok type) :
    c.resolve e.uri e.name = some type := by
  unfold typeOf at h
  split at h
  · next hresolve =>
    cases h
    exact hresolve
  · cases h

theorem follow_field {g : Graph} {whole : List String} {hops : Nat} (shape : Shape)
    (segment : String) :
    (g.follow whole hops shape.toNode [segment]).result =
      match shape.toNode.child? segment with
      | some n => .ok n
      | none => .error (.pathNotFound whole) := by
  cases hchild : shape.toNode.child? segment with
  | some n =>
    refine Graph.follow_end ?_
    rw [Node.descend_of_child? [] rfl hchild, Node.descend]
  | none =>
    refine Graph.follow_missing ?_
    rw [Node.descend, hchild]
    rfl

theorem StoredAs.finds {c : Encoder} {held : Element → Object → Prop} {g : Graph}
    (hfetch : ∀ e o, held e o → g.fetch o.address = .ok o ∧ o.tree.Sized) {root e : Element}
    {path : List String} (hpath : root.Leads path e) (hroot : StoredAs c held root g.root)
    (hfindable : ∀ path below, root.Leads path below → below.Findable)
    (hhops : root.height ≤ g.config.maxHops) :
    ∃ o, held e o ∧ g.Finds c path e o := by
  obtain ⟨o, ho, hend, hbehind⟩ := hroot.follow_leads hfetch hpath hfindable hhops
  obtain ⟨type, _, shape, -, htype, hshape, htree⟩ := ho.exists_children
  have hfound := hfindable path e hpath
  have hget (segment : String) (hsegment : segment ≠ "") :
      g.get (path ++ [segment]) = match shape.toNode.child? segment with
        | some n => .ok (.value n)
        | none => .error (.pathNotFound (path ++ [segment])) := by
    obtain ⟨left, hleft⟩ := hbehind segment
    rw [Graph.get_eq (List.append_ne_nil_of_right_ne_nil _ (List.cons_ne_nil _ _))
      (append_singleton_ne_empty_segment hsegment), hleft, htree, follow_field]
    cases shape.toNode.child? segment <;> rfl
  refine ⟨o, ho.holds, ?_, ⟨type, resolve_of_typeOf htype, ?_⟩, ?_, fun a ha => ?_⟩
  · rcases hend with ⟨rfl, rfl⟩ | ⟨hne, hend⟩
    · rfl
    · rw [Graph.get_eq hne (hpath.ne_empty_segment hfindable), hend, if_neg hne]
      rfl
  · rw [hget _ (by decide), child?_type hshape]
  · rw [hget _ (by decide), child?_value hshape (fun a ha => (hfound.attributesFree a ha).2)
      fun child hchild => (hfound.childrenFree child hchild).2]
  · have hfree := hfound.attributesFree a ha
    have hown : c.ownNode? e type a.fieldName = none :=
      (ownNode?_eq_none_iff type).mpr ⟨hfree.1, fun hvalue => absurd hvalue hfree.2⟩
    rw [hget _ (Xml.Attribute.fieldName_ne_empty (hfound.attributesNamed a ha)),
      child?_of_attribute hshape (get?_attributesOf hfound.attributesDistinct ha), hown, Option.none_or]

theorem canonical_of_shape {shape : Shape} {o : Object} (hobject : Object.ofNode shape.toNode = .ok o)
    (hlength : o.data.length < lengthLimit) : Node.Canonical o.data o.tree := by
  obtain ⟨htree, -, hdata⟩ := Object.tree_of_ofNode hobject
  have hsized : o.tree.Sized := by
    refine Node.sized_of_length_encode_lt ?_
    rwa [htree, ← hdata]
  have hshallow : o.tree.nesting ≤ Node.maxDepth :=
    htree ▸ Nat.le_trans shape.nesting_toNode_le (by decide)
  exact ⟨o.encoded.symm, htree ▸ shape.ordered_toNode, hsized, hshallow⟩

/-- The object is fetched from the store, and is what the element by itself is encoded to. -/
def Kept (c : Encoder) (store : MemoryStore) (e : Element) (o : Object) : Prop :=
  c.addressOf e = .ok o.address ∧ Store.get store o.address = .ok o ∧ o.tree.Sized

theorem StoredAs.keep {c : Encoder} {calls : List PutCall} {store last : MemoryStore} {root : Element}
    {o : Object} (h : StoredAs c (HandedOver c calls) root o)
    (hreplay : Replays Store.put store calls last) (hmatches : store.Matches)
    (hseparates : Separates (store.Involved calls))
    (hlength : ∀ o, .stored o ∈ calls → o.data.length < lengthLimit) :
    StoredAs c (Kept c last) root o := by
  induction h with
  | @intro e type objects shape o htype hcount _ hshape hobject hheld ih =>
    refine .intro htype hcount ih hshape hobject ?_
    obtain ⟨hcall, depth, own, hdepth, hrun⟩ := hheld
    have hcanonical := canonical_of_shape hobject (hlength o hcall)
    exact ⟨hrun.encodeElement_ok (fun _ _ => rfl) o.address rfl 1 hdepth (),
      MemoryStore.get_of_stored hreplay hmatches hseparates hcall hcanonical, hcanonical.sized⟩

/-- Whatever a document holds is found in the store that it was encoded to: by any run, and the
encoder's own is one. That no two of the byte strings share an address is what the hash function is
trusted with, and that none reaches the length limit is what memory sees to. -/
theorem encoded_is_found :
    (∀ (c : Encoder) (root : Element) (store last : MemoryStore) (calls : List PutCall) (r : Address),
      c.ElementRun 1 root calls (.ok r) → Replays Store.put store calls last →
      (∀ path e, root.Leads path e → e.Findable) → store.Matches →
      Separates (store.Involved calls) →
      (∀ o, .stored o ∈ calls → o.data.length < lengthLimit) → ∀ hops ≥ root.height,
      ∃ g, Graph.open (Store.get last) r = .ok g ∧ ∀ path e, root.Leads path e →
        ∃ o, c.addressOf e = .ok o.address ∧ Store.get last o.address = .ok o ∧
          Graph.Finds { g with config := ⟨hops⟩ } c path e o) ∧
    ∀ (c : Encoder) (root : Element) (store last : MemoryStore) (r : Address),
      c.encode Store.put root store = (.ok r, last) →
      ∃ calls, c.ElementRun 1 root calls (.ok r) ∧ Replays Store.put store calls last := by
  constructor
  · intro c root store last calls r hrun hreplay hfindable hmatches hseparates hlength hops hhops
    obtain ⟨o, rfl, hstored⟩ := hrun.exists_storedAs (Nat.le_refl 1) r rfl
    have hkept := hstored.keep hreplay hmatches hseparates hlength
    have hopen : Graph.open (Store.get last) o.address = .ok { fetch := Store.get last, root := o } := by
      rw [Graph.open, hkept.holds.2.1]
    refine ⟨_, hopen, fun path e hpath => ?_⟩
    obtain ⟨o', hkept', hfinds⟩ := StoredAs.finds (g := ⟨Store.get last, o, ⟨hops⟩⟩)
      (fun _ _ h => h.2) hpath hkept hfindable hhops
    exact ⟨o', hkept'.1, hkept'.2.1, hfinds⟩
  · intro c root store last r hencode
    obtain ⟨calls, hrun, hreplay⟩ := exists_elementRun Store.put c 1 root store
    rw [show encodeElement c Store.put 1 root store = _ from hencode] at hrun hreplay
    exact ⟨calls, hrun, hreplay⟩

def smallLeaf : Element :=
  ⟨none, "b", [], [], ["x"]⟩

def smallDocument : Element :=
  ⟨none, "a", [⟨none, "k", "v"⟩], [smallLeaf], ["", ""]⟩

def smallEncoder : Encoder :=
  ⟨fun _ _ => some "Title", {}⟩

def smallLeafShape : Shape :=
  .leaf "Title" "x" (attributesOf smallLeaf)

def smallShape : Shape :=
  .composite "Title" (attributesOf smallDocument)
    ((groupByField smallDocument [Address.derive .node smallLeafShape.toNode.encode]).mapValues
      fieldOf) []

def smallLeafObject : Object :=
  ⟨Block.ofData .node smallLeafShape.toNode.encode, smallLeafShape.toNode, some "Title", rfl, rfl, rfl⟩

def smallObject : Object :=
  ⟨Block.ofData .node smallShape.toNode.encode, smallShape.toNode, some "Title", rfl, rfl, rfl⟩

theorem smallDocument_findable {path : List String} {e : Element}
    (h : smallDocument.Leads path e) : e.Findable := by
  cases h with
  | here => constructor <;> decide
  | @child _ _ _ i _ hchild hpath =>
    cases i with
    | zero =>
      cases hchild
      cases hpath with
      | here => constructor <;> decide
      | child hchild => cases hchild
    | succ i => cases hchild

theorem smallObjects_apart : smallLeafObject.address ≠ smallObject.address := by
  decide +kernel

def smallCalls : List PutCall :=
  [.stored smallLeafObject, .stored smallObject]

theorem smallDocument_run : smallEncoder.ElementRun 1 smallDocument smallCalls
    (.ok smallObject.address) := by
  have hleaf : smallEncoder.ElementRun 2 smallLeaf [.stored smallLeafObject]
      (.ok smallLeafObject.address) :=
    @ElementRun.of_childless _ 2 smallLeaf "Title" smallLeafShape _ rfl (by decide) rfl rfl rfl
  exact @ElementRun.built _ 1 smallDocument "Title" [.stored smallLeafObject] _
    [smallLeafObject.address] _ (by decide) rfl (.run hleaf .nil (.left .nil))
    (@ShapeRun.stored _ smallShape _ rfl rfl)

theorem eq_of_stored_mem_smallCalls {o : Object} (h : .stored o ∈ smallCalls) :
    o = smallLeafObject ∨ o = smallObject := by
  rcases List.mem_cons.mp h with h | h
  · exact .inl (PutCall.stored.inj h)
  · exact .inr (PutCall.stored.inj (List.mem_singleton.mp h))

theorem smallCalls_short {o : Object} (h : .stored o ∈ smallCalls) : o.data.length < lengthLimit := by
  rcases eq_of_stored_mem_smallCalls h with rfl | rfl
  · decide +kernel
  · decide +kernel

theorem smallCalls_separate : Separates (MemoryStore.empty.Involved smallCalls) := by
  have hdata {x : Bytes} (hx : MemoryStore.empty.Involved smallCalls x) :
      x = smallLeafObject.data ∨ x = smallObject.data := by
    rcases hx with ⟨key, hkey⟩ | ⟨o, ho, rfl⟩
    · cases hkey
    · exact (eq_of_stored_mem_smallCalls ho).imp (congrArg Object.data) (congrArg Object.data)
  intro x y hx hy hsame
  rcases hdata hx with rfl | rfl <;> rcases hdata hy with rfl | rfl
  · rfl
  · exact absurd hsame smallObjects_apart
  · exact absurd hsame.symm smallObjects_apart
  · rfl

theorem encoded_is_found_in_small_document :
    (∃ (last : MemoryStore) (g : Graph) (o : Object),
      Replays Store.put MemoryStore.empty smallCalls last ∧
        Graph.open (Store.get last) smallObject.address = .ok g ∧
          Graph.Finds { g with config := ⟨2⟩ } smallEncoder ["b"] smallLeaf o) ∧
      ∃ calls, smallEncoder.ElementRun 1 smallDocument calls (.ok smallObject.address) ∧
        Replays Store.put MemoryStore.empty calls
          (smallEncoder.encode Store.put smallDocument .empty).2 := by
  obtain ⟨last, hreplay⟩ : ∃ last, Replays Store.put MemoryStore.empty smallCalls last :=
    ⟨_, .stored rfl (.stored rfl .nil)⟩
  have hmatches : MemoryStore.empty.Matches := fun _ _ h => nomatch h
  obtain ⟨g, hopen, hfinds⟩ := encoded_is_found.1 smallEncoder smallDocument .empty _ _ _
    smallDocument_run hreplay (fun _ _ => smallDocument_findable) hmatches smallCalls_separate
    (fun _ => smallCalls_short) 2 (by decide)
  have hpath : smallDocument.Leads (smallDocument.segmentsTo 0 smallLeaf ++ []) smallLeaf :=
    .child rfl .here
  obtain ⟨o, -, -, ho⟩ := hfinds ["b"] smallLeaf hpath
  have hanswer : (smallEncoder.encode Store.put smallDocument MemoryStore.empty).1 =
      .ok smallObject.address :=
    smallDocument_run.encodeElement_ok (fun _ _ => rfl) _ rfl 1 (Nat.le_refl 1) _
  have hpair (p : Except EncodeError Address × MemoryStore) (h : p.1 = .ok smallObject.address) :
      p = (.ok smallObject.address, p.2) := Prod.ext h rfl
  exact ⟨⟨last, g, o, hreplay, hopen, ho⟩,
    encoded_is_found.2 smallEncoder smallDocument .empty _ _ (hpair _ hanswer)⟩

end Encoder

end ContentGraph
