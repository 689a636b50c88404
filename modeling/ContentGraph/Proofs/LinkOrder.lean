import ContentGraph.Proofs.AddressForms
import ContentGraph.Proofs.EncodingRuns
import ContentGraph.Proofs.Links
import ContentGraph.Store.Memory

/-! Links point back in time: in a memory store that is filled by encoding documents and publishing
contexts, every link of an object names an entry that was there before the object. The objects
inserted so far are remembered in their order, which no part of the program looks at. -/

namespace ContentGraph

open Xml (Element)

/-- The addresses of the objects that are stored by calls. -/
def storedIn : List PutCall → List Address
  | [] => []
  | .stored o :: rest => o.address :: storedIn rest
  | .refused _ _ :: rest => storedIn rest

/-- Objects are stored only behind what they link to. -/
def LinksBefore (earlier : List Address) : List PutCall → Prop
  | [] => True
  | .stored o :: rest =>
    (∀ a ∈ o.tree.links, a ∈ earlier) ∧ LinksBefore (o.address :: earlier) rest
  | .refused _ _ :: rest => LinksBefore earlier rest

theorem storedIn_append (calls later : List PutCall) :
    storedIn (calls ++ later) = storedIn calls ++ storedIn later := by
  induction calls with
  | nil => rfl
  | cons call rest ih => cases call <;> simp [storedIn, ih]

theorem storedIn_map (objects : List Object) :
    storedIn (objects.map .stored) = objects.map Object.address := by
  induction objects with
  | nil => rfl
  | cons o rest ih => simp [storedIn, ih]

theorem mem_storedIn_shuffle {calls later all : List PutCall} (h : Shuffle calls later all)
    {a : Address} : a ∈ storedIn all ↔ a ∈ storedIn calls ∨ a ∈ storedIn later := by
  induction h with
  | nil => simp [storedIn]
  | @left call _ _ _ _ ih => cases call <;> simp [storedIn, ih, or_assoc]
  | @right call _ _ _ _ ih => cases call <;> simp [storedIn, ih, or_left_comm]

namespace LinksBefore

variable {earlier more : List Address} {calls later all : List PutCall}

theorem mono (h : LinksBefore earlier calls) (hmore : ∀ a ∈ earlier, a ∈ more) :
    LinksBefore more calls := by
  induction calls generalizing earlier more with
  | nil => trivial
  | cons call rest ih =>
    cases call with
    | stored o =>
      refine ⟨fun a ha => hmore a (h.1 a ha), ih h.2 fun a ha => ?_⟩
      rcases List.mem_cons.mp ha with rfl | ha
      · exact List.mem_cons_self
      · exact List.mem_cons_of_mem _ (hmore a ha)
    | refused o cause => exact ih h hmore

theorem append (h : LinksBefore earlier calls) (hlater : LinksBefore (storedIn calls ++ earlier) later) :
    LinksBefore earlier (calls ++ later) := by
  induction calls generalizing earlier with
  | nil => exact hlater
  | cons call rest ih =>
    cases call with
    | stored o =>
      refine ⟨h.1, ih h.2 (hlater.mono fun a ha => ?_)⟩
      simp only [storedIn, List.cons_append, List.mem_cons, List.mem_append] at ha ⊢
      exact or_left_comm.mp ha
    | refused o cause => exact ih h hlater

theorem of_append (h : LinksBefore earlier (calls ++ later)) :
    LinksBefore (storedIn calls ++ earlier) later := by
  induction calls generalizing earlier with
  | nil => exact h
  | cons call rest ih =>
    cases call with
    | stored o =>
      refine (ih h.2).mono fun a ha => ?_
      simp only [storedIn, List.cons_append, List.mem_cons, List.mem_append] at ha ⊢
      exact or_left_comm.mp ha
    | refused o cause => exact ih h

theorem take (h : LinksBefore earlier calls) (n : Nat) : LinksBefore earlier (calls.take n) := by
  induction calls generalizing earlier n with
  | nil => rwa [List.take_nil]
  | cons call rest ih =>
    cases n with
    | zero => trivial
    | succ n =>
      cases call with
      | stored o => exact ⟨h.1, ih h.2 n⟩
      | refused o cause => exact ih h n

theorem shuffle (h : LinksBefore earlier calls) (hlater : LinksBefore earlier later)
    (hshuffle : Shuffle calls later all) : LinksBefore earlier all := by
  induction hshuffle generalizing earlier with
  | nil => trivial
  | @left call _ _ _ _ ih =>
    cases call with
    | stored o => exact ⟨h.1, ih h.2 (hlater.mono fun a => List.mem_cons_of_mem _)⟩
    | refused o cause => exact ih h hlater
  | @right call _ _ _ _ ih =>
    cases call with
    | stored o => exact ⟨hlater.1, ih (h.mono fun a => List.mem_cons_of_mem _) hlater.2⟩
    | refused o cause => exact ih h hlater

/-- What is linked to has itself been stored. -/
theorem mem_storedIn_of_link (h : LinksBefore [] calls) {o : Object} (ho : .stored o ∈ calls)
    {a : Address} (ha : a ∈ o.tree.links) : a ∈ storedIn calls := by
  obtain ⟨front, back, rfl⟩ := List.append_of_mem ho
  have hlinks := h.of_append.1 a ha
  rw [List.append_nil] at hlinks
  rw [storedIn_append]
  exact List.mem_append_left _ hlinks

end LinksBefore

namespace Encoder

theorem ShapeRun.linksBefore {c : Encoder} {e : Element} {type : String} {addresses : List Address}
    {own : List PutCall} {outcome : Except EncodeError Address}
    (h : ShapeRun (c.shapeOf e type addresses) own outcome) :
    LinksBefore addresses own ∧ ∀ a, outcome = .ok a → a ∈ storedIn own := by
  cases h with
  | conflict => exact ⟨trivial, nofun⟩
  | unbuilt => exact ⟨trivial, nofun⟩
  | refused => exact ⟨trivial, nofun⟩
  | stored hshape hobject =>
    refine ⟨⟨fun a ha => ?_, trivial⟩, fun a ha => ?_⟩
    · rw [(Object.tree_of_ofNode hobject).1] at ha
      exact mem_of_mem_links_shape hshape ha
    · cases ha
      exact List.mem_cons_self

mutual

theorem ElementRun.linksBefore {c : Encoder} {depth : Nat} {e : Element} {calls : List PutCall}
    {outcome : Except EncodeError Address} :
    ElementRun c depth e calls outcome →
      LinksBefore [] calls ∧ ∀ a, outcome = .ok a → a ∈ storedIn calls
  | .tooDeep _ => ⟨trivial, nofun⟩
  | .untyped _ _ => ⟨trivial, nofun⟩
  | .childFailed _ _ hchildren _ => ⟨hchildren.linksBefore.1, nofun⟩
  | .built _ _ hchildren hshape => by
    obtain ⟨hcalls, hresults⟩ := hchildren.linksBefore
    obtain ⟨hown, haddress⟩ := hshape.linksBefore
    refine ⟨hcalls.append (hown.mono fun a ha => ?_), fun a ha => ?_⟩
    · exact List.mem_append_left _ (hresults a (List.mem_map.mpr ⟨a, ha, rfl⟩))
    · rw [storedIn_append]
      exact List.mem_append_right _ (haddress a ha)

theorem ChildrenRun.linksBefore {c : Encoder} {depth : Nat} {children : List Element}
    {calls : List PutCall} {results : List (Option (Except EncodeError Address))} :
    ChildrenRun c depth children calls results →
      LinksBefore [] calls ∧ ∀ a, some (.ok a) ∈ results → a ∈ storedIn calls
  | .nil => ⟨trivial, nofun⟩
  | .run hchild hrest hshuffle => by
    obtain ⟨hcalls, haddress⟩ := hchild.linksBefore
    obtain ⟨hlater, hresults⟩ := hrest.linksBefore
    refine ⟨hcalls.shuffle hlater hshuffle, fun a ha => (mem_storedIn_shuffle hshuffle).mpr ?_⟩
    rcases List.mem_cons.mp ha with ha | ha
    · exact .inl (haddress a (Option.some.inj ha).symm)
    · exact .inr (hresults a ha)
  | .skipped hrest => by
    obtain ⟨hcalls, hresults⟩ := hrest.linksBefore
    refine ⟨hcalls, fun a ha => ?_⟩
    rcases List.mem_cons.mp ha with ha | ha
    · cases ha
    · exact hresults a ha

end

end Encoder

/-- A store, and the objects that have been inserted into it, the first of them first. -/
structure Moment where
  store : MemoryStore
  inserted : List Object

namespace Moment

def empty : Moment := ⟨.empty, []⟩

/-- Only an object that finds no entry under its address is inserted. -/
def put (m : Moment) (o : Object) : Moment where
  store := (Store.put o m.store).2
  inserted := if m.store.table.contains o.address.text then m.inserted else m.inserted ++ [o]

def after (m : Moment) (calls : List PutCall) : Moment :=
  calls.foldl (fun m call => match call with
    | .stored o => m.put o
    | .refused _ _ => m) m

/-- Where documents have been encoded and contexts published, one after the other, each of them up
to any of its calls. -/
inductive Reachable : Moment → Prop
  | empty : Reachable empty
  | encode {m : Moment} {c : Encoder} {root : Element} {calls : List PutCall}
    {outcome : Except EncodeError Address} (h : Reachable m)
    (hrun : c.ElementRun 1 root calls outcome) (n : Nat) : Reachable (m.after (calls.take n))
  | publish {m : Moment} {context : Context} {o : Object} (h : Reachable m)
    (hobject : context.toObject = .ok o) : Reachable (m.put o)

def Holds (m : Moment) (a : Address) : Prop :=
  ∃ o ∈ m.inserted, o.address = a

/-- The entries are the inserted objects, and each links to objects inserted before it. -/
structure PointsBack (m : Moment) : Prop where
  entries : ∀ (key : String) (data : Bytes), m.store.table.get? key = some data ↔
    ∃ o ∈ m.inserted, o.address.text = key ∧ o.data = data
  once : (m.inserted.map Object.address).Nodup
  linked : ∀ (i : Nat) (o : Object), m.inserted[i]? = some o → ∀ a ∈ o.tree.links,
    ∃ j < i, ∃ target : Object, m.inserted[j]? = some target ∧ target.address = a

theorem pointsBack_empty : PointsBack empty where
  entries key data := by simp [empty, MemoryStore.empty, Table.empty, Table.get?, Entries.get?]
  once := List.nodup_nil
  linked i o h := by simp [empty] at h

theorem PointsBack.contains_iff {m : Moment} (h : m.PointsBack) {a : Address} :
    m.store.table.contains a.text = true ↔ m.Holds a := by
  rw [Table.contains, Option.isSome_iff_exists]
  constructor
  · rintro ⟨data, hdata⟩
    obtain ⟨o, ho, htext, -⟩ := (h.entries _ _).mp hdata
    exact ⟨o, ho, Address.text_injective htext⟩
  · rintro ⟨o, ho, rfl⟩
    exact ⟨o.data, (h.entries _ _).mpr ⟨o, ho, rfl, rfl⟩⟩

theorem put_of_contains {m : Moment} {o : Object}
    (h : m.store.table.contains o.address.text = true) : m.put o = m := by
  have hstore : (Store.put o m.store).2 = m.store := if_pos h
  rw [put, hstore, if_pos h]

theorem put_of_not_contains {m : Moment} {o : Object}
    (h : ¬m.store.table.contains o.address.text = true) :
    m.put o = ⟨⟨m.store.table.insert o.address.text o.data⟩, m.inserted ++ [o]⟩ := by
  have hstore : (Store.put o m.store).2 = ⟨m.store.table.insert o.address.text o.data⟩ := if_neg h
  rw [put, hstore, if_neg h]

theorem holds_put {m : Moment} {o : Object} (h : m.PointsBack) {a : Address} :
    (m.put o).Holds a ↔ m.Holds a ∨ a = o.address := by
  by_cases hkey : m.store.table.contains o.address.text = true
  · rw [put_of_contains hkey]
    refine ⟨.inl, fun ha => ha.elim id fun ha => ?_⟩
    rw [ha]
    exact h.contains_iff.mp hkey
  · rw [put_of_not_contains hkey]
    simp only [Holds, List.mem_append, List.mem_singleton, or_and_right, exists_or,
      exists_eq_left]
    rw [eq_comm (a := a)]

namespace PointsBack

variable {m : Moment} {o : Object}

theorem entries_concat (h : m.PointsBack) (hnew : ¬m.Holds o.address) (key : String) (data : Bytes) :
    (m.store.table.insert o.address.text o.data).get? key = some data ↔
      ∃ o' ∈ m.inserted ++ [o], o'.address.text = key ∧ o'.data = data := by
  rw [Table.get?_insert]
  by_cases hsame : key = o.address.text
  · subst hsame
    rw [if_pos rfl]
    constructor
    · intro hdata
      exact ⟨o, List.mem_append_right _ (List.mem_singleton_self o), rfl, Option.some.inj hdata⟩
    · rintro ⟨o', ho', htext, rfl⟩
      rcases List.mem_append.mp ho' with ho' | ho'
      · exact absurd ⟨o', ho', Address.text_injective htext⟩ hnew
      · rw [List.mem_singleton.mp ho']
  · rw [if_neg hsame, h.entries]
    constructor
    · rintro ⟨o', ho', htext, hdata⟩
      exact ⟨o', List.mem_append_left _ ho', htext, hdata⟩
    · rintro ⟨o', ho', htext, hdata⟩
      rcases List.mem_append.mp ho' with ho' | ho'
      · exact ⟨o', ho', htext, hdata⟩
      · rw [List.mem_singleton.mp ho'] at htext
        exact absurd htext.symm hsame

theorem once_concat (h : m.PointsBack) (hnew : ¬m.Holds o.address) :
    ((m.inserted ++ [o]).map Object.address).Nodup := by
  rw [List.map_append, List.nodup_append]
  refine ⟨h.once, by simp, fun a ha b hb hab => hnew ?_⟩
  obtain ⟨o', ho', rfl⟩ := List.mem_map.mp ha
  exact ⟨o', ho', hab.trans (List.mem_singleton.mp hb)⟩

theorem linked_concat (h : m.PointsBack) (hlinks : ∀ a ∈ o.tree.links, m.Holds a) {i : Nat}
    {o' : Object} (hi : (m.inserted ++ [o])[i]? = some o') {a : Address} (ha : a ∈ o'.tree.links) :
    ∃ j < i, ∃ target : Object, (m.inserted ++ [o])[j]? = some target ∧ target.address = a := by
  have hlt : i < (m.inserted ++ [o]).length := (List.getElem?_eq_some_iff.mp hi).1
  rw [List.length_append, List.length_singleton] at hlt
  by_cases hold : i < m.inserted.length
  · rw [List.getElem?_append_left hold] at hi
    obtain ⟨j, hj, target, htarget, haddress⟩ := h.linked i o' hi a ha
    exact ⟨j, hj, target, by rwa [List.getElem?_append_left (Nat.lt_trans hj hold)], haddress⟩
  · obtain rfl : i = m.inserted.length := by omega
    rw [List.getElem?_concat_length] at hi
    cases hi
    obtain ⟨target, htarget, haddress⟩ := hlinks a ha
    obtain ⟨j, hj, hget⟩ := List.getElem_of_mem htarget
    refine ⟨j, hj, target, ?_, haddress⟩
    rw [List.getElem?_append_left hj, List.getElem?_eq_getElem hj, hget]

/-- What is put links only to what is there. -/
theorem put (h : m.PointsBack) (hlinks : ∀ a ∈ o.tree.links, m.Holds a) : (m.put o).PointsBack := by
  by_cases hkey : m.store.table.contains o.address.text = true
  · rwa [put_of_contains hkey]
  · have hnew : ¬m.Holds o.address := fun hold => hkey (h.contains_iff.mpr hold)
    rw [put_of_not_contains hkey]
    exact ⟨h.entries_concat hnew, h.once_concat hnew, fun _ _ hi _ ha => h.linked_concat hlinks hi ha⟩

end PointsBack

/-- A run of calls, from any moment at which what was stored before the run is held. -/
theorem PointsBack.after {m : Moment} (h : m.PointsBack) {earlier : List Address}
    {calls : List PutCall} (hearlier : ∀ a ∈ earlier, m.Holds a)
    (hcalls : LinksBefore earlier calls) : (m.after calls).PointsBack := by
  induction calls generalizing m earlier with
  | nil => exact h
  | cons call rest ih =>
    cases call with
    | stored o =>
      refine ih (h.put fun a ha => hearlier a (hcalls.1 a ha)) (fun a ha => ?_) hcalls.2
      rcases List.mem_cons.mp ha with rfl | ha
      · exact (holds_put h).mpr (.inr rfl)
      · exact (holds_put h).mpr (.inl (hearlier a ha))
    | refused o cause => exact ih h hearlier hcalls

theorem Reachable.pointsBack {m : Moment} (h : Reachable m) : m.PointsBack := by
  induction h with
  | empty => exact pointsBack_empty
  | encode _ hrun n ih => exact ih.after (List.forall_mem_nil _) (hrun.linksBefore.1.take n)
  | publish _ hobject ih =>
    refine ih.put fun a ha => ?_
    rw [(Object.tree_of_ofNode hobject).1, Context.links_toNode] at ha
    cases ha

/-- One stored object links to another one. -/
def LinksTo (m : Moment) (a b : Address) : Prop :=
  ∃ o ∈ m.inserted, o.address = a ∧ b ∈ o.tree.links

theorem PointsBack.index_unique {m : Moment} (h : m.PointsBack) {i j : Nat} {o target : Object}
    (hi : m.inserted[i]? = some o) (hj : m.inserted[j]? = some target)
    (haddress : o.address = target.address) : i = j := by
  have hbound : i < (m.inserted.map Object.address).length := by
    rw [List.length_map]
    exact (List.getElem?_eq_some_iff.mp hi).1
  refine (List.getElem?_inj hbound h.once).mp ?_
  rw [List.getElem?_map, List.getElem?_map, hi, hj, Option.map_some, Option.map_some, haddress]

/-- The time of insertion falls along links. -/
theorem PointsBack.index_lt {m : Moment} (h : m.PointsBack) {a b : Address}
    (hlinks : Relation.TransGen m.LinksTo a b) :
    ∃ (i j : Nat) (o target : Object), j < i ∧ m.inserted[i]? = some o ∧ o.address = a ∧
      m.inserted[j]? = some target ∧ target.address = b := by
  induction hlinks with
  | single hlink =>
    obtain ⟨o, ho, ha, hb⟩ := hlink
    obtain ⟨i, hi⟩ := List.getElem?_of_mem ho
    obtain ⟨j, hj, target, htarget, haddress⟩ := h.linked i o hi _ hb
    exact ⟨i, j, o, target, hj, hi, ha, htarget, haddress⟩
  | tail _ hlink ih =>
    obtain ⟨i, j, o, middle, hj, hi, ha, hmiddle, hb⟩ := ih
    obtain ⟨o', ho', hb', hc⟩ := hlink
    obtain ⟨k, hk⟩ := List.getElem?_of_mem ho'
    obtain rfl := h.index_unique hmiddle hk (hb.trans hb'.symm)
    obtain ⟨l, hl, target, htarget, haddress⟩ := h.linked j o' hk _ hc
    exact ⟨i, l, o, target, Nat.lt_trans hl hj, hi, ha, htarget, haddress⟩

theorem PointsBack.closed {m : Moment} (h : m.PointsBack) {a b : Address} (hlink : m.LinksTo a b) :
    m.store.table.contains b.text = true := by
  obtain ⟨_, _, _, target, -, -, -, htarget, hb⟩ := h.index_lt (.single hlink)
  exact h.contains_iff.mpr ⟨target, List.mem_of_getElem? htarget, hb⟩

theorem PointsBack.acyclic {m : Moment} (h : m.PointsBack) (a : Address) :
    ¬Relation.TransGen m.LinksTo a a := by
  intro hcycle
  obtain ⟨i, j, o, target, hj, hi, ha, htarget, ha'⟩ := h.index_lt hcycle
  exact absurd (h.index_unique htarget hi (ha'.trans ha.symm)) (Nat.ne_of_lt hj)

/-- The put fills the store of the moment that its state shows, or fails and leaves it alone. -/
structure FilledBy {σ : Type} (put : Put σ) (moment : σ → Moment) : Prop where
  stored : ∀ {o : Object} {s next : σ}, put o s = (.ok (), next) →
    moment next = (moment s).put o
  refused : ∀ {o : Object} {cause : StoreError} {s next : σ}, put o s = (.error cause, next) →
    moment next = moment s

theorem FilledBy.after_of_replays {σ : Type} {put : Put σ} {moment : σ → Moment}
    (h : FilledBy put moment) {s last : σ} {calls : List PutCall} (hcalls : Replays put s calls last) :
    moment last = (moment s).after calls := by
  induction hcalls with
  | nil => rfl
  | stored hput _ ih => rw [ih, h.stored hput]; rfl
  | refused hput _ ih => rw [ih, h.refused hput]; rfl

theorem Reachable.encode_put {σ : Type} {put : Put σ} {moment : σ → Moment}
    (h : FilledBy put moment) (c : Encoder) (root : Element) {s : σ} (hs : Reachable (moment s)) :
    Reachable (moment (c.encode put root s).2) := by
  obtain ⟨calls, hrun, hreplay⟩ := Encoder.exists_elementRun put c 1 root s
  have hafter := hs.encode hrun calls.length
  rwa [List.take_length, ← h.after_of_replays hreplay] at hafter

theorem Reachable.encodeDocument_put {σ : Type} {put : Put σ} {moment : σ → Moment}
    (h : FilledBy put moment) (c : Encoder) (data : Bytes) {s : σ} (hs : Reachable (moment s)) :
    Reachable (moment (c.encodeDocument put data s).2) := by
  unfold Encoder.encodeDocument
  cases Xml.parseDocument c.config.maxDepth data with
  | error cause => exact hs
  | ok root => exact hs.encode_put h c root

/-- Nothing that is stored links to what is not, or back to itself, at any moment of any runs, those
of the encoder with a put of its own among them. -/
theorem links_point_back :
    (∀ m : Moment, m.Reachable → m.PointsBack ∧
      (∀ a b, m.LinksTo a b → m.store.table.contains b.text = true) ∧
      ∀ a, ¬Relation.TransGen m.LinksTo a a) ∧
    ∀ (σ : Type) (put : Put σ) (moment : σ → Moment), FilledBy put moment →
      ∀ s, Reachable (moment s) →
        (∀ c root, Reachable (moment (Encoder.encode c put root s).2)) ∧
        ∀ c data, Reachable (moment (Encoder.encodeDocument c put data s).2) := by
  refine ⟨fun m hm => ?_, fun σ put moment h s hs => ?_⟩
  · have hback := hm.pointsBack
    exact ⟨hback, fun a b => hback.closed, hback.acyclic⟩
  · exact ⟨fun c root => hs.encode_put h c root, fun c data => hs.encodeDocument_put h c data⟩

theorem links_point_back_in_small_document :
    let c : Encoder := ⟨fun _ _ => some "Title", {}⟩
    let root : Element := ⟨none, "a", [], [⟨none, "b", [], [], ["x"]⟩], ["", ""]⟩
    let last := (c.encode (fun o m => (.ok (), Moment.put m o)) root empty).2
    last.PointsBack ∧ ∀ a, ¬Relation.TransGen last.LinksTo a a := by
  intro c root last
  have hfilled : FilledBy (fun o m => (.ok (), Moment.put m o)) id :=
    ⟨fun h => (Prod.mk.inj h).2.symm, fun h => nomatch (Prod.mk.inj h).1⟩
  have hlast := (links_point_back.2 Moment _ id hfilled empty .empty).1 c root
  exact ⟨(links_point_back.1 last hlast).1, (links_point_back.1 last hlast).2.2⟩

end Moment

end ContentGraph
