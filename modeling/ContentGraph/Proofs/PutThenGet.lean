import ContentGraph.Proofs.Links
import ContentGraph.Proofs.MatchingStore

/-! An object that is put into a store where nothing stands in its place is what the store gives
back, if its tree nests no deeper than trees are read. Objects are made without that limit, of trees
and of values, so there are objects that a store accepts and then refuses to give back. -/

namespace ContentGraph

namespace Node

theorem ofJsonMembers_eq (members : List (String × Json)) :
    ofJsonMembers members = Entries.mapValues ofJson members := by
  induction members with
  | nil => rfl
  | cons member rest ih => rw [ofJsonMembers, ih]; rfl

theorem ordered_ofJson_object {members : Entries Json} (hsorted : Entries.Sorted members)
    (hmembers : ∀ p ∈ members, (ofJson p.2).Ordered) : (ofJson (.object members)).Ordered := by
  rw [ofJson, ofJsonMembers_eq]
  refine ⟨hsorted.mapValues ofJson, orderedEntries_iff.mpr fun e he => ?_⟩
  obtain ⟨p, hp, rfl⟩ := List.mem_map.mp he
  exact hmembers p hp

theorem ofJsonItems_eq (items : List Json) : ofJsonItems items = items.map ofJson := by
  induction items with
  | nil => rfl
  | cons json rest ih => rw [ofJsonItems, ih, List.map_cons]

theorem ordered_ofJson_array {items : List Json} (h : ∀ json ∈ items, (ofJson json).Ordered) :
    (ofJson (.array items)).Ordered := by
  rw [ofJson, ofJsonItems_eq]
  refine orderedItems_iff.mpr fun n hn => ?_
  obtain ⟨json, hjson, rfl⟩ := List.mem_map.mp hn
  exact h json hjson

theorem ordered_ofJsonInteger (value : Int) : (ofJsonInteger value).Ordered := by
  unfold ofJsonInteger
  split <;> trivial

end Node

namespace Value

mutual

/-- Where keys read alike the last entry counts, so every map of a value comes out in order. -/
theorem ordered_ofJson : (value : Value) → ∀ json, value.toJson = .ok json →
    (Node.ofJson json).Ordered
  | .unit, json, h => by cases h; trivial
  | .none, json, h => by cases h; trivial
  | .some value, json, h => ordered_ofJson value json h
  | .bool _, json, h => by cases h; trivial
  | .integer value, json, h => by
    rw [toJson] at h
    split at h
    · cases h
      exact Node.ordered_ofJsonInteger value
    · cases h
  | .float bits, json, h => by
    cases h
    split <;> trivial
  | .text _, json, h => by cases h; trivial
  | .bytes value, json, h => by
    cases h
    refine Node.ordered_ofJson_array fun json hjson => ?_
    obtain ⟨b, -, rfl⟩ := List.mem_map.mp hjson
    exact Node.ordered_ofJsonInteger _
  | .sequence items, json, h => by
    obtain ⟨jsons, hitems, rfl⟩ := map_eq_ok_iff.mp h
    exact Node.ordered_ofJson_array (ordered_ofJson_items items jsons hitems)
  | .map entries, json, h => by
    obtain ⟨members, hmembers, rfl⟩ := map_eq_ok_iff.mp h
    have hboth := ordered_ofJson_members entries [] members .nil (List.forall_mem_nil _) hmembers
    exact Node.ordered_ofJson_object hboth.1 hboth.2
  | .variant name value, json, h => by
    obtain ⟨inner, hinner, rfl⟩ := map_eq_ok_iff.mp h
    have hvalue := ordered_ofJson value inner hinner
    exact Node.ordered_ofJson_object (List.pairwise_singleton _ _) (by simpa using hvalue)

theorem ordered_ofJson_items : (items : List Value) → ∀ jsons, jsonItems items = .ok jsons →
    ∀ json ∈ jsons, (Node.ofJson json).Ordered
  | [], jsons, h => by cases h; exact List.forall_mem_nil _
  | value :: rest, jsons, h => by
    obtain ⟨first, hfirst, h⟩ := bind_eq_ok_iff.mp h
    obtain ⟨others, hothers, h⟩ := bind_eq_ok_iff.mp h
    cases h
    have hvalue := ordered_ofJson value first hfirst
    exact List.forall_mem_cons.mpr ⟨hvalue, ordered_ofJson_items rest others hothers⟩

theorem ordered_ofJson_members : (entries : List (Value × Value)) → ∀ before after : Entries Json,
    Entries.Sorted before → (∀ p ∈ before, (Node.ofJson p.2).Ordered) →
    jsonMembers before entries = .ok after →
      Entries.Sorted after ∧ ∀ p ∈ after, (Node.ofJson p.2).Ordered
  | [], before, after, hsorted, hbefore, h => by
    cases h
    exact ⟨hsorted, hbefore⟩
  | (key, value) :: rest, before, after, hsorted, hbefore, h => by
    obtain ⟨name, hname, h⟩ := bind_eq_ok_iff.mp h
    obtain ⟨json, hjson, h⟩ := bind_eq_ok_iff.mp h
    have hvalue := ordered_ofJson value json hjson
    refine ordered_ofJson_members rest _ after (hsorted.insert name json) (fun p hp => ?_) h
    rcases Entries.mem_insert hp with rfl | hp
    · exact hvalue
    · exact hbefore p hp

end

end Value

namespace Object

/-- The two ways in which objects are made. The entries of a tree's maps stand in order. -/
inductive Made : Object → Prop
  | ofNode {n : Node} {o : Object} (hordered : n.Ordered) (h : ofNode n = .ok o) : Made o
  | ofValue {value : Value} {o : Object} (h : ofValue value = .ok o) : Made o

theorem Made.ordered {o : Object} (h : o.Made) : o.tree.Ordered := by
  cases h with
  | ofNode hordered h => rwa [(tree_of_ofNode h).1]
  | @ofValue value _ h =>
    rw [Object.ofValue] at h
    cases hjson : value.toJson with
    | error cause => rw [hjson] at h; cases h
    | ok json =>
      rw [hjson] at h
      rw [(tree_of_ofNode h).1]
      exact value.ordered_ofJson json hjson

theorem version_eq (o : Object) : o.address.version = Address.currentVersion := by
  rw [o.address_eq]
  rfl

theorem read_of_undecodable {o : Object} {cause : DecodeError}
    (h : Node.decode o.data = .error cause) :
    Object.read o.address o.data = .error (.undecodable cause) := by
  have hblock : Block.make o.address o.data = .ok o.block :=
    Block.make_eq_ok_iff.mpr ⟨o.version_eq, o.block.derived, rfl, rfl⟩
  have hnode : o.block.address.codec = .node := o.isNode
  rw [Object.read, hblock]
  show ofBlock o.block = _
  unfold ofBlock
  rw [dif_pos hnode]
  split
  · next hcause =>
    rw [show Node.decode o.block.data = _ from h] at hcause
    cases hcause
    rfl
  · next hok =>
    rw [show Node.decode o.block.data = _ from h] at hok
    cases hok

end Object

namespace Node

/-- Lists of one item, each in the next one. -/
def nestedLists : Nat → Node
  | 0 => .null
  | depth + 1 => .list [nestedLists depth]

theorem nesting_nestedLists (depth : Nat) : (nestedLists depth).nesting = depth := by
  induction depth with
  | zero => rfl
  | succ depth ih => simp [nestedLists, nesting, nestingOfItems, ih]

theorem ordered_nestedLists (depth : Nat) : (nestedLists depth).Ordered := by
  induction depth with
  | zero => trivial
  | succ depth ih => exact ⟨ih, trivial⟩

theorem sized_nestedLists (depth : Nat) : (nestedLists depth).Sized := by
  induction depth with
  | zero => trivial
  | succ depth ih => exact ⟨(by decide : 1 < lengthLimit), ih, trivial⟩

theorem declaredType_nestedLists (depth : Nat) : (nestedLists depth).declaredType = .ok none := by
  refine declaredType_eq_ok_iff.mpr ?_
  cases depth with
  | zero => rfl
  | succ depth =>
    have hindex : indexOfSegment? typeField = none := by decide
    rw [nestedLists, child?, hindex]
    rfl

end Node

def Object.nestedLists (depth : Nat) : Object :=
  ⟨Block.ofData .node (Node.nestedLists depth).encode, Node.nestedLists depth, none, rfl, rfl,
    Node.declaredType_nestedLists depth⟩

theorem Object.ofNode_nestedLists (depth : Nat) :
    ofNode (Node.nestedLists depth) = .ok (nestedLists depth) := by
  unfold ofNode
  split
  · next htype => rw [Node.declaredType_nestedLists] at htype; cases htype
  · exact congrArg _ (eq_of_block_of_tree rfl rfl)

theorem Node.decode_encode_of_deep {n : Node} (hsized : n.Sized) (hdeep : maxDepth < n.nesting) :
    decode n.encode = .error (.tooDeep maxDepth) := by
  have hwalk := checkDepth_append (fits_wire_iff.mpr hsized) maxDepth []
  rw [List.append_nil, encode_wire, nesting_wire, if_neg (Nat.not_le.mpr hdeep)] at hwalk
  rw [decode, hwalk]
  rfl

namespace Store

variable {m : MemoryStore} {o : Object}

theorem get_put_eq_read (hnew : m.table.get? o.address.text = none) :
    get (put o m).2 o.address = Object.read o.address o.data := by
  have hentry : (m.write o.address.text o.data).table.get? o.address.text = some o.data := by
    rw [MemoryStore.get?_write, hnew, if_pos rfl, Option.none_or]
  have hread : Backend.read (put o m).2 o.address.text = .ok (some o.data) :=
    congrArg Except.ok hentry
  rw [get, hread]

theorem get_put_of_shallow (hordered : o.tree.Ordered) (hsized : o.tree.Sized)
    (hshallow : o.tree.nesting ≤ Node.maxDepth) (hnew : m.table.get? o.address.text = none) :
    get (put o m).2 o.address = .ok o := by
  have hcanonical : Node.Canonical o.data o.tree := ⟨o.encoded.symm, hordered, hsized, hshallow⟩
  rw [get_put_eq_read hnew, Object.read_of_canonical hcanonical]

theorem get_put_of_deep (hsized : o.tree.Sized) (hdeep : Node.maxDepth < o.tree.nesting)
    (hnew : m.table.get? o.address.text = none) :
    get (put o m).2 o.address = .error (.undecodable (.tooDeep Node.maxDepth)) := by
  have hdecode := Node.decode_encode_of_deep hsized hdeep
  rw [show o.tree.encode = o.data from o.encoded] at hdecode
  rw [get_put_eq_read hnew, Object.read_of_undecodable hdecode]

/-- The store accepts every object, and gives it back exactly if it nests no deeper than it
reads. -/
theorem get_after_put (o : Object) (hmade : o.Made) (hsized : o.tree.Sized) (m : MemoryStore)
    (hnew : m.table.get? o.address.text = none) :
    (put o m).1 = .ok () ∧
      (get (put o m).2 o.address = .ok o ↔ o.tree.nesting ≤ Node.maxDepth) ∧
      (Node.maxDepth < o.tree.nesting →
        get (put o m).2 o.address = .error (.undecodable (.tooDeep Node.maxDepth))) := by
  have hdeep := fun h => get_put_of_deep hsized h hnew
  refine ⟨rfl, ⟨fun hget => ?_, fun hshallow => ?_⟩, hdeep⟩
  · refine Nat.not_lt.mp fun hlt => ?_
    rw [hdeep hlt] at hget
    cases hget
  · exact get_put_of_shallow hmade.ordered hsized hshallow hnew

theorem get_after_put_at_limit :
    get (put (.nestedLists 128) .empty : _ × MemoryStore).2 (Object.nestedLists 128).address =
      .ok (.nestedLists 128) := by
  have hmade : (Object.nestedLists 128).Made :=
    .ofNode (Node.ordered_nestedLists 128) (Object.ofNode_nestedLists 128)
  have hlimit : (Object.nestedLists 128).tree.nesting ≤ Node.maxDepth :=
    Nat.le_of_eq (Node.nesting_nestedLists 128)
  exact (get_after_put _ hmade (Node.sized_nestedLists 128) .empty rfl).2.1.mpr hlimit

/-- One list more, and what has been put cannot be had back. -/
theorem lost_after_put_beyond_limit :
    Object.ofNode (Node.nestedLists 129) = .ok (.nestedLists 129) ∧
      (put (.nestedLists 129) MemoryStore.empty).1 = .ok () ∧
      get (put (.nestedLists 129) MemoryStore.empty).2 (Object.nestedLists 129).address =
        .error (.undecodable (.tooDeep 128)) := by
  have hdeep : Node.maxDepth < (Object.nestedLists 129).tree.nesting := by
    rw [show (Object.nestedLists 129).tree.nesting = 129 from Node.nesting_nestedLists 129]
    decide
  exact ⟨Object.ofNode_nestedLists 129, rfl, get_put_of_deep (Node.sized_nestedLists 129) hdeep rfl⟩

end Store

end ContentGraph
