import ContentGraph.NodeDecoding
import ContentGraph.Proofs.AddressForms
import ContentGraph.Proofs.Utf8Text
import ContentGraph.Proofs.Wire

/-! The wire form of a tree, and the tree that a wire form shows when it is interpreted. Each undoes
the other on trees whose maps are in order and whose lengths fit their prefixes. -/

namespace ContentGraph

namespace Node

mutual

/-- The lengths of texts, byte strings, lists and maps fit their prefixes. -/
def Sized : Node → Prop
  | .string value => (utf8 value).length < lengthLimit
  | .bytes value => value.length < lengthLimit
  | .list items => items.length < lengthLimit ∧ SizedItems items
  | .map entries => entries.length < lengthLimit ∧ SizedEntries entries
  | _ => True

def SizedItems : List Node → Prop
  | [] => True
  | n :: rest => Sized n ∧ SizedItems rest

def SizedEntries : List (String × Node) → Prop
  | [] => True
  | (key, n) :: rest => (utf8 key).length < lengthLimit ∧ Sized n ∧ SizedEntries rest

end

mutual

def wire : Node → Wire
  | .null => .fixed .null []
  | .bool value => .fixed .bool [if value then 1 else 0]
  | .integer value => .fixed .integer (littleEndian 8 value.toUInt64.toNat)
  | .float bits => .fixed .float (littleEndian 8 bits.toNat)
  | .string value => .prefixed .string (utf8 value)
  | .bytes value => .prefixed .bytes value
  | .link target => .prefixed .link target.toBytes
  | .list items => .container false (wireItems items)
  | .map entries => .container true (wireEntries entries)

def wireItems : List Node → List (Bytes × Wire)
  | [] => []
  | n :: rest => ([], wire n) :: wireItems rest

def wireEntries : List (String × Node) → List (Bytes × Wire)
  | [] => []
  | (key, n) :: rest => (utf8 key, wire n) :: wireEntries rest

end

theorem wireItems_eq (items : List Node) : wireItems items = items.map fun n => ([], n.wire) := by
  induction items with
  | nil => rfl
  | cons n rest ih => rw [wireItems, ih, List.map_cons]

theorem wireEntries_eq (entries : List (String × Node)) :
    wireEntries entries = entries.map fun e => (utf8 e.1, e.2.wire) := by
  induction entries with
  | nil => rfl
  | cons e rest ih => rw [wireEntries, ih, List.map_cons]

theorem orderedItems_iff {items : List Node} : OrderedItems items ↔ ∀ n ∈ items, n.Ordered := by
  induction items with
  | nil => simp [OrderedItems]
  | cons n rest ih => simp [OrderedItems, ih]

theorem orderedEntries_iff {entries : List (String × Node)} :
    OrderedEntries entries ↔ ∀ e ∈ entries, e.2.Ordered := by
  induction entries with
  | nil => simp [OrderedEntries]
  | cons e rest ih => simp [OrderedEntries, ih]

theorem nestingOfItems_le_iff {items : List Node} {limit : Nat} :
    nestingOfItems items ≤ limit ↔ ∀ n ∈ items, n.nesting < limit := by
  induction items with
  | nil => simp [nestingOfItems]
  | cons n rest ih =>
    rw [nestingOfItems, Nat.max_le, ih, List.forall_mem_cons]
    rfl

theorem nestingOfEntries_le_iff {entries : List (String × Node)} {limit : Nat} :
    nestingOfEntries entries ≤ limit ↔ ∀ e ∈ entries, e.2.nesting < limit := by
  induction entries with
  | nil => simp [nestingOfEntries]
  | cons e rest ih =>
    rw [nestingOfEntries, Nat.max_le, ih, List.forall_mem_cons]
    rfl

theorem sizedItems_iff {items : List Node} : SizedItems items ↔ ∀ n ∈ items, n.Sized := by
  induction items with
  | nil => simp [SizedItems]
  | cons n rest ih => simp [SizedItems, ih]

theorem sizedEntries_iff {entries : List (String × Node)} :
    SizedEntries entries ↔ ∀ e ∈ entries, (utf8 e.1).length < lengthLimit ∧ e.2.Sized := by
  induction entries with
  | nil => simp [SizedEntries]
  | cons e rest ih => simp [SizedEntries, ih, and_assoc]

theorem encode_wire (n : Node) : n.wire.encode = n.encode := by
  induction n with
  | list items ih =>
    have hitems : Wire.partsBytes false (wireItems items) = encodeItems items := by
      induction items with
      | nil => rfl
      | cons n rest ihrest =>
        rw [wireItems, Wire.partsBytes_cons, ih n List.mem_cons_self,
          ihrest fun m hm => ih m (List.mem_cons_of_mem _ hm)]
        rfl
    rw [wire, encode, Wire.encode, Wire.content, hitems, wireItems_eq, List.length_map]
    rfl
  | map entries ih =>
    have hentries : Wire.partsBytes true (wireEntries entries) = encodeEntries entries := by
      induction entries with
      | nil => rfl
      | cons e rest ihrest =>
        rw [wireEntries, Wire.partsBytes_cons, ih e List.mem_cons_self,
          ihrest fun m hm => ih m (List.mem_cons_of_mem _ hm)]
        rfl
    rw [wire, encode, Wire.encode, Wire.content, hentries, wireEntries_eq, List.length_map]
    rfl
  | null => rfl
  | _ => rfl

theorem nesting_wire (n : Node) : n.wire.nesting = n.nesting := by
  induction n with
  | list items ih =>
    rw [wire, nesting, Wire.nesting]
    induction items with
    | nil => rfl
    | cons n rest ihrest =>
      rw [wireItems, nestingOfItems, Wire.nestingOfParts, ih n List.mem_cons_self,
        ihrest fun m hm => ih m (List.mem_cons_of_mem _ hm)]
  | map entries ih =>
    rw [wire, nesting, Wire.nesting]
    induction entries with
    | nil => rfl
    | cons e rest ihrest =>
      rw [wireEntries, nestingOfEntries, Wire.nestingOfParts, ih e List.mem_cons_self,
        ihrest fun m hm => ih m (List.mem_cons_of_mem _ hm)]
  | _ => rfl

theorem fits_wire_iff {n : Node} : n.wire.Fits ↔ n.Sized := by
  induction n with
  | list items ih =>
    rw [wire, Wire.Fits, Wire.fitsParts_iff, Sized, sizedItems_iff, wireItems_eq, List.length_map,
      List.forall_mem_map]
    refine and_congr_right fun _ => forall₂_congr fun n hn => ?_
    simpa using ih n hn
  | map entries ih =>
    rw [wire, Wire.Fits, Wire.fitsParts_iff, Sized, sizedEntries_iff, wireEntries_eq,
      List.length_map, List.forall_mem_map]
    refine and_congr_right fun _ => forall₂_congr fun e he => ?_
    simpa using fun _ => ih e he
  | string value => simp [wire, Wire.Fits, Sized, NodeKind.layout]
  | bytes value => simp [wire, Wire.Fits, Sized, NodeKind.layout]
  | link target => simp [wire, Wire.Fits, Sized, NodeKind.layout, Address.binaryLength, lengthLimit]
  | _ => simp [wire, Wire.Fits, Sized, NodeKind.layout]

theorem length_encodeItems {items : List Node} :
    items.length ≤ (encodeItems items).length ∧
      ∀ n ∈ items, n.encode.length ≤ (encodeItems items).length := by
  induction items with
  | nil => exact ⟨Nat.zero_le _, nofun⟩
  | cons n rest ih =>
    have hn : 4 ≤ n.encode.length := by
      rw [← encode_wire, Wire.encode, List.length_append, NodeKind.length_tagBytes]
      exact Nat.le_add_right 4 _
    rw [encodeItems, List.length_append, List.length_cons]
    refine ⟨by omega, fun m hm => ?_⟩
    rcases List.mem_cons.mp hm with rfl | hm
    · exact Nat.le_add_right _ _
    · exact Nat.le_trans (ih.2 m hm) (Nat.le_add_left _ _)

theorem length_encodeEntries {entries : List (String × Node)} :
    entries.length ≤ (encodeEntries entries).length ∧
      ∀ e ∈ entries, (utf8 e.1).length + e.2.encode.length ≤ (encodeEntries entries).length := by
  induction entries with
  | nil => exact ⟨Nat.zero_le _, nofun⟩
  | cons e rest ih =>
    have hkey : (prefixed (utf8 e.1)).length = 8 + (utf8 e.1).length := by
      rw [prefixed, List.length_append, length_lengthPrefix]
    rw [encodeEntries, List.length_append, List.length_append, List.length_cons, hkey]
    refine ⟨by omega, fun f hf => ?_⟩
    rcases List.mem_cons.mp hf with rfl | hf
    · omega
    · have := ih.2 f hf
      omega

/-- Where all bytes together are few enough for a length prefix, all lengths are. -/
theorem sized_of_length_encode_lt {n : Node} (h : n.encode.length < lengthLimit) : n.Sized := by
  induction n with
  | string value =>
    simp only [encode, prefixed, List.length_append] at h
    rw [Sized]
    omega
  | bytes value =>
    simp only [encode, prefixed, List.length_append] at h
    rw [Sized]
    omega
  | list items ih =>
    obtain ⟨hcount, hitems⟩ := @length_encodeItems items
    rw [encode, List.length_append, List.length_append] at h
    refine ⟨by omega, sizedItems_iff.mpr fun n hn => ih n hn ?_⟩
    have := hitems n hn
    omega
  | map entries ih =>
    obtain ⟨hcount, hentries⟩ := @length_encodeEntries entries
    rw [encode, List.length_append, List.length_append] at h
    refine ⟨by omega, sizedEntries_iff.mpr fun e he => ?_⟩
    have := hentries e he
    exact ⟨by omega, ih e he (by omega)⟩
  | _ => trivial

end Node

namespace Wire

def readText (payload : Bytes) : Except DecodeError String :=
  match textOfUtf8 payload with
  | .ok s => .ok s
  | .error cause => .error (.badText cause)

def readAddress (payload : Bytes) : Except DecodeError Address :=
  match Address.ofBytes payload with
  | .ok a => .ok a
  | .error cause => .error (.badLink cause)

def readBool (payload : Bytes) : Except DecodeError Bool :=
  match payload with
  | [0] => .ok false
  | [1] => .ok true
  | data => .error (.badBool (data.headD 0))

def leaf (kind : NodeKind) (payload : Bytes) : Except DecodeError Node :=
  match kind with
  | .null => .ok .null
  | .bool => .bool <$> readBool payload
  | .integer => .ok (.integer (UInt64.ofNat (ofLittleEndian payload)).toInt64)
  | .float => .ok (.float (UInt64.ofNat (ofLittleEndian payload)))
  | .string => .string <$> readText payload
  | .bytes => .ok (.bytes payload)
  | .link => .link <$> readAddress payload
  | .list | .map => .error .endOfBytes

mutual

/-- The tree that the bytes stand for, if all of them can be interpreted. -/
def tree : Wire → Except DecodeError Node
  | .fixed kind payload => leaf kind payload
  | .prefixed kind payload => leaf kind payload
  | .container false parts => .list <$> items parts
  | .container true parts => (fun entries => .map (Entries.ofList entries)) <$> entries parts

def items : List (Bytes × Wire) → Except DecodeError (List Node)
  | [] => return []
  | (_, w) :: rest => do
    let n ← tree w
    let later ← items rest
    return n :: later

def entries : List (Bytes × Wire) → Except DecodeError (List (String × Node))
  | [] => return []
  | (key, w) :: rest => do
    let e ← (do return (← readText key, ← tree w))
    let later ← entries rest
    return e :: later

end

def entry (part : Bytes × Wire) : Except DecodeError (String × Node) := do
  return (← readText part.1, ← part.2.tree)

theorem items_eq (parts : List (Bytes × Wire)) : items parts = parts.mapM fun p => p.2.tree := by
  induction parts with
  | nil => rfl
  | cons p rest ih => rw [items, List.mapM_cons, ih]

theorem entries_eq (parts : List (Bytes × Wire)) : entries parts = parts.mapM entry := by
  induction parts with
  | nil => rfl
  | cons p rest ih => rw [entries, List.mapM_cons, ih]; rfl

theorem readText_eq_ok_iff {payload : Bytes} {s : String} :
    readText payload = .ok s ↔ payload = utf8 s := by
  rw [readText, ← textOfUtf8_eq_ok_iff]
  cases textOfUtf8 payload <;> simp

theorem readAddress_eq_ok_iff {payload : Bytes} {a : Address} :
    readAddress payload = .ok a ↔ payload = a.toBytes := by
  rw [readAddress, ← Address.ofBytes_eq_ok_iff]
  cases Address.ofBytes payload <;> simp

theorem entry_eq_ok_iff {part : Bytes × Wire} {e : String × Node} :
    entry part = .ok e ↔ part.1 = utf8 e.1 ∧ part.2.tree = .ok e.2 := by
  obtain ⟨key, n⟩ := e
  simp only [entry, bind_eq_ok_iff, pure_eq_ok_iff, Prod.mk.injEq, ← readText_eq_ok_iff]
  constructor
  · rintro ⟨_, hkey, _, hn, rfl, rfl⟩
    exact ⟨hkey, hn⟩
  · rintro ⟨hkey, hn⟩
    exact ⟨key, hkey, n, hn, rfl, rfl⟩

end Wire

namespace Node

theorem tree_wire {n : Node} (h : n.Ordered) : n.wire.tree = .ok n := by
  induction n with
  | null => rfl
  | bool value => cases value <;> rfl
  | integer value =>
    have hvalue : value.toUInt64.toNat % 256 ^ 8 = value.toUInt64.toNat :=
      Nat.mod_eq_of_lt value.toUInt64.toNat_lt
    rw [wire, Wire.tree, Wire.leaf, ofLittleEndian_littleEndian, hvalue, UInt64.ofNat_toNat,
      Int64.toInt64_toUInt64]
  | float bits =>
    have hbits : bits.toNat % 256 ^ 8 = bits.toNat := Nat.mod_eq_of_lt bits.toNat_lt
    rw [wire, Wire.tree, Wire.leaf, ofLittleEndian_littleEndian, hbits, UInt64.ofNat_toNat]
  | string value =>
    rw [wire, Wire.tree, Wire.leaf, Wire.readText_eq_ok_iff.mpr rfl]
    rfl
  | bytes value => rfl
  | link target =>
    rw [wire, Wire.tree, Wire.leaf, Wire.readAddress_eq_ok_iff.mpr rfl]
    rfl
  | list items ih =>
    have hitems : (wireItems items).mapM (fun p => p.2.tree) = .ok (items.map id) := by
      rw [wireItems_eq, List.mapM_map]
      exact mapM_eq_ok_map fun n hn => ih n hn (orderedItems_iff.mp h n hn)
    rw [wire, Wire.tree, Wire.items_eq, hitems, List.map_id]
    rfl
  | map entries ih =>
    have hentries : (wireEntries entries).mapM Wire.entry = .ok (entries.map id) := by
      rw [wireEntries_eq, List.mapM_map]
      exact mapM_eq_ok_map fun e he =>
        Wire.entry_eq_ok_iff.mpr ⟨rfl, ih e he (orderedEntries_iff.mp h.2 e he)⟩
    rw [wire, Wire.tree, Wire.entries_eq, hentries, List.map_id]
    exact congrArg (fun entries => Except.ok (Node.map entries)) (Entries.ofList_of_sorted h.1)

end Node

namespace Wire

section

variable {isMap : Bool} {parts : List (Bytes × Wire)} {n : Node}

theorem ordered_sized_of_list (hw : (container false parts).Fits)
    (ih : ∀ p ∈ parts, ∀ m, p.2.Fits → p.2.tree = .ok m → m.Ordered ∧ m.Sized)
    (h : (container false parts).tree = .ok n) : n.Ordered ∧ n.Sized := by
  obtain ⟨hlen, hparts⟩ := hw
  rw [fitsParts_iff] at hparts
  obtain ⟨items, hitems, rfl⟩ := map_eq_ok_iff.mp h
  rw [items_eq] at hitems
  have hall : ∀ m ∈ items, m.Ordered ∧ m.Sized := fun m hm => by
    obtain ⟨p, hp, hpm⟩ := exists_of_mem_mapM hitems hm
    exact ih p hp m (hparts p hp).2 hpm
  refine ⟨Node.orderedItems_iff.mpr fun m hm => (hall m hm).1, ?_,
    Node.sizedItems_iff.mpr fun m hm => (hall m hm).2⟩
  rwa [length_eq_of_mapM hitems]

theorem ordered_sized_of_map (hw : (container true parts).Fits)
    (ih : ∀ p ∈ parts, ∀ m, p.2.Fits → p.2.tree = .ok m → m.Ordered ∧ m.Sized)
    (h : (container true parts).tree = .ok n) : n.Ordered ∧ n.Sized := by
  obtain ⟨hlen, hparts⟩ := hw
  rw [fitsParts_iff] at hparts
  obtain ⟨entries, hentries, rfl⟩ := map_eq_ok_iff.mp h
  rw [entries_eq] at hentries
  have hall : ∀ e ∈ Entries.ofList entries,
      (utf8 e.1).length < lengthLimit ∧ e.2.Ordered ∧ e.2.Sized := fun e he => by
    obtain ⟨p, hp, hpe⟩ := exists_of_mem_mapM hentries (Entries.mem_of_mem_ofList he)
    obtain ⟨hkey, hvalue⟩ := entry_eq_ok_iff.mp hpe
    obtain ⟨hkeylen, hfits⟩ := hparts p hp
    exact ⟨hkey ▸ hkeylen, ih p hp e.2 hfits hvalue⟩
  have hcount := length_eq_of_mapM hentries ▸ Entries.length_ofList_le entries
  exact ⟨⟨Entries.sorted_ofList entries, Node.orderedEntries_iff.mpr fun e he => (hall e he).2.1⟩,
    Nat.lt_of_le_of_lt hcount hlen,
    Node.sizedEntries_iff.mpr fun e he => ⟨(hall e he).1, (hall e he).2.2⟩⟩

end

/-- What is read from bytes whose lengths fit their prefixes has lengths that do. -/
theorem ordered_sized_of_tree {w : Wire} {n : Node} (hw : w.Fits) (h : w.tree = .ok n) :
    n.Ordered ∧ n.Sized := by
  induction w generalizing n with
  | fixed kind payload =>
    have hlayout : kind.layout = .fixed payload.length := hw
    rw [tree] at h
    cases kind with
    | null => cases h; simp [Node.Ordered, Node.Sized]
    | integer => cases h; simp [Node.Ordered, Node.Sized]
    | float => cases h; simp [Node.Ordered, Node.Sized]
    | bool =>
      obtain ⟨value, -, rfl⟩ := map_eq_ok_iff.mp h
      simp [Node.Ordered, Node.Sized]
    | _ => cases hlayout
  | prefixed kind payload =>
    obtain ⟨hlayout, hlen⟩ := hw
    rw [tree] at h
    cases kind with
    | bytes => cases h; exact ⟨trivial, hlen⟩
    | string =>
      obtain ⟨s, hs, rfl⟩ := map_eq_ok_iff.mp h
      exact ⟨trivial, by rwa [Node.Sized, ← readText_eq_ok_iff.mp hs]⟩
    | link =>
      obtain ⟨a, -, rfl⟩ := map_eq_ok_iff.mp h
      exact ⟨trivial, trivial⟩
    | _ => cases hlayout
  | container isMap parts ih =>
    cases isMap with
    | false => exact ordered_sized_of_list hw (fun p hp _ hfits => ih p hp hfits) h
    | true => exact ordered_sized_of_map hw (fun p hp _ hfits => ih p hp hfits) h

end Wire

end ContentGraph
