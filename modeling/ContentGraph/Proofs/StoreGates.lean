import ContentGraph.Proofs.CanonicalBytes
import ContentGraph.Store

/-! What a store answers with has passed every gate on the way: something is held under the address,
the address has the current version, the bytes hash to it, they are said to be a tree, they are the
canonical form of one, and the type that the tree declares is a string. The error names the first of
the gates that is shut, whatever is held under any address. -/

namespace ContentGraph

/-- The bytes are the canonical form of the tree, and it does not nest too deep to be read. -/
structure Node.Canonical (data : Bytes) (n : Node) : Prop where
  encoded : data = n.encode
  ordered : n.Ordered
  sized : n.Sized
  shallow : n.nesting ≤ Node.maxDepth

theorem Node.decode_eq_ok_iff_canonical {data : Bytes} {n : Node} :
    decode data = .ok n ↔ n.Canonical data := by
  rw [decode_eq_ok_iff]
  exact ⟨fun ⟨h, ho, hs, hn⟩ => ⟨h, ho, hs, hn⟩, fun ⟨h, ho, hs, hn⟩ => ⟨h, ho, hs, hn⟩⟩

theorem Node.Canonical.unique {data : Bytes} {m n : Node} (hm : m.Canonical data)
    (hn : n.Canonical data) : m = n := by
  have hdecode := decode_eq_ok_iff_canonical.mpr hm
  rw [decode_eq_ok_iff_canonical.mpr hn] at hdecode
  exact (Except.ok.inj hdecode).symm

inductive Gate
  | present
  | version
  | address
  | codec
  | content
  | type

namespace Gate

/-- The gates stand one behind the other. -/
def position : Gate → Nat
  | .present => 0
  | .version => 1
  | .address => 2
  | .codec => 3
  | .content => 4
  | .type => 5

/-- Whether the gate is open, by the address asked for and what is held under it. -/
def Passes (a : Address) (held : Option Bytes) : Gate → Prop
  | .present => ∃ data, held = some data
  | .version => a.version = 1
  | .address => ∃ data, held = some data ∧ Address.derive a.codec data = a
  | .codec => a.codec = .node
  | .content => ∃ data n, held = some data ∧ Node.Canonical data n
  | .type => ∃ data n, held = some data ∧ Node.Canonical data n ∧
      ∀ value, n.child? typeField = some value → ∃ name, value = .string name

/-- The error that tells that the gate is shut. -/
def Reports (a : Address) (held : Option Bytes) : Gate → StoreError → Prop
  | .present, e => e = .notFound a
  | .version, e => e = .invalidVersion a.version
  | .address, e => ∃ data, held = some data ∧ e = .addressMismatch a (Address.derive a.codec data)
  | .codec, e => e = .invalidCodec a.codec
  | .content, e => ∃ data cause, held = some data ∧ Node.decode data = .error cause ∧
      e = .undecodable cause
  | .type, e => ∃ data n value, held = some data ∧ Node.Canonical data n ∧
      n.child? typeField = some value ∧ e = .invalidType value.kind

/-- The gate is shut, and all before it are open. -/
def IsFirstShut (a : Address) (held : Option Bytes) (gate : Gate) : Prop :=
  ¬gate.Passes a held ∧ ∀ g : Gate, g.position < gate.position → g.Passes a held

theorem position_injective {g g' : Gate} (h : g.position = g'.position) : g = g' := by
  cases g <;> cases g' <;> first | rfl | cases h

theorem IsFirstShut.unique {a : Address} {held : Option Bytes} {g g' : Gate}
    (h : g.IsFirstShut a held) (h' : g'.IsFirstShut a held) : g = g' := by
  have hnot : ¬g.position < g'.position := fun hlt => h.1 (h'.2 g hlt)
  have hnot' : ¬g'.position < g.position := fun hlt => h'.1 (h.2 g' hlt)
  exact position_injective (Nat.le_antisymm (Nat.not_lt.mp hnot') (Nat.not_lt.mp hnot))

end Gate

theorem Node.declaredType_eq_ok_iff {n : Node} {type : Option String} :
    n.declaredType = .ok type ↔ n.child? typeField = type.map .string := by
  unfold declaredType
  cases h : n.child? typeField with
  | none => cases type <;> simp
  | some value => cases value <;> cases type <;> simp

theorem Node.declaredType_eq_error_iff {n : Node} {e : StoreError} :
    n.declaredType = .error e ↔
      ∃ value, n.child? typeField = some value ∧ (∀ name, value ≠ .string name) ∧
        e = .invalidType value.kind := by
  unfold declaredType
  cases h : n.child? typeField with
  | none => simp
  | some value => cases value <;> simp [eq_comm]

theorem Block.make_eq_ok_iff {a : Address} {data : Bytes} {b : Block} :
    Block.make a data = .ok b ↔
      a.version = 1 ∧ Address.derive a.codec data = a ∧ b.address = a ∧ b.data = data := by
  rw [make, Address.currentVersion]
  by_cases hversion : a.version = 1
  · by_cases hderive : Address.derive a.codec data = a
    · rw [if_neg (not_not_intro hversion), dif_pos hderive]
      constructor
      · intro h
        cases h
        exact ⟨hversion, hderive, rfl, rfl⟩
      · rintro ⟨-, -, rfl, rfl⟩
        rfl
    · rw [if_neg (not_not_intro hversion), dif_neg hderive]
      exact ⟨nofun, fun h => absurd h.2.1 hderive⟩
  · rw [if_pos hversion]
    exact ⟨nofun, fun h => absurd h.1 hversion⟩

theorem Block.make_eq_error {a : Address} {data : Bytes} {e : StoreError}
    (h : Block.make a data = .error e) :
    (a.version ≠ 1 ∧ e = .invalidVersion a.version) ∨
      a.version = 1 ∧ Address.derive a.codec data ≠ a ∧
        e = .addressMismatch a (Address.derive a.codec data) := by
  rw [make, Address.currentVersion] at h
  by_cases hversion : a.version = 1
  · rw [if_neg (not_not_intro hversion)] at h
    by_cases hderive : Address.derive a.codec data = a
    · rw [dif_pos hderive] at h
      cases h
    · rw [dif_neg hderive] at h
      cases h
      exact .inr ⟨hversion, hderive, rfl⟩
  · rw [if_pos hversion] at h
    cases h
    exact .inl ⟨hversion, rfl⟩

namespace Object

theorem eq_of_block_of_tree {o o' : Object} (hblock : o.block = o'.block) (htree : o.tree = o'.tree) :
    o = o' := by
  obtain ⟨block, tree, type, _, _, htype⟩ := o
  obtain ⟨block', tree', type', _, _, htype'⟩ := o'
  subst hblock htree
  rw [htype] at htype'
  cases htype'
  rfl

theorem ofBlock_eq_ok_iff {b : Block} {o : Object} :
    ofBlock b = .ok o ↔ b.address.codec = .node ∧ Node.Canonical b.data o.tree ∧ o.block = b := by
  constructor
  · intro h
    unfold ofBlock at h
    split at h
    · next hcodec =>
      split at h
      · cases h
      · next tree hdecode =>
        split at h
        · cases h
        · cases h
          exact ⟨hcodec, Node.decode_eq_ok_iff_canonical.mp hdecode, rfl⟩
    · cases h
  · rintro ⟨hcodec, hcanonical, rfl⟩
    have hdecode := Node.decode_eq_ok_iff_canonical.mpr hcanonical
    unfold ofBlock
    rw [dif_pos hcodec]
    split
    · next hfail => rw [hdecode] at hfail; cases hfail
    · next tree htree =>
      rw [hdecode] at htree
      cases htree
      split
      · next hfail => rw [o.declared] at hfail; cases hfail
      · exact congrArg _ (eq_of_block_of_tree rfl rfl)

theorem ofBlock_eq_error {b : Block} {e : StoreError} (h : ofBlock b = .error e) :
    (b.address.codec ≠ .node ∧ e = .invalidCodec b.address.codec) ∨
      b.address.codec = .node ∧
        ((∃ cause, Node.decode b.data = .error cause ∧ e = .undecodable cause) ∨
          ∃ n, Node.Canonical b.data n ∧ n.declaredType = .error e) := by
  unfold ofBlock at h
  split at h
  · next hcodec =>
    refine .inr ⟨hcodec, ?_⟩
    split at h
    · next cause hdecode =>
      cases h
      exact .inl ⟨cause, hdecode, rfl⟩
    · next tree hdecode =>
      split at h
      · next htype =>
        cases h
        exact .inr ⟨tree, Node.decode_eq_ok_iff_canonical.mp hdecode, htype⟩
      · cases h
  · next hcodec =>
    cases h
    exact .inl ⟨hcodec, rfl⟩

theorem read_eq_ok_iff {a : Address} {data : Bytes} {o : Object} :
    read a data = .ok o ↔
      a.version = 1 ∧ Address.derive a.codec data = a ∧ a.codec = .node ∧
        Node.Canonical data o.tree ∧ o.address = a ∧ o.data = data := by
  rw [read, bind_eq_ok_iff]
  constructor
  · rintro ⟨b, hb, ho⟩
    obtain ⟨hversion, hderive, rfl, rfl⟩ := Block.make_eq_ok_iff.mp hb
    obtain ⟨hcodec, hcanonical, rfl⟩ := ofBlock_eq_ok_iff.mp ho
    exact ⟨hversion, hderive, hcodec, hcanonical, rfl, rfl⟩
  · rintro ⟨hversion, hderive, hcodec, hcanonical, rfl, rfl⟩
    exact ⟨o.block, Block.make_eq_ok_iff.mpr ⟨hversion, hderive, rfl, rfl⟩,
      ofBlock_eq_ok_iff.mpr ⟨hcodec, hcanonical, rfl⟩⟩

end Object

namespace Gate

variable {a : Address} {held : Option Bytes} {data : Bytes}

theorem Reports.unique {g : Gate} {e e' : StoreError} (h : g.Reports a held e)
    (h' : g.Reports a held e') : e = e' := by
  cases g with
  | present => exact h.trans h'.symm
  | version => exact h.trans h'.symm
  | address =>
    obtain ⟨data, rfl, rfl⟩ := h
    obtain ⟨_, hdata, rfl⟩ := h'
    cases hdata
    rfl
  | codec => exact h.trans h'.symm
  | content =>
    obtain ⟨data, cause, rfl, hcause, rfl⟩ := h
    obtain ⟨_, cause', hdata, hcause', rfl⟩ := h'
    cases hdata
    rw [hcause] at hcause'
    cases hcause'
    rfl
  | type =>
    obtain ⟨data, n, value, rfl, hn, hvalue, rfl⟩ := h
    obtain ⟨_, n', value', hdata, hn', hvalue', rfl⟩ := h'
    cases hdata
    rw [hn.unique hn', hvalue'] at hvalue
    cases hvalue
    rfl

theorem passes_of_read_eq_ok {o : Object} (h : Object.read a data = .ok o) (g : Gate) :
    g.Passes a (some data) := by
  obtain ⟨hversion, hderive, hcodec, hcanonical, -, -⟩ := Object.read_eq_ok_iff.mp h
  cases g with
  | present => exact ⟨data, rfl⟩
  | version => exact hversion
  | address => exact ⟨data, rfl, hderive⟩
  | codec => exact hcodec
  | content => exact ⟨data, o.tree, rfl, hcanonical⟩
  | type =>
    refine ⟨data, o.tree, rfl, hcanonical, fun value hvalue => ?_⟩
    rw [Node.declaredType_eq_ok_iff.mp o.declared] at hvalue
    obtain ⟨name, -, rfl⟩ := Option.map_eq_some_iff.mp hvalue
    exact ⟨name, rfl⟩

theorem isFirstShut_present : present.IsFirstShut a none :=
  ⟨nofun, fun _ hg => absurd hg (Nat.not_lt_zero _)⟩

/-- A failure to read what is held is reported by the first gate that is shut. -/
theorem exists_isFirstShut_of_read_eq_error {e : StoreError} (h : Object.read a data = .error e) :
    ∃ g : Gate, g.IsFirstShut a (some data) ∧ g.Reports a (some data) e := by
  have hpresent : present.Passes a (some data) := ⟨data, rfl⟩
  rcases bind_eq_error_iff.mp h with hblock | ⟨b, hblock, hobject⟩
  · rcases Block.make_eq_error hblock with ⟨hversion, rfl⟩ | ⟨hversion, hderive, rfl⟩
    · refine ⟨version, ⟨hversion, fun g hg => ?_⟩, rfl⟩
      cases g <;> first | exact hpresent | simp [position] at hg
    · refine ⟨address, ⟨?_, fun g hg => ?_⟩, data, rfl, rfl⟩
      · rintro ⟨_, hdata, hsame⟩
        cases hdata
        exact hderive hsame
      · cases g <;> first | exact hpresent | exact hversion | simp [position] at hg
  · obtain ⟨hversion, hderive, rfl, rfl⟩ := Block.make_eq_ok_iff.mp hblock
    have haddress : address.Passes b.address (some b.data) := ⟨b.data, rfl, hderive⟩
    rcases Object.ofBlock_eq_error hobject with
      ⟨hcodec, rfl⟩ | ⟨hcodec, ⟨cause, hdecode, rfl⟩ | ⟨n, hn, htype⟩⟩
    · refine ⟨codec, ⟨hcodec, fun g hg => ?_⟩, rfl⟩
      cases g <;> first | exact hpresent | exact hversion | exact haddress | simp [position] at hg
    · refine ⟨content, ⟨?_, fun g hg => ?_⟩, b.data, cause, rfl, hdecode, rfl⟩
      · rintro ⟨_, n, hdata, hn⟩
        cases hdata
        rw [Node.decode_eq_ok_iff_canonical.mpr hn] at hdecode
        cases hdecode
      · cases g <;>
          first
          | exact hpresent | exact hversion | exact haddress | exact hcodec | simp [position] at hg
    · obtain ⟨value, hvalue, hstring, rfl⟩ := Node.declaredType_eq_error_iff.mp htype
      refine ⟨type, ⟨?_, fun g hg => ?_⟩, b.data, n, value, rfl, hn, hvalue, rfl⟩
      · rintro ⟨_, n', hdata, hn', hnames⟩
        cases hdata
        rw [hn.unique hn'] at hvalue
        obtain ⟨name, rfl⟩ := hnames value hvalue
        exact hstring name rfl
      · cases g <;>
          first
          | exact hpresent | exact hversion | exact haddress | exact hcodec
          | exact ⟨b.data, n, rfl, hn⟩ | simp [position] at hg

end Gate

namespace Store

variable {σ : Type} [Backend σ]

theorem get_eq_ok_iff {state : σ} {a : Address} {o : Object} :
    get state a = .ok o ↔
      ∃ data, Backend.read state a.text = .ok (some data) ∧ Object.read a data = .ok o := by
  unfold get
  rcases Backend.read state a.text with e | _ | data <;> simp

theorem get_eq_error_iff {state : σ} {a : Address} {e : StoreError} :
    get state a = .error e ↔
      (∃ cause, Backend.read state a.text = .error cause ∧ e = .io cause) ∨
        ∃ held, Backend.read state a.text = .ok held ∧
          ∃ g : Gate, g.IsFirstShut a held ∧ g.Reports a held e := by
  constructor
  · intro h
    unfold get at h
    split at h
    · next cause hread =>
      cases h
      exact .inl ⟨cause, hread, rfl⟩
    · next hread =>
      cases h
      exact .inr ⟨none, hread, .present, Gate.isFirstShut_present, rfl⟩
    · next data hread =>
      exact .inr ⟨some data, hread, Gate.exists_isFirstShut_of_read_eq_error h⟩
  · rintro (⟨cause, hread, rfl⟩ | ⟨held, hread, g, hshut, hreport⟩)
    · rw [get, hread]
    · rw [get, hread]
      cases held with
      | none =>
        obtain rfl := hshut.unique Gate.isFirstShut_present
        exact congrArg Except.error hreport.symm
      | some data =>
        dsimp only
        cases hobject : Object.read a data with
        | ok o => exact absurd (Gate.passes_of_read_eq_ok hobject g) hshut.1
        | error e' =>
          obtain ⟨g', hshut', hreport'⟩ := Gate.exists_isFirstShut_of_read_eq_error hobject
          obtain rfl := hshut.unique hshut'
          rw [hreport.unique hreport']

/-- All gates are open for the bytes held under the address, which show the tree and its type. -/
structure Opens (state : σ) (a : Address) (data : Bytes) (n : Node) (type : Option String) :
    Prop where
  held : Backend.read state a.text = .ok (some data)
  version : a.version = 1
  hashed : Address.derive a.codec data = a
  codec : a.codec = .node
  canonical : Node.Canonical data n
  typed : n.child? typeField = type.map .string

theorem Opens.exists_object {state : σ} {a : Address} {data : Bytes} {n : Node}
    {type : Option String} (h : Opens state a data n type) :
    ∃ o, get state a = .ok o ∧ o.address = a ∧ o.data = data ∧ o.tree = n ∧
      o.declaredType = type := by
  have htype := Node.declaredType_eq_ok_iff.mpr h.typed
  refine ⟨⟨⟨a, data, h.hashed⟩, n, type, h.codec, h.canonical.encoded.symm, htype⟩, ?_, rfl, rfl,
    rfl, rfl⟩
  exact get_eq_ok_iff.mpr ⟨data, h.held,
    Object.read_eq_ok_iff.mpr ⟨h.version, h.hashed, h.codec, h.canonical, rfl, rfl⟩⟩

theorem opens_of_get {state : σ} {a : Address} {o : Object} (h : get state a = .ok o) :
    Opens state a o.data o.tree o.declaredType ∧ o.address = a := by
  obtain ⟨data, hread, hobject⟩ := get_eq_ok_iff.mp h
  obtain ⟨hversion, hderive, hcodec, hcanonical, ha, rfl⟩ := Object.read_eq_ok_iff.mp hobject
  exact ⟨⟨hread, hversion, hderive, hcodec, hcanonical,
    Node.declaredType_eq_ok_iff.mp o.declared⟩, ha⟩

/-- What a store answers for an address, by what its backend holds there. -/
theorem get_iff_gates (state : σ) (a : Address) :
    (∀ data n type, Opens state a data n type ↔
      ∃ o, get state a = .ok o ∧ o.data = data ∧ o.tree = n ∧ o.declaredType = type) ∧
      (∀ o, get state a = .ok o → o.address = a) ∧
      ∀ e, get state a = .error e ↔
        (∃ cause, Backend.read state a.text = .error cause ∧ e = .io cause) ∨
          ∃ held, Backend.read state a.text = .ok held ∧
            ∃ g : Gate, g.IsFirstShut a held ∧ g.Reports a held e := by
  refine ⟨fun data n type => ⟨fun h => ?_, ?_⟩, fun o h => (opens_of_get h).2,
    fun _ => get_eq_error_iff⟩
  · obtain ⟨o, hget, -, hdata, htree, htype⟩ := h.exists_object
    exact ⟨o, hget, hdata, htree, htype⟩
  · rintro ⟨o, hget, rfl, rfl, rfl⟩
    exact (opens_of_get hget).1

end Store

end ContentGraph
