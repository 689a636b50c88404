import ContentGraph.NodeEncoding
import Mathlib.Algebra.Group.Nat.Defs

/-! What the bytes of a tree show before anything in them is interpreted. A flag may be any byte, a
text need not be UTF-8, a link need not be an address, and the keys of a map stand in any order and
may repeat. No such bytes are a prefix of others, so every byte string begins with at most one. -/

namespace ContentGraph

/-- The least length that has no length prefix. -/
def lengthLimit : Nat := 2 ^ 64

theorem ofLittleEndian_littleEndian (width n : Nat) :
    ofLittleEndian (littleEndian width n) = n % 256 ^ width := by
  induction width generalizing n with
  | zero => simp [littleEndian, ofLittleEndian, Nat.mod_one]
  | succ width ih =>
    have hlow : (UInt8.ofNat n).toNat = n % 256 := UInt8.toNat_ofNat'
    rw [littleEndian, ofLittleEndian, ih, hlow, Nat.pow_succ', Nat.mod_mul]

theorem ofLittleEndian_lt (data : Bytes) : ofLittleEndian data < 256 ^ data.length := by
  induction data with
  | nil => exact Nat.one_pos
  | cons b rest ih =>
    have hb := b.toNat_lt
    rw [ofLittleEndian, List.length_cons, Nat.pow_succ]
    omega

theorem littleEndian_ofLittleEndian (data : Bytes) :
    littleEndian data.length (ofLittleEndian data) = data := by
  induction data with
  | nil => rfl
  | cons b rest ih =>
    have hb := b.toNat_lt
    have hdiv : (b.toNat + 256 * ofLittleEndian rest) / 256 = ofLittleEndian rest := by omega
    have hlow : UInt8.ofNat (b.toNat + 256 * ofLittleEndian rest) = b :=
      UInt8.toNat_inj.mp (by rw [UInt8.toNat_ofNat']; omega)
    simp [littleEndian, ofLittleEndian, hdiv, hlow, ih]

theorem littleEndian_injective {width m n : Nat} (hm : m < 256 ^ width) (hn : n < 256 ^ width)
    (h : littleEndian width m = littleEndian width n) : m = n := by
  have hh := congrArg ofLittleEndian h
  rwa [ofLittleEndian_littleEndian, ofLittleEndian_littleEndian, Nat.mod_eq_of_lt hm,
    Nat.mod_eq_of_lt hn] at hh

@[simp] theorem length_lengthPrefix (n : Nat) : (lengthPrefix n).length = 8 :=
  length_littleEndian 8 n

@[simp] theorem NodeKind.length_tagBytes (kind : NodeKind) : kind.tagBytes.length = 4 :=
  length_littleEndian 4 kind.tag

theorem lengthPrefix_append_inj {m n : Nat} {x y : Bytes} (hm : m < lengthLimit)
    (hn : n < lengthLimit) (h : lengthPrefix m ++ x = lengthPrefix n ++ y) : m = n ∧ x = y := by
  obtain ⟨hlen, hrest⟩ := List.append_inj h (by simp)
  exact ⟨littleEndian_injective hm hn hlen, hrest⟩

theorem prefixed_append_inj {a b x y : Bytes} (ha : a.length < lengthLimit)
    (hb : b.length < lengthLimit) (h : prefixed a ++ x = prefixed b ++ y) : a = b ∧ x = y := by
  rw [prefixed, prefixed, List.append_assoc, List.append_assoc] at h
  obtain ⟨hlen, hrest⟩ := lengthPrefix_append_inj ha hb h
  exact List.append_inj hrest hlen

namespace NodeKind

@[simp] theorem ofTag?_tag (kind : NodeKind) : ofTag? kind.tag = some kind := by
  cases kind <;> rfl

theorem tag_of_ofTag? {tag : Nat} {kind : NodeKind} (h : ofTag? tag = some kind) :
    kind.tag = tag := by
  unfold ofTag? at h
  split at h <;> cases h <;> rfl

theorem tag_lt (kind : NodeKind) : kind.tag < 256 ^ 4 := by
  cases kind <;> decide

theorem tagBytes_append_inj {k l : NodeKind} {x y : Bytes}
    (h : k.tagBytes ++ x = l.tagBytes ++ y) : k = l ∧ x = y := by
  obtain ⟨htag, hrest⟩ := List.append_inj h (by simp)
  have htag := littleEndian_injective k.tag_lt l.tag_lt htag
  refine ⟨Option.some.inj ?_, hrest⟩
  rw [← ofTag?_tag k, htag, ofTag?_tag]

end NodeKind

/-- The parts of a list have no keys, which are empty then and are not written. -/
inductive Wire
  | fixed (kind : NodeKind) (payload : Bytes)
  | prefixed (kind : NodeKind) (payload : Bytes)
  | container (isMap : Bool) (parts : List (Bytes × Wire))

namespace Wire

@[elab_as_elim, induction_eliminator]
theorem tree_induction {motive : Wire → Prop}
    (fixed : ∀ kind payload, motive (.fixed kind payload))
    (prefixed : ∀ kind payload, motive (.prefixed kind payload))
    (container : ∀ isMap parts, (∀ p ∈ parts, motive p.2) → motive (.container isMap parts))
    (w : Wire) : motive w :=
  match w with
  | .fixed kind payload => fixed kind payload
  | .prefixed kind payload => prefixed kind payload
  | .container isMap parts =>
    container isMap parts fun p _ => tree_induction fixed prefixed container p.2
decreasing_by
  have := List.sizeOf_lt_of_mem ‹p ∈ parts›
  obtain ⟨key, w⟩ := p
  simp only [Wire.container.sizeOf_spec, Prod.mk.sizeOf_spec] at *
  omega

def kind : Wire → NodeKind
  | .fixed kind _ | .prefixed kind _ => kind
  | .container isMap _ => if isMap then .map else .list

def layout : Wire → Layout
  | .fixed _ payload => .fixed payload.length
  | .prefixed _ _ => .prefixed
  | .container isMap _ => .container isMap

def keyBytes (isMap : Bool) (key : Bytes) : Bytes :=
  if isMap then ContentGraph.prefixed key else []

mutual

/-- What stands behind the tag. -/
def content : Wire → Bytes
  | .fixed _ payload => payload
  | .prefixed _ payload => ContentGraph.prefixed payload
  | .container isMap parts => lengthPrefix parts.length ++ partsBytes isMap parts

def partsBytes (isMap : Bool) : List (Bytes × Wire) → Bytes
  | [] => []
  | (key, w) :: rest =>
    keyBytes isMap key ++ ((kind w).tagBytes ++ content w ++ partsBytes isMap rest)

end

def encode (w : Wire) : Bytes :=
  w.kind.tagBytes ++ w.content

theorem partsBytes_cons (isMap : Bool) (key : Bytes) (w : Wire) (rest : List (Bytes × Wire)) :
    partsBytes isMap ((key, w) :: rest) =
      keyBytes isMap key ++ (w.encode ++ partsBytes isMap rest) := by
  rw [partsBytes, encode]

mutual

/-- Every payload has the layout of its kind, every length fits its prefix, and lists have no keys. -/
def Fits : Wire → Prop
  | .fixed kind payload => kind.layout = .fixed payload.length
  | .prefixed kind payload => kind.layout = .prefixed ∧ payload.length < lengthLimit
  | .container isMap parts => parts.length < lengthLimit ∧ FitsParts isMap parts

def FitsParts (isMap : Bool) : List (Bytes × Wire) → Prop
  | [] => True
  | (key, w) :: rest =>
    (if isMap then key.length < lengthLimit else key = []) ∧ Fits w ∧ FitsParts isMap rest

end

mutual

/-- How deep the non-empty lists and maps nest. -/
def nesting : Wire → Nat
  | .fixed _ _ | .prefixed _ _ => 0
  | .container _ parts => nestingOfParts parts

def nestingOfParts : List (Bytes × Wire) → Nat
  | [] => 0
  | (_, w) :: rest => max (nesting w + 1) (nestingOfParts rest)

end

theorem fitsParts_iff {isMap : Bool} {parts : List (Bytes × Wire)} :
    FitsParts isMap parts ↔
      ∀ p ∈ parts, (if isMap then p.1.length < lengthLimit else p.1 = []) ∧ p.2.Fits := by
  induction parts with
  | nil => simp [FitsParts]
  | cons p rest ih => simp [FitsParts, ih, and_assoc]

theorem nestingOfParts_le_iff {parts : List (Bytes × Wire)} {limit : Nat} :
    nestingOfParts parts ≤ limit ↔ ∀ p ∈ parts, p.2.nesting < limit := by
  induction parts with
  | nil => simp [nestingOfParts]
  | cons p rest ih =>
    rw [nestingOfParts, Nat.max_le, ih, List.forall_mem_cons]
    rfl

theorem encode_infix_partsBytes (isMap : Bool) {parts : List (Bytes × Wire)} {p : Bytes × Wire}
    (hp : p ∈ parts) : keyBytes isMap p.1 ++ p.2.encode <:+: partsBytes isMap parts := by
  induction parts with
  | nil => cases hp
  | cons q rest ih =>
    rw [partsBytes_cons, ← List.append_assoc]
    rcases List.mem_cons.mp hp with rfl | hp
    · exact (List.prefix_append _ _).isInfix
    · exact (ih hp).trans (List.suffix_append _ _).isInfix

theorem Fits.layout_kind {w : Wire} (h : w.Fits) : w.kind.layout = w.layout := by
  cases w with
  | fixed kind payload => exact h
  | prefixed kind payload => exact h.1
  | container isMap => cases isMap <;> rfl

theorem content_append_of_encode_append {w v : Wire} {x y : Bytes} (hw : w.Fits) (hv : v.Fits)
    (h : w.encode ++ x = v.encode ++ y) :
    w.kind = v.kind ∧ w.layout = v.layout ∧ w.content ++ x = v.content ++ y := by
  rw [encode, encode, List.append_assoc, List.append_assoc] at h
  obtain ⟨hkind, hcontent⟩ := NodeKind.tagBytes_append_inj h
  exact ⟨hkind, by rw [← hw.layout_kind, hkind, hv.layout_kind], hcontent⟩

theorem keyBytes_append_inj {isMap : Bool} {key other x y : Bytes}
    (hkey : if isMap then key.length < lengthLimit else key = [])
    (hother : if isMap then other.length < lengthLimit else other = [])
    (h : keyBytes isMap key ++ x = keyBytes isMap other ++ y) : key = other ∧ x = y := by
  cases isMap with
  | true => exact prefixed_append_inj hkey hother h
  | false => exact ⟨Eq.trans hkey (Eq.symm hother), h⟩

theorem partsBytes_append_inj {isMap : Bool} {parts others : List (Bytes × Wire)} {x y : Bytes}
    (ih : ∀ p ∈ parts, ∀ {v : Wire} {x y : Bytes}, p.2.Fits → v.Fits →
      p.2.encode ++ x = v.encode ++ y → p.2 = v ∧ x = y)
    (hlen : parts.length = others.length) (hparts : FitsParts isMap parts)
    (hothers : FitsParts isMap others)
    (h : partsBytes isMap parts ++ x = partsBytes isMap others ++ y) : parts = others ∧ x = y := by
  induction parts generalizing others with
  | nil =>
    obtain rfl : others = [] := List.length_eq_zero_iff.mp hlen.symm
    exact ⟨rfl, h⟩
  | cons p rest ihrest =>
    obtain ⟨key, w⟩ := p
    obtain _ | ⟨⟨key', v⟩, others⟩ := others
    · cases hlen
    · simp only [partsBytes_cons, List.append_assoc] at h
      obtain ⟨rfl, hvalue⟩ := keyBytes_append_inj hparts.1 hothers.1 h
      obtain ⟨rfl, hrest⟩ := ih (key, w) (by simp) hparts.2.1 hothers.2.1 hvalue
      obtain ⟨rfl, hend⟩ := ihrest (fun p hp => ih p (by simp [hp])) (Nat.succ.inj hlen)
        hparts.2.2 hothers.2.2 hrest
      exact ⟨rfl, hend⟩

/-- No encoding is a prefix of another one. -/
theorem encode_append_inj {w v : Wire} {x y : Bytes} (hw : w.Fits) (hv : v.Fits)
    (h : w.encode ++ x = v.encode ++ y) : w = v ∧ x = y := by
  induction w generalizing v x y with
  | fixed kind payload =>
    obtain ⟨hkind, hlayout, hcontent⟩ := content_append_of_encode_append hw hv h
    cases v with
    | fixed kind' payload' =>
      obtain rfl : kind = kind' := hkind
      obtain ⟨rfl, hrest⟩ := List.append_inj hcontent (Layout.fixed.inj hlayout)
      exact ⟨rfl, hrest⟩
    | _ => cases hlayout
  | prefixed kind payload =>
    obtain ⟨hkind, hlayout, hcontent⟩ := content_append_of_encode_append hw hv h
    cases v with
    | prefixed kind' payload' =>
      obtain rfl : kind = kind' := hkind
      obtain ⟨rfl, hrest⟩ := prefixed_append_inj hw.2 hv.2 hcontent
      exact ⟨rfl, hrest⟩
    | _ => cases hlayout
  | container isMap parts ih =>
    obtain ⟨-, hlayout, hcontent⟩ := content_append_of_encode_append hw hv h
    cases v with
    | container isMap' others =>
      obtain rfl : isMap = isMap' := Layout.container.inj hlayout
      simp only [content, List.append_assoc] at hcontent
      obtain ⟨hlen, hparts⟩ := lengthPrefix_append_inj hw.1 hv.1 hcontent
      obtain ⟨rfl, hrest⟩ := partsBytes_append_inj ih hlen hw.2 hv.2 hparts
      exact ⟨rfl, hrest⟩
    | _ => cases hlayout

end Wire

end ContentGraph
