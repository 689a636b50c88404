import ContentGraph.Proofs.NodeWire
import ContentGraph.Proofs.WireWalk

/-! The decoder reads one wire tree from the front of its input and answers with the tree that it
stands for. Where it answers with a tree at all, a wire tree stood there. -/

namespace ContentGraph

namespace Decoder

variable {α β ω : Type} {d : Decoder α} {fits : ω → Prop} {bytes : ω → Bytes}
  {value : ω → Except DecodeError α}

/-- The decoder reads the bytes of anything that fits, and answers with its value. -/
def Reads (d : Decoder α) (fits : ω → Prop) (bytes : ω → Bytes)
    (value : ω → Except DecodeError α) : Prop :=
  ∀ w, fits w → ∀ rest, d (bytes w ++ rest) = (fun a => (a, rest)) <$> value w

/-- Whatever the decoder answers with is the value of something that fits. -/
def ReadsOnly (d : Decoder α) (fits : ω → Prop) (bytes : ω → Bytes)
    (value : ω → Except DecodeError α) : Prop :=
  ∀ data a rest, d data = .ok (a, rest) → ∃ w, fits w ∧ data = bytes w ++ rest ∧ value w = .ok a

theorem bind_of_ok {f : α → Decoder β} {data rest : Bytes} {a : α} (h : d data = .ok (a, rest)) :
    (d >>= f) data = f a rest := by
  rw [show (d >>= f) data = (d data >>= fun p => f p.1 p.2) from rfl, h]
  rfl

theorem bind_of_error {f : α → Decoder β} {data : Bytes} {e : DecodeError}
    (h : d data = .error e) : (d >>= f) data = .error e := by
  rw [show (d >>= f) data = (d data >>= fun p => f p.1 p.2) from rfl, h]
  rfl

theorem bind_eq_ok {f : α → Decoder β} {data rest : Bytes} {b : β}
    (h : (d >>= f) data = .ok (b, rest)) :
    ∃ a middle, d data = .ok (a, middle) ∧ f a middle = .ok (b, rest) := by
  obtain ⟨⟨a, middle⟩, ha, hb⟩ := bind_eq_ok_iff.mp h
  exact ⟨a, middle, ha, hb⟩

theorem map_eq_ok {f : α → β} {data rest : Bytes} {b : β} (h : (f <$> d) data = .ok (b, rest)) :
    ∃ a, d data = .ok (a, rest) ∧ f a = b := by
  obtain ⟨a, middle, ha, hb⟩ := bind_eq_ok (f := fun a => pure (f a)) h
  cases hb
  exact ⟨a, ha, rfl⟩

theorem map_apply {f : α → β} {data rest : Bytes} {outcome : Except DecodeError α}
    (h : d data = (fun a => (a, rest)) <$> outcome) :
    (f <$> d) data = (fun b => (b, rest)) <$> (f <$> outcome) := by
  cases outcome with
  | ok a => exact bind_of_ok (f := fun a => pure (f a)) h
  | error e => exact bind_of_error (f := fun a => pure (f a)) h

theorem take_append (front back : Bytes) :
    take front.length (front ++ back) = .ok (front, back) := by
  simp only [take, splitExactly_append]

theorem take_eq_ok {n : Nat} {data front back : Bytes} (h : take n data = .ok (front, back)) :
    front.length = n ∧ data = front ++ back := by
  unfold take at h
  split at h
  · next hsplit =>
    cases h
    exact splitExactly_eq_some_iff.mp hsplit
  · cases h

theorem number_append (width : Nat) {n : Nat} (hn : n < 256 ^ width) (back : Bytes) :
    number width (littleEndian width n ++ back) = .ok (n, back) := by
  have htake := take_append (littleEndian width n) back
  rw [length_littleEndian] at htake
  have hnumber := bind_of_ok (f := fun front => pure (ofLittleEndian front)) htake
  rwa [ofLittleEndian_littleEndian, Nat.mod_eq_of_lt hn] at hnumber

theorem number_eq_ok {width n : Nat} {data back : Bytes} (h : number width data = .ok (n, back)) :
    n < 256 ^ width ∧ data = littleEndian width n ++ back := by
  obtain ⟨front, hfront, rfl⟩ := map_eq_ok h
  obtain ⟨rfl, rfl⟩ := take_eq_ok hfront
  exact ⟨ofLittleEndian_lt front, by rw [littleEndian_ofLittleEndian]⟩

theorem prefixedBytes_append {payload : Bytes} (h : payload.length < lengthLimit) (back : Bytes) :
    prefixedBytes (prefixed payload ++ back) = .ok (payload, back) := by
  rw [prefixed, List.append_assoc, lengthPrefix, prefixedBytes, bind_of_ok (number_append 8 h _),
    take_append]

theorem prefixedBytes_eq_ok {payload data back : Bytes}
    (h : prefixedBytes data = .ok (payload, back)) :
    payload.length < lengthLimit ∧ data = prefixed payload ++ back := by
  obtain ⟨n, middle, hn, htake⟩ := bind_eq_ok h
  obtain ⟨hlt, rfl⟩ := number_eq_ok hn
  obtain ⟨rfl, rfl⟩ := take_eq_ok htake
  exact ⟨hlt, (List.append_assoc _ _ _).symm⟩

/-- Interprets what the decoder reads. -/
def interpret (d : Decoder α) (g : α → Except DecodeError β) : Decoder β := fun data => do
  let (a, rest) ← d data
  let b ← g a
  return (b, rest)

theorem interpret_of_ok {g : α → Except DecodeError β} {data rest : Bytes} {a : α}
    (h : d data = .ok (a, rest)) : interpret d g data = (fun b => (b, rest)) <$> g a := by
  rw [interpret, h]
  rfl

theorem interpret_eq_ok {g : α → Except DecodeError β} {data rest : Bytes} {b : β}
    (h : interpret d g data = .ok (b, rest)) : ∃ a, d data = .ok (a, rest) ∧ g a = .ok b := by
  obtain ⟨⟨a, middle⟩, ha, h⟩ := bind_eq_ok_iff.mp h
  obtain ⟨b', hb, h⟩ := bind_eq_ok_iff.mp h
  cases h
  exact ⟨a, ha, hb⟩

theorem map_interpret {γ : Type} (f : β → γ) (g : α → Except DecodeError β) :
    f <$> interpret d g = interpret d fun a => f <$> g a := by
  funext data
  rw [show (f <$> interpret d g) data =
    (interpret d g data >>= fun p => pure (f p.1, p.2)) from rfl, interpret, interpret]
  cases d data with
  | error e => rfl
  | ok p =>
    show ((fun b => (b, p.2)) <$> g p.1 >>= fun p => pure (f p.1, p.2)) =
      (fun c => (c, p.2)) <$> f <$> g p.1
    cases g p.1 <;> rfl

theorem map_eq_interpret (f : α → β) : f <$> d = interpret d fun a => .ok (f a) := by
  funext data
  rw [show (f <$> d) data = (d data >>= fun p => pure (f p.1, p.2)) from rfl, interpret]
  cases d data <;> rfl

theorem text_eq_interpret : text = interpret prefixedBytes Wire.readText := by
  funext data
  rw [text, interpret]
  cases h : prefixedBytes data with
  | error e => exact bind_of_error h
  | ok p =>
    rw [bind_of_ok h]
    show _ = (fun s => (s, p.2)) <$> Wire.readText p.1
    rw [Wire.readText]
    cases textOfUtf8 p.1 <;> rfl

theorem address_eq_interpret : address = interpret prefixedBytes Wire.readAddress := by
  funext data
  rw [address, interpret]
  cases h : prefixedBytes data with
  | error e => exact bind_of_error h
  | ok p =>
    rw [bind_of_ok h]
    show _ = (fun a => (a, p.2)) <$> Wire.readAddress p.1
    rw [Wire.readAddress]
    cases Address.ofBytes p.1 <;> rfl

theorem bool_eq_interpret : bool = interpret (take 1) Wire.readBool := by
  funext data
  rw [bool, interpret]
  cases h : take 1 data with
  | error e => exact bind_of_error h
  | ok p =>
    rw [bind_of_ok h]
    obtain ⟨payload, rest⟩ := p
    show _ = (fun value => (value, rest)) <$> Wire.readBool payload
    dsimp only
    split
    · rfl
    · rfl
    · next hzero hone =>
      rw [Wire.readBool]
      · rfl
      · exact hzero
      · exact hone

theorem entry_eq_ok {item : Decoder Node} {data rest : Bytes} {e : String × Node}
    (h : entry item data = .ok (e, rest)) :
    ∃ middle, text data = .ok (e.1, middle) ∧ item middle = .ok (e.2, rest) := by
  obtain ⟨key, middle, hkey, h⟩ := bind_eq_ok h
  obtain ⟨n, rest', hn, h⟩ := bind_eq_ok h
  cases h
  exact ⟨middle, hkey, hn⟩

theorem replicate_reads (hd : Reads d fits bytes value) (ws : List ω) (hws : ∀ w ∈ ws, fits w)
    (rest : Bytes) :
    replicate d ws.length (ws.flatMap bytes ++ rest) = (fun as => (as, rest)) <$> ws.mapM value := by
  induction ws with
  | nil => rfl
  | cons w ws ih =>
    have hw := hd w (hws w List.mem_cons_self) (ws.flatMap bytes ++ rest)
    have hlater := ih fun v hv => hws v (List.mem_cons_of_mem _ hv)
    rw [List.length_cons, replicate, List.flatMap_cons, List.append_assoc, List.mapM_cons]
    cases hvalue : value w with
    | error e =>
      rw [hvalue] at hw
      rw [bind_of_error hw]
      rfl
    | ok a =>
      rw [hvalue] at hw
      rw [bind_of_ok hw]
      cases hvalues : ws.mapM value with
      | error e =>
        rw [hvalues] at hlater
        rw [bind_of_error hlater]
        rfl
      | ok as =>
        rw [hvalues] at hlater
        rw [bind_of_ok hlater]
        rfl

theorem replicate_readsOnly (hd : ReadsOnly d fits bytes value) {n : Nat} {data rest : Bytes}
    {as : List α} (h : replicate d n data = .ok (as, rest)) :
    ∃ ws : List ω, ws.length = n ∧ (∀ w ∈ ws, fits w) ∧ data = ws.flatMap bytes ++ rest ∧
      ws.mapM value = .ok as := by
  induction n generalizing data as with
  | zero => cases h; exact ⟨[], rfl, by simp, rfl, rfl⟩
  | succ n ih =>
    obtain ⟨a, middle, ha, h⟩ := bind_eq_ok h
    obtain ⟨as', rest', has, h⟩ := bind_eq_ok h
    cases h
    obtain ⟨w, hw, rfl, hvalue⟩ := hd _ _ _ ha
    obtain ⟨ws, rfl, hws, rfl, hvalues⟩ := ih has
    refine ⟨w :: ws, rfl, List.forall_mem_cons.mpr ⟨hw, hws⟩, ?_,
      mapM_cons_eq_ok_iff.mpr ⟨a, as', hvalue, hvalues, rfl⟩⟩
    rw [List.flatMap_cons, List.append_assoc]

/-- Reads as many values as a number before them says. -/
def counted (d : Decoder α) : Decoder (List α) := do
  replicate d (← number 8)

theorem counted_reads (hd : Reads d fits bytes value) {ws : List ω} (hlen : ws.length < lengthLimit)
    (hws : ∀ w ∈ ws, fits w) (rest : Bytes) :
    counted d (lengthPrefix ws.length ++ ws.flatMap bytes ++ rest) =
      (fun as => (as, rest)) <$> ws.mapM value := by
  rw [counted, List.append_assoc, lengthPrefix, bind_of_ok (number_append 8 hlen _),
    replicate_reads hd ws hws rest]

theorem counted_readsOnly (hd : ReadsOnly d fits bytes value) {data rest : Bytes} {as : List α}
    (h : counted d data = .ok (as, rest)) :
    ∃ ws : List ω, ws.length < lengthLimit ∧ (∀ w ∈ ws, fits w) ∧
      data = lengthPrefix ws.length ++ ws.flatMap bytes ++ rest ∧ ws.mapM value = .ok as := by
  obtain ⟨n, middle, hn, h⟩ := bind_eq_ok h
  obtain ⟨hlt, hdata⟩ := number_eq_ok hn
  obtain ⟨ws, hlen, hws, hmiddle, hvalues⟩ := replicate_readsOnly hd h
  subst hdata hlen hmiddle
  exact ⟨ws, hlt, hws, (List.append_assoc _ _ _).symm, hvalues⟩

/-- Reads what stands behind a tag. -/
def behind (depth : Nat) : NodeKind → Decoder Node
  | .list => .list <$> counted (node depth)
  | .map => (fun entries => .map (Entries.ofList entries)) <$> counted (entry (node depth))
  | kind =>
    match kind.layout with
    | .fixed size => interpret (take size) (Wire.leaf kind)
    | _ => interpret prefixedBytes (Wire.leaf kind)

theorem node_succ (depth : Nat) :
    node (depth + 1) = number 4 >>= fun tag =>
      match NodeKind.ofTag? tag with
      | none => throw (.unknownTag tag)
      | some kind => behind depth kind := by
  rw [node]
  congr 1
  funext tag
  cases NodeKind.ofTag? tag with
  | none => rfl
  | some kind =>
    cases kind with
    | null => rfl
    | bool =>
      rw [bool_eq_interpret]
      exact map_interpret _ _
    | integer => exact (comp_map _ _ (take 8)).symm.trans (map_eq_interpret _)
    | float => exact (comp_map _ _ (take 8)).symm.trans (map_eq_interpret _)
    | string =>
      rw [text_eq_interpret]
      exact map_interpret _ _
    | bytes => exact map_eq_interpret _
    | link =>
      rw [address_eq_interpret]
      exact map_interpret _ _
    | list => exact (map_bind _ _ _).symm
    | map => exact (map_bind _ _ _).symm

theorem nesting_lt_of_mem {isMap : Bool} {parts : List (Bytes × Wire)} {depth : Nat}
    (h : (Wire.container isMap parts).nesting < depth + 1) {p : Bytes × Wire} (hp : p ∈ parts) :
    p.2.nesting < depth := by
  rw [Wire.nesting] at h
  exact Wire.nestingOfParts_le_iff.mp (Nat.le_of_lt_succ h) p hp

theorem entry_reads {depth : Nat}
    (h : Reads (node depth) (fun w => w.Fits ∧ w.nesting < depth) Wire.encode Wire.tree) :
    Reads (entry (node depth))
      (fun p => p.1.length < lengthLimit ∧ p.2.Fits ∧ p.2.nesting < depth)
      (fun p => prefixed p.1 ++ p.2.encode) Wire.entry := by
  intro p hp rest
  have htext := interpret_of_ok (g := Wire.readText) (prefixedBytes_append hp.1 (p.2.encode ++ rest))
  have hvalue := h p.2 hp.2 rest
  rw [← text_eq_interpret] at htext
  rw [List.append_assoc, entry, Wire.entry]
  cases hkey : Wire.readText p.1 with
  | error e =>
    rw [hkey] at htext
    exact bind_of_error htext
  | ok key =>
    rw [hkey] at htext
    rw [bind_of_ok htext]
    cases hn : p.2.tree with
    | error e =>
      rw [hn] at hvalue
      exact bind_of_error hvalue
    | ok n =>
      rw [hn] at hvalue
      exact bind_of_ok hvalue

theorem partsBytes_eq (isMap : Bool) (parts : List (Bytes × Wire)) :
    Wire.partsBytes isMap parts = parts.flatMap fun p => Wire.keyBytes isMap p.1 ++ p.2.encode := by
  induction parts with
  | nil => rfl
  | cons p rest ih => rw [Wire.partsBytes_cons, ih, List.flatMap_cons, List.append_assoc]

theorem node_reads (depth : Nat) :
    Reads (node depth) (fun w => w.Fits ∧ w.nesting < depth) Wire.encode Wire.tree := by
  induction depth with
  | zero => exact fun w hw => absurd hw.2 (Nat.not_lt_zero _)
  | succ depth ih =>
    intro w ⟨hfits, hnesting⟩ rest
    have htag := number_append 4 w.kind.tag_lt (w.content ++ rest)
    rw [node_succ, Wire.encode, List.append_assoc, NodeKind.tagBytes, bind_of_ok htag,
      NodeKind.ofTag?_tag]
    dsimp only
    cases w with
    | fixed kind payload =>
      have hlayout : kind.layout = .fixed payload.length := hfits
      have hbehind : behind depth kind = interpret (take payload.length) (Wire.leaf kind) := by
        cases kind <;> simp_all [behind, NodeKind.layout]
      rw [Wire.kind, hbehind]
      exact interpret_of_ok (take_append payload rest)
    | prefixed kind payload =>
      have hbehind : behind depth kind = interpret prefixedBytes (Wire.leaf kind) := by
        have hlayout := hfits.1
        cases kind <;> simp_all [behind, NodeKind.layout]
      rw [Wire.kind, hbehind]
      exact interpret_of_ok (prefixedBytes_append hfits.2 rest)
    | container isMap parts =>
      have hparts := Wire.fitsParts_iff.mp hfits.2
      rw [Wire.content, partsBytes_eq]
      cases isMap with
      | false =>
        have hitem : Reads (node depth) (fun p : Bytes × Wire => p.2.Fits ∧ p.2.nesting < depth)
          (fun p => Wire.keyBytes false p.1 ++ p.2.encode) (fun p => p.2.tree) := fun p => ih p.2
        rw [Wire.tree, Wire.items_eq]
        exact map_apply (counted_reads hitem hfits.1
          (fun p hp => ⟨(hparts p hp).2, nesting_lt_of_mem hnesting hp⟩) rest)
      | true =>
        rw [Wire.tree, Wire.entries_eq]
        exact map_apply (counted_reads (entry_reads ih) hfits.1
          (fun p hp => ⟨(hparts p hp).1, (hparts p hp).2, nesting_lt_of_mem hnesting hp⟩) rest)

theorem text_readsOnly :
    ReadsOnly text (fun key => key.length < lengthLimit) prefixed Wire.readText := by
  intro data key rest h
  rw [text_eq_interpret] at h
  obtain ⟨payload, hpayload, hkey⟩ := interpret_eq_ok h
  obtain ⟨hlen, rfl⟩ := prefixedBytes_eq_ok hpayload
  exact ⟨payload, hlen, rfl, hkey⟩

theorem entry_readsOnly {item : Decoder Node} (h : ReadsOnly item Wire.Fits Wire.encode Wire.tree) :
    ReadsOnly (entry item) (fun p => p.1.length < lengthLimit ∧ p.2.Fits)
      (fun p => prefixed p.1 ++ p.2.encode) Wire.entry := by
  intro data e rest he
  obtain ⟨middle, htext, hitem⟩ := entry_eq_ok he
  obtain ⟨key, hlen, hdata, hkey⟩ := text_readsOnly _ _ _ htext
  obtain ⟨w, hw, hmiddle, hvalue⟩ := h _ _ _ hitem
  subst hdata hmiddle
  refine ⟨(key, w), ⟨hlen, hw⟩, (List.append_assoc _ _ _).symm, ?_⟩
  exact Wire.entry_eq_ok_iff.mpr ⟨Wire.readText_eq_ok_iff.mp hkey, hvalue⟩

theorem behind_readsOnly {depth : Nat} (ih : ReadsOnly (node depth) Wire.Fits Wire.encode Wire.tree)
    {kind : NodeKind} {data rest : Bytes} {n : Node} (h : behind depth kind data = .ok (n, rest)) :
    ∃ w : Wire, w.kind = kind ∧ w.Fits ∧ data = w.content ++ rest ∧ w.tree = .ok n := by
  cases hlayout : kind.layout with
  | fixed size =>
    have hbehind : behind depth kind = interpret (take size) (Wire.leaf kind) := by
      cases kind <;> simp_all [behind, NodeKind.layout]
    rw [hbehind] at h
    obtain ⟨payload, htake, hn⟩ := interpret_eq_ok h
    obtain ⟨hlen, hdata⟩ := take_eq_ok htake
    subst hlen
    exact ⟨.fixed kind payload, rfl, hlayout, hdata, hn⟩
  | prefixed =>
    have hbehind : behind depth kind = interpret prefixedBytes (Wire.leaf kind) := by
      cases kind <;> simp_all [behind, NodeKind.layout]
    rw [hbehind] at h
    obtain ⟨payload, hpayload, hn⟩ := interpret_eq_ok h
    obtain ⟨hlen, hdata⟩ := prefixedBytes_eq_ok hpayload
    exact ⟨.prefixed kind payload, rfl, ⟨hlayout, hlen⟩, hdata, hn⟩
  | container isMap =>
    cases kind with
    | list =>
      obtain ⟨ns, hns, hn⟩ := map_eq_ok h
      obtain ⟨ws, hlen, hws, hdata, hvalues⟩ := counted_readsOnly ih hns
      refine ⟨.container false (ws.map fun w => ([], w)), rfl, ⟨by simpa using hlen, ?_⟩, ?_, ?_⟩
      · rw [Wire.fitsParts_iff, List.forall_mem_map]
        exact fun w hw => ⟨rfl, hws w hw⟩
      · rw [hdata, Wire.content, partsBytes_eq, List.length_map, List.flatMap_map]
        rfl
      · rw [Wire.tree, Wire.items_eq, List.mapM_map]
        exact map_eq_ok_iff.mpr ⟨ns, hvalues, hn⟩
    | map =>
      obtain ⟨es, hes, hn⟩ := map_eq_ok h
      obtain ⟨parts, hlen, hparts, hdata, hvalues⟩ := counted_readsOnly (entry_readsOnly ih) hes
      refine ⟨.container true parts, rfl, ⟨hlen, Wire.fitsParts_iff.mpr hparts⟩, ?_, ?_⟩
      · rw [hdata, Wire.content, partsBytes_eq]
        rfl
      · rw [Wire.tree, Wire.entries_eq]
        exact map_eq_ok_iff.mpr ⟨es, hvalues, hn⟩
    | _ => cases hlayout

theorem node_readsOnly (depth : Nat) :
    ReadsOnly (node depth) Wire.Fits Wire.encode Wire.tree := by
  induction depth with
  | zero => intro _ _ _ h; cases h
  | succ depth ih =>
    intro data n rest h
    rw [node_succ] at h
    obtain ⟨tag, middle, htag, hbehind⟩ := bind_eq_ok h
    obtain ⟨-, hdata⟩ := number_eq_ok htag
    cases hkind : NodeKind.ofTag? tag with
    | none => rw [hkind] at hbehind; cases hbehind
    | some kind =>
      rw [hkind] at hbehind
      obtain ⟨w, rfl, hw, hmiddle, hn⟩ := behind_readsOnly ih hbehind
      refine ⟨w, hw, ?_, hn⟩
      rw [hdata, hmiddle, Wire.encode, NodeKind.tagBytes, List.append_assoc,
        NodeKind.tag_of_ofTag? hkind]

end Decoder

end ContentGraph
