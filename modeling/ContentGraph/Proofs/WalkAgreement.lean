import ContentGraph.Proofs.CanonicalBytes

/-! Whatever the walk goes over to its end is a wire tree, so the walk and the decoder see the same
structure in all bytes. What the walk accepts, the decoder can only fail to interpret, and what the
decoder reads, the walk can only find too deep. -/

namespace ContentGraph

namespace Cursor

variable {c next : Cursor}

theorem take_eq_ok {n : Nat} {front : Bytes} (h : c.take n = .ok (front, next)) :
    front.length = n ∧ c.rest = front ++ next.rest := by
  unfold take at h
  split at h
  · next hsplit =>
    cases h
    exact splitExactly_eq_some_iff.mp hsplit
  · cases h

theorem skip_eq_ok {n : Nat} (h : c.skip n = .ok next) :
    ∃ front : Bytes, front.length = n ∧ c.rest = front ++ next.rest := by
  obtain ⟨⟨front, _⟩, htake, hnext⟩ := bind_eq_ok_iff.mp h
  cases hnext
  exact ⟨front, take_eq_ok htake⟩

theorem number_eq_ok {width n : Nat} (h : c.number width = .ok (n, next)) :
    n < 256 ^ width ∧ c.rest = littleEndian width n ++ next.rest := by
  obtain ⟨⟨front, _⟩, htake, hnext⟩ := bind_eq_ok_iff.mp h
  cases hnext
  obtain ⟨rfl, hrest⟩ := take_eq_ok htake
  exact ⟨ofLittleEndian_lt front, by rw [littleEndian_ofLittleEndian, hrest]⟩

theorem skipPrefixed_eq_ok (h : c.skipPrefixed = .ok next) :
    ∃ payload : Bytes, payload.length < lengthLimit ∧ c.rest = prefixed payload ++ next.rest := by
  obtain ⟨⟨n, middle⟩, hnumber, hskip⟩ := bind_eq_ok_iff.mp h
  obtain ⟨hlt, hrest⟩ := number_eq_ok hnumber
  obtain ⟨payload, rfl, hmiddle⟩ := skip_eq_ok hskip
  exact ⟨payload, hlt, by rw [hrest, hmiddle, prefixed, lengthPrefix, List.append_assoc]⟩

end Cursor

theorem NodeKind.kind_container {kind : NodeKind} {isMap : Bool} (h : kind.layout = .container isMap)
    (parts : List (Bytes × Wire)) : (Wire.container isMap parts).kind = kind := by
  cases kind <;> cases h <;> rfl

namespace Walk

/-- So many parts stand at the front, and what is behind them meets a condition. -/
def PartsBefore (isMap : Bool) (count : Nat) (behind : Bytes → Prop) (data : Bytes) : Prop :=
  ∃ parts rest, parts.length = count ∧ Wire.FitsParts isMap parts ∧
    data = Wire.partsBytes isMap parts ++ rest ∧ behind rest

/-- What stands behind a value completes the open containers. -/
def Completes : List Frame → Bytes → Prop
  | [], _ => True
  | frame :: outer, data => PartsBefore frame.isMap (frame.remaining - 1) (Completes outer) data

/-- A value stands where the walk is, and what is behind it completes the open containers. -/
def Begins (w : Walk) : Prop :=
  ∃ (tree : Wire) (rest : Bytes), tree.Fits ∧ w.cursor.rest = tree.encode ++ rest ∧
    Completes w.opened rest

variable {limit : Nat} {c : Cursor} {frame : Frame} {outer opened : List Frame}
  {reached : Option Walk}

theorem partsBefore_of_enter (hframe : frame.remaining ≠ 0)
    (h : enter c frame outer = .ok reached) (hreached : ∀ w ∈ reached, w.Begins) :
    PartsBefore frame.isMap frame.remaining (Completes outer) c.rest := by
  obtain ⟨isMap, remaining⟩ := frame
  obtain ⟨key, next, hkey, hrest, hnext⟩ : ∃ key next,
      (if isMap then key.length < lengthLimit else key = []) ∧
        c.rest = Wire.keyBytes isMap key ++ next.rest ∧
          Begins ⟨next, ⟨isMap, remaining⟩ :: outer⟩ := by
    cases isMap with
    | true =>
      obtain ⟨next, hskip, hnext⟩ := bind_eq_ok_iff.mp h
      obtain ⟨key, hkey, hrest⟩ := Cursor.skipPrefixed_eq_ok hskip
      cases hnext
      exact ⟨key, next, hkey, hrest, hreached _ rfl⟩
    | false =>
      cases h
      exact ⟨[], c, rfl, rfl, hreached _ rfl⟩
  obtain ⟨tree, _, htree, hdata, parts, rest, hcount, hparts, rfl, hbehind⟩ := hnext
  refine ⟨(key, tree) :: parts, rest, ?_, ⟨hkey, htree, hparts⟩, ?_, hbehind⟩
  · simp only at hcount hframe ⊢
    rw [List.length_cons]
    omega
  · rw [hrest, hdata, Wire.partsBytes_cons, List.append_assoc, List.append_assoc]

theorem completes_of_close (h : close c opened = .ok reached) (hreached : ∀ w ∈ reached, w.Begins) :
    Completes opened c.rest := by
  induction opened with
  | nil => trivial
  | cons frame outer ih =>
    simp only [close] at h
    split at h
    · next hlast => exact ⟨[], c.rest, hlast.symm, trivial, rfl, ih h⟩
    · next hmore => exact partsBefore_of_enter hmore h hreached

/-- One step back: where the walk goes on to a value, it came from one. -/
theorem begins_of_step {w : Walk} (h : w.step limit = .ok reached)
    (hreached : ∀ next ∈ reached, next.Begins) : w.Begins := by
  obtain ⟨⟨tag, c⟩, htag, hpayload⟩ := bind_eq_ok_iff.mp h
  obtain ⟨-, hrest⟩ := Cursor.number_eq_ok htag
  dsimp only at hpayload
  cases hkind : NodeKind.ofTag? tag with
  | none => rw [hkind] at hpayload; cases hpayload
  | some kind =>
    rw [hkind] at hpayload
    dsimp only at hpayload
    rw [← NodeKind.tag_of_ofTag? hkind] at hrest
    -- It is enough to find what stands behind the tag.
    suffices hcontent : ∃ (tree : Wire) (rest : Bytes), tree.Fits ∧ tree.kind = kind ∧
        c.rest = tree.content ++ rest ∧ Completes w.opened rest by
      obtain ⟨tree, rest, hfits, rfl, hdata, hbehind⟩ := hcontent
      exact ⟨tree, rest, hfits, by rw [hrest, hdata, Wire.encode, List.append_assoc]; rfl, hbehind⟩
    cases hlayout : kind.layout with
    | fixed size =>
      rw [hlayout] at hpayload
      obtain ⟨next, hskip, hclose⟩ := bind_eq_ok_iff.mp hpayload
      obtain ⟨payload, rfl, hdata⟩ := Cursor.skip_eq_ok hskip
      exact ⟨.fixed kind payload, next.rest, hlayout, rfl, hdata, completes_of_close hclose hreached⟩
    | prefixed =>
      rw [hlayout] at hpayload
      obtain ⟨next, hskip, hclose⟩ := bind_eq_ok_iff.mp hpayload
      obtain ⟨payload, hlength, hdata⟩ := Cursor.skipPrefixed_eq_ok hskip
      exact ⟨.prefixed kind payload, next.rest, ⟨hlayout, hlength⟩, rfl, hdata,
        completes_of_close hclose hreached⟩
    | container isMap =>
      rw [hlayout] at hpayload
      obtain ⟨⟨count, next⟩, hnumber, hopen⟩ := bind_eq_ok_iff.mp hpayload
      obtain ⟨hcount, hnext⟩ := Cursor.number_eq_ok hnumber
      obtain ⟨parts, rest, rfl, hparts, hdata, hbehind⟩ :
          PartsBefore isMap count (Completes w.opened) next.rest := by
        simp only [openContainer] at hopen
        split at hopen
        · next hempty =>
          exact ⟨[], next.rest, hempty.symm, trivial, rfl, completes_of_close hopen hreached⟩
        · next hmore =>
          split at hopen
          · cases hopen
          · exact partsBefore_of_enter hmore hopen hreached
      refine ⟨.container isMap parts, rest, ⟨hcount, hparts⟩, NodeKind.kind_container hlayout parts,
        ?_, hbehind⟩
      rw [hnext, hdata, Wire.content, List.append_assoc, lengthPrefix]

theorem begins_of_run {w : Walk} (h : run limit w = .ok ()) : w.Begins := by
  fun_induction run limit w with
  | case1 w e hstep => cases h
  | case2 w hstep => exact begins_of_step hstep fun _ hnone => nomatch hnone
  | case3 w next hstep ih =>
    refine begins_of_step hstep fun _ hnext => ?_
    obtain rfl := Option.some.inj hnext
    exact ih h

end Walk

/-- The walk accepts exactly the bytes that begin with a tree which nests no deeper than the limit. -/
theorem checkDepth_eq_ok_iff {limit : Nat} {data : Bytes} :
    checkDepth limit data = .ok () ↔
      ∃ (w : Wire) (rest : Bytes), w.Fits ∧ w.nesting ≤ limit ∧ data = w.encode ++ rest := by
  constructor
  · intro h
    obtain ⟨w, rest, hw, hdata, -⟩ := Walk.begins_of_run h
    refine ⟨w, rest, hw, ?_, hdata⟩
    simp only at hdata
    rw [hdata, checkDepth_append hw] at h
    by_cases hnesting : w.nesting ≤ limit
    · exact hnesting
    · rw [if_neg hnesting] at h
      cases h
  · rintro ⟨w, rest, hw, hnesting, rfl⟩
    rw [checkDepth_append hw, if_pos hnesting]

namespace Wire

/-- The faults that bytes of a sound structure may have. -/
inductive Misread (data : Bytes) : DecodeError → Prop
  | flag {b : UInt8} (hb : b ∈ data) (hzero : b ≠ 0) (hone : b ≠ 1) : Misread data (.badBool b)
  | text {payload : Bytes} {cause : Utf8Error} (hin : payload <:+: data)
    (h : textOfUtf8 payload = .error cause) : Misread data (.badText cause)
  | link {payload : Bytes} {cause : AddressError} (hin : payload <:+: data)
    (h : Address.ofBytes payload = .error cause) : Misread data (.badLink cause)

theorem Misread.mono {data more : Bytes} {e : DecodeError} (h : Misread data e)
    (hin : data <:+: more) : Misread more e := by
  cases h with
  | flag hb hzero hone => exact .flag (hin.subset hb) hzero hone
  | text hpayload h => exact .text (hpayload.trans hin) h
  | link hpayload h => exact .link (hpayload.trans hin) h

theorem content_infix_encode (w : Wire) : w.content <:+: w.encode :=
  (List.suffix_append _ _).isInfix

theorem infix_prefixed (payload : Bytes) : payload <:+: ContentGraph.prefixed payload :=
  (List.suffix_append _ _).isInfix

theorem misread_of_readText {key : Bytes} {e : DecodeError} (h : readText key = .error e) :
    Misread key e := by
  unfold readText at h
  split at h
  · cases h
  · next hfailed =>
    cases h
    exact .text (List.infix_refl key) hfailed

theorem misread_of_readAddress {payload : Bytes} {e : DecodeError}
    (h : readAddress payload = .error e) : Misread payload e := by
  unfold readAddress at h
  split at h
  · cases h
  · next hfailed =>
    cases h
    exact .link (List.infix_refl payload) hfailed

theorem misread_of_readBool {payload : Bytes} {e : DecodeError} (hlength : payload.length = 1)
    (h : readBool payload = .error e) : Misread payload e := by
  obtain ⟨b, rfl⟩ := List.length_eq_one_iff.mp hlength
  unfold readBool at h
  split at h
  · cases h
  · cases h
  · next hzero hone =>
    cases h
    exact .flag (List.mem_singleton_self b) (fun heq => hzero (heq ▸ rfl)) (fun heq => hone (heq ▸ rfl))

/-- Where the structure is sound, only flags, texts and links can be at fault. -/
theorem misread_of_tree {w : Wire} {e : DecodeError} (hw : w.Fits) (h : w.tree = .error e) :
    Misread w.encode e := by
  induction w with
  | fixed kind payload =>
    have hlayout : kind.layout = .fixed payload.length := hw
    rw [tree] at h
    cases kind with
    | bool =>
      have hlength : payload.length = 1 := (Layout.fixed.inj hlayout).symm
      exact (misread_of_readBool hlength (map_eq_error_iff.mp h)).mono
        (content_infix_encode (.fixed .bool payload))
    | null => cases h
    | integer => cases h
    | float => cases h
    | _ => cases hlayout
  | prefixed kind payload =>
    have hlayout : kind.layout = .prefixed := hw.1
    have hin := (infix_prefixed payload).trans (content_infix_encode (.prefixed kind payload))
    rw [tree] at h
    cases kind with
    | string => exact (misread_of_readText (map_eq_error_iff.mp h)).mono hin
    | link => exact (misread_of_readAddress (map_eq_error_iff.mp h)).mono hin
    | bytes => cases h
    | _ => cases hlayout
  | container isMap parts ih =>
    have hparts := fitsParts_iff.mp hw.2
    suffices hpart : ∃ p ∈ parts, Misread (keyBytes isMap p.1 ++ p.2.encode) e by
      obtain ⟨p, hp, hmisread⟩ := hpart
      exact hmisread.mono ((encode_infix_partsBytes isMap hp).trans
        ((List.suffix_append _ _).isInfix.trans (content_infix_encode (.container isMap parts))))
    cases isMap with
    | false =>
      rw [tree, map_eq_error_iff, items_eq] at h
      obtain ⟨p, hp, hvalue⟩ := exists_of_mapM_eq_error h
      exact ⟨p, hp, ih p hp (hparts p hp).2 hvalue⟩
    | true =>
      rw [tree, map_eq_error_iff, entries_eq] at h
      obtain ⟨p, hp, hentry⟩ := exists_of_mapM_eq_error h
      refine ⟨p, hp, ?_⟩
      rcases bind_eq_error_iff.mp hentry with hkey | ⟨_, -, hentry⟩
      · exact (misread_of_readText hkey).mono
          ((infix_prefixed p.1).trans (List.prefix_append _ _).isInfix)
      · rcases bind_eq_error_iff.mp hentry with hvalue | ⟨_, -, hentry⟩
        · exact (ih p hp (hparts p hp).2 hvalue).mono (List.suffix_append _ _).isInfix
        · cases hentry

theorem nesting_of_leaf {kind : NodeKind} {payload : Bytes} {n : Node}
    (h : leaf kind payload = .ok n) : n.nesting = 0 := by
  cases kind with
  | bool => obtain ⟨_, -, rfl⟩ := map_eq_ok_iff.mp h; rfl
  | string => obtain ⟨_, -, rfl⟩ := map_eq_ok_iff.mp h; rfl
  | link => obtain ⟨_, -, rfl⟩ := map_eq_ok_iff.mp h; rfl
  | _ => cases h <;> rfl

/-- Of entries with the same key only one is kept, so the tree may nest less deep than its bytes. -/
theorem nesting_le_of_tree {w : Wire} {n : Node} (h : w.tree = .ok n) : n.nesting ≤ w.nesting := by
  induction w generalizing n with
  | fixed kind payload => exact Nat.le_of_eq (nesting_of_leaf h)
  | prefixed kind payload => exact Nat.le_of_eq (nesting_of_leaf h)
  | container isMap parts ih =>
    have hlevel := nestingOfParts_le_iff.mp (Nat.le_refl (nestingOfParts parts))
    cases isMap with
    | false =>
      obtain ⟨items, hitems, rfl⟩ := map_eq_ok_iff.mp h
      rw [items_eq] at hitems
      refine Node.nestingOfItems_le_iff.mpr fun m hm => ?_
      obtain ⟨p, hp, hvalue⟩ := exists_of_mem_mapM hitems hm
      exact Nat.lt_of_le_of_lt (ih p hp hvalue) (hlevel p hp)
    | true =>
      obtain ⟨entries, hentries, rfl⟩ := map_eq_ok_iff.mp h
      rw [entries_eq] at hentries
      refine Node.nestingOfEntries_le_iff.mpr fun e he => ?_
      obtain ⟨p, hp, hentry⟩ := exists_of_mem_mapM hentries (Entries.mem_of_mem_ofList he)
      exact Nat.lt_of_le_of_lt (ih p hp (entry_eq_ok_iff.mp hentry).2) (hlevel p hp)

end Wire

namespace Node

/-- Bytes that the walk accepts have a tree at the front, which is read or misread, and bytes that are
read have one that the walk accepts or finds too deep. -/
theorem walk_and_decoder_agree (limit : Nat) (data : Bytes) :
    (checkDepth limit data = .ok () →
      (∀ n rest, read data = .ok (n, rest) → n.nesting ≤ limit) ∧
        ∀ e, read data = .error e → Wire.Misread data e) ∧
      ∀ n rest, read data = .ok (n, rest) →
        checkDepth limit data = .ok () ∨ checkDepth limit data = .error (.tooDeep limit) := by
  refine ⟨fun hwalk => ?_, fun n rest hread => ?_⟩
  · obtain ⟨w, trailing, hw, hnesting, rfl⟩ := checkDepth_eq_ok_iff.mp hwalk
    rw [read_append hw]
    constructor
    · intro n rest hread
      obtain ⟨m, htree, hm⟩ := map_eq_ok_iff.mp hread
      cases hm
      exact Nat.le_trans (Wire.nesting_le_of_tree htree) hnesting
    · intro e hread
      exact (Wire.misread_of_tree hw (map_eq_error_iff.mp hread)).mono
        (List.prefix_append _ _).isInfix
  · obtain ⟨w, hw, rfl, -⟩ := Decoder.node_readsOnly _ _ _ _ hread
    rw [checkDepth_append hw]
    by_cases hnesting : w.nesting ≤ limit
    · exact .inl (if_pos hnesting)
    · exact .inr (if_neg hnesting)

/-- A flag that is neither 0 nor 1 in a list, with a byte behind it. -/
def flaggedWire : Wire :=
  .container false [([], .fixed .bool [2])]

/-- Two entries with the same key, out of which the deeper one is lost. -/
def repeatedWire : Wire :=
  .container true [([97], .container false [([], .fixed .null [])]), ([97], .fixed .null [])]

theorem walk_and_decoder_agree_on_small_wires :
    (checkDepth 1 (flaggedWire.encode ++ [9]) = .ok () ∧
      read (flaggedWire.encode ++ [9]) = .error (.badBool 2) ∧
        Wire.Misread (flaggedWire.encode ++ [9]) (.badBool 2)) ∧
      (checkDepth 2 repeatedWire.encode = .ok () ∧
        read repeatedWire.encode = .ok (.map [("a", .null)], []) ∧
          (Node.map [("a", .null)]).nesting ≤ 2) ∧
      (checkDepth 1 repeatedWire.encode = .ok () ∨
        checkDepth 1 repeatedWire.encode = .error (.tooDeep 1)) := by
  have hflagged : flaggedWire.Fits := by
    simp [flaggedWire, Wire.Fits, Wire.FitsParts, NodeKind.layout, lengthLimit]
  have hrepeated : repeatedWire.Fits := by
    simp [repeatedWire, Wire.Fits, Wire.FitsParts, NodeKind.layout, lengthLimit]
  have hflag : checkDepth 1 (flaggedWire.encode ++ [9]) = .ok () := by
    rw [checkDepth_append hflagged]
    rfl
  have hdeep : checkDepth 2 repeatedWire.encode = .ok () := by
    rw [← List.append_nil repeatedWire.encode, checkDepth_append hrepeated]
    rfl
  have hbad : read (flaggedWire.encode ++ [9]) = .error (.badBool 2) := rfl
  have hread : read repeatedWire.encode = .ok (.map [("a", .null)], []) := rfl
  exact ⟨⟨hflag, hbad, ((walk_and_decoder_agree 1 _).1 hflag).2 _ hbad⟩,
    ⟨hdeep, hread, ((walk_and_decoder_agree 2 _).1 hdeep).1 _ _ hread⟩,
    (walk_and_decoder_agree 1 _).2 _ _ hread⟩

end Node

end ContentGraph
