import ContentGraph.Proofs.WireReading

/-! A byte string is read as a tree exactly if it is the canonical form of that tree and the tree does
not nest too deep. Wire trees that no canonical form shows are flawed, and are rejected. -/

namespace ContentGraph

namespace Wire

theorem nestingOfParts_le (isMap : Bool) {parts : List (Bytes × Wire)}
    (ih : ∀ p ∈ parts, p.2.nesting ≤ p.2.encode.length) :
    nestingOfParts parts ≤ (partsBytes isMap parts).length + 1 := by
  refine nestingOfParts_le_iff.mpr fun p hp => ?_
  have hlength := (encode_infix_partsBytes isMap hp).length_le
  rw [List.length_append] at hlength
  have := ih p hp
  omega

theorem nesting_le_length (w : Wire) : w.nesting ≤ w.encode.length := by
  induction w with
  | fixed kind payload => exact Nat.zero_le _
  | prefixed kind payload => exact Nat.zero_le _
  | container isMap parts ih =>
    have hparts := nestingOfParts_le isMap ih
    rw [nesting, encode, content, List.length_append, List.length_append, length_lengthPrefix]
    omega

end Wire

namespace Node

theorem read_append {w : Wire} (hw : w.Fits) (rest : Bytes) :
    read (w.encode ++ rest) = (fun n => (n, rest)) <$> w.tree := by
  have hnesting := w.nesting_le_length
  refine Decoder.node_reads _ w ⟨hw, ?_⟩ rest
  rw [List.length_append]
  omega

theorem eq_wire_of_encode {n : Node} {w : Wire} {trailing : Bytes} (hn : n.Sized) (hw : w.Fits)
    (h : w.encode ++ trailing = n.encode) : w = n.wire ∧ trailing = [] := by
  rw [← encode_wire n, ← List.append_nil n.wire.encode] at h
  exact Wire.encode_append_inj hw (fits_wire_iff.mpr hn) h

theorem decode_encode {n : Node} (hordered : n.Ordered) (hsized : n.Sized)
    (hnesting : n.nesting ≤ maxDepth) : decode n.encode = .ok n := by
  have hfits := fits_wire_iff.mpr hsized
  have hdepth : checkDepth maxDepth n.encode = .ok () := by
    have hwalk := checkDepth_append hfits maxDepth []
    rwa [List.append_nil, encode_wire, nesting_wire, if_pos hnesting] at hwalk
  have hread : read n.encode = .ok (n, []) := by
    have hwire := read_append hfits []
    rwa [List.append_nil, encode_wire, tree_wire hordered] at hwire
  rw [decode, hdepth, hread]
  exact if_pos rfl

theorem decode_eq_ok_iff {data : Bytes} {n : Node} :
    decode data = .ok n ↔
      data = n.encode ∧ n.Ordered ∧ n.Sized ∧ n.nesting ≤ maxDepth := by
  constructor
  · intro h
    obtain ⟨_, hdepth, hdecode⟩ := bind_eq_ok_iff.mp h
    obtain ⟨⟨m, rest⟩, hread, hcanonical⟩ := bind_eq_ok_iff.mp hdecode
    have hencode := encode_of_decode h
    have hm : m = n := by
      dsimp only at hcanonical
      split at hcanonical
      · cases hcanonical
        rfl
      · cases hcanonical
    obtain ⟨w, hw, hdata, htree⟩ := Decoder.node_readsOnly _ _ _ _ hread
    rw [hm] at htree
    obtain ⟨hordered, hsized⟩ := Wire.ordered_sized_of_tree hw htree
    obtain ⟨hwire, -⟩ := eq_wire_of_encode hsized hw (hdata.symm.trans hencode.symm)
    refine ⟨hencode.symm, hordered, hsized, ?_⟩
    rw [hdata, checkDepth_append hw, hwire, nesting_wire] at hdepth
    by_cases hdeep : n.nesting ≤ maxDepth
    · exact hdeep
    · rw [if_neg hdeep] at hdepth
      cases hdepth
  · rintro ⟨rfl, hordered, hsized, hnesting⟩
    exact decode_encode hordered hsized hnesting

end Node

/-- What the canonical form of a tree never shows. -/
inductive Wire.Flawed : Wire → Prop
  | flag {payload : Bytes} (h : payload ≠ [0] ∧ payload ≠ [1]) : Flawed (.fixed .bool payload)
  | text {payload : Bytes} (h : ∀ s : String, payload ≠ utf8 s) : Flawed (.prefixed .string payload)
  | link {payload : Bytes} (h : ∀ a : Address, payload ≠ a.toBytes) :
    Flawed (.prefixed .link payload)
  | key {parts : List (Bytes × Wire)} {p : Bytes × Wire} (hp : p ∈ parts)
    (h : ∀ s : String, p.1 ≠ utf8 s) : Flawed (.container true parts)
  | order {front middle back : List (Bytes × Wire)} {s t : String} {v w : Wire} (h : ¬s < t) :
    Flawed (.container true (front ++ (utf8 s, v) :: middle ++ (utf8 t, w) :: back))
  | part {isMap : Bool} {parts : List (Bytes × Wire)} {p : Bytes × Wire} (hp : p ∈ parts)
    (h : Flawed p.2) : Flawed (.container isMap parts)

theorem Node.wireEntries_keys {entries : List (String × Node)} (h : Entries.Sorted entries) :
    (wireEntries entries).Pairwise fun p q => ∀ s t, p.1 = utf8 s → q.1 = utf8 t → s < t := by
  rw [wireEntries_eq, List.pairwise_map]
  refine h.imp fun {a b} hlt s t hs ht => ?_
  rwa [← utf8_injective hs, ← utf8_injective ht]

theorem Node.not_flawed_wire {n : Node} (hn : n.Ordered) : ¬n.wire.Flawed := by
  induction n with
  | bool value =>
    intro h
    cases h with
    | flag h => cases value <;> simp at h
  | string value =>
    intro h
    cases h with
    | text h => exact h value rfl
  | link target =>
    intro h
    cases h with
    | link h => exact h target rfl
  | list items ih =>
    intro h
    rw [wire, wireItems_eq] at h
    cases h with
    | part hp h =>
      obtain ⟨n, hn', rfl⟩ := List.mem_map.mp hp
      exact ih n hn' (orderedItems_iff.mp hn n hn') h
  | map entries ih =>
    intro h
    rw [wire] at h
    have hkeys := wireEntries_keys hn.1
    generalize hparts : wireEntries entries = parts at h hkeys
    cases h with
    | key hp h =>
      rw [← hparts, wireEntries_eq] at hp
      obtain ⟨e, -, rfl⟩ := List.mem_map.mp hp
      exact h e.1 rfl
    | @order front middle back s t v w h =>
      have hlater := (List.pairwise_append.mp hkeys).2.2
      exact h (hlater (utf8 s, v) (by simp) (utf8 t, w) List.mem_cons_self s t rfl rfl)
    | part hp h =>
      rw [← hparts, wireEntries_eq] at hp
      obtain ⟨e, he, rfl⟩ := List.mem_map.mp hp
      exact ih e he (orderedEntries_iff.mp hn.2 e he) h
  | _ => intro h; cases h

namespace Node

/-- Reading bytes inverts writing trees, and nothing but canonical forms is read. -/
theorem decode_iff_canonical (data : Bytes) (n : Node) :
    (decode data = .ok n ↔ data = n.encode ∧ n.Ordered ∧ n.Sized ∧ n.nesting ≤ maxDepth) ∧
      (n.Ordered → n.Sized → n.nesting ≤ maxDepth → decode n.encode = .ok n) ∧
      ∀ (w : Wire) (trailing : Bytes), w.Fits → trailing ≠ [] ∨ w.Flawed →
        ∃ e, decode (w.encode ++ trailing) = .error e := by
  refine ⟨decode_eq_ok_iff, decode_encode, fun w trailing hw hflaw => ?_⟩
  cases hdecode : decode (w.encode ++ trailing) with
  | error e => exact ⟨e, rfl⟩
  | ok m =>
    obtain ⟨hdata, hordered, hsized, -⟩ := decode_eq_ok_iff.mp hdecode
    obtain ⟨rfl, rfl⟩ := eq_wire_of_encode hsized hw hdata
    rcases hflaw with htrailing | hflawed
    · exact absurd rfl htrailing
    · exact absurd hflawed (not_flawed_wire hordered)

theorem decode_of_small_map :
    decode (map [("a", .list [.bool true, .list []]), ("b", .null)]).encode =
        .ok (map [("a", .list [.bool true, .list []]), ("b", .null)]) ∧
      (∃ e, decode ((Wire.fixed .bool [1]).encode ++ [0]) = .error e) ∧
      ∃ e, decode ((Wire.container true [([98], .fixed .null []), ([97], .fixed .null [])]).encode ++
        []) = .error e := by
  refine ⟨(decode_iff_canonical [] _).2.1 ?_ ?_ (by decide),
    (decode_iff_canonical [] .null).2.2 _ _ ?_ (.inl (by decide)),
    (decode_iff_canonical [] .null).2.2 _ _ ?_ (.inr ?_)⟩
  · simp only [Ordered, OrderedItems, OrderedEntries, and_true]
    decide
  · simp only [Sized, SizedItems, SizedEntries, and_true]
    decide
  · rfl
  · simp only [Wire.Fits, Wire.FitsParts, NodeKind.layout, List.length_nil, and_true]
    decide
  · exact @Wire.Flawed.order [] [] [] "b" "a" _ _ (by decide)

end Node

end ContentGraph
