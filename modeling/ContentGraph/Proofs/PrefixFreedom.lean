import ContentGraph.Proofs.PutThenGet

/-! No encoding of a tree is a prefix of another one, so a tree is determined by its bytes, and by
any longer byte string that begins with them. This holds of all trees, of those as well that nest
too deep to be read. -/

namespace ContentGraph

theorem eq_of_map_eq_map {α β : Type} {f : α → β} {xs ys : List α}
    (hf : ∀ x ∈ xs, ∀ y, f x = f y → x = y) (h : xs.map f = ys.map f) : xs = ys := by
  induction xs generalizing ys with
  | nil => exact (List.map_eq_nil_iff.mp h.symm).symm
  | cons x xs ih =>
    obtain ⟨y, rest, rfl, hfirst, hrest⟩ := List.map_eq_cons_iff.mp h.symm
    obtain ⟨hx, hxs⟩ := List.forall_mem_cons.mp hf
    rw [hx y hfirst.symm, ih hxs hrest.symm]

theorem eq_of_littleEndian_toNat {m n : UInt64}
    (h : littleEndian 8 m.toNat = littleEndian 8 n.toNat) : m = n :=
  UInt64.toNat_inj.mp (littleEndian_injective m.toNat_lt n.toNat_lt h)

namespace Node

/-- What the bytes of a tree show leaves nothing open, and does not need the maps to be in order. -/
theorem wire_injective {n m : Node} (h : n.wire = m.wire) : n = m := by
  induction n generalizing m with
  | null =>
    cases m with
    | null => rfl
    | _ => simp [wire] at h
  | bool value =>
    cases m with
    | bool other => cases value <;> cases other <;> simp [wire] at h ⊢
    | _ => simp [wire] at h
  | integer value =>
    cases m with
    | integer other =>
      simp only [wire, Wire.fixed.injEq, true_and] at h
      have hvalue := congrArg UInt64.toInt64 (eq_of_littleEndian_toNat h)
      rw [Int64.toInt64_toUInt64, Int64.toInt64_toUInt64] at hvalue
      rw [hvalue]
    | _ => simp [wire] at h
  | float bits =>
    cases m with
    | float other =>
      simp only [wire, Wire.fixed.injEq, true_and] at h
      rw [eq_of_littleEndian_toNat h]
    | _ => simp [wire] at h
  | string value =>
    cases m with
    | string other =>
      simp only [wire, Wire.prefixed.injEq, true_and] at h
      rw [utf8_injective h]
    | _ => simp [wire] at h
  | bytes value =>
    cases m with
    | bytes other =>
      simp only [wire, Wire.prefixed.injEq, true_and] at h
      rw [h]
    | _ => simp [wire] at h
  | link target =>
    cases m with
    | link other =>
      simp only [wire, Wire.prefixed.injEq, true_and] at h
      rw [Address.toBytes_injective h]
    | _ => simp [wire] at h
  | list items ih =>
    cases m with
    | list others =>
      simp only [wire, Wire.container.injEq, true_and, wireItems_eq] at h
      have hitems : items = others :=
        eq_of_map_eq_map (fun n hn m hwire => ih n hn (congrArg Prod.snd hwire)) h
      rw [hitems]
    | _ => simp [wire] at h
  | map entries ih =>
    cases m with
    | map others =>
      simp only [wire, Wire.container.injEq, true_and, wireEntries_eq] at h
      have hentries : entries = others := by
        refine eq_of_map_eq_map (fun e he other hpart => ?_) h
        obtain ⟨hkey, hwire⟩ := Prod.mk.inj hpart
        exact Prod.ext (utf8_injective hkey) (ih e he hwire)
      rw [hentries]
    | _ => simp [wire] at h

theorem encode_append_inj {n m : Node} {x y : Bytes} (hn : n.Sized) (hm : m.Sized)
    (h : n.encode ++ x = m.encode ++ y) : n = m ∧ x = y := by
  rw [← encode_wire n, ← encode_wire m] at h
  obtain ⟨hwire, hrest⟩ := Wire.encode_append_inj (fits_wire_iff.mpr hn) (fits_wire_iff.mpr hm) h
  exact ⟨wire_injective hwire, hrest⟩

/-- The bytes of a tree tell where they end and which tree they stand for. That lengths fit their
prefixes is what memory sees to. -/
theorem encodings_are_prefix_free {n m : Node} (hn : n.Sized) (hm : m.Sized) :
    (∀ x y : Bytes, n.encode ++ x = m.encode ++ y → n = m ∧ x = y) ∧
      (n.encode <+: m.encode → n = m) ∧ (n ≠ m → n.encode ≠ m.encode) := by
  refine ⟨fun x y => encode_append_inj hn hm, ?_, fun hne hsame => hne ?_⟩
  · rintro ⟨rest, hrest⟩
    rw [← List.append_nil m.encode] at hrest
    exact (encode_append_inj hn hm hrest).1
  · have hboth : n.encode ++ [] = m.encode ++ [] := by rw [hsame]
    exact (encode_append_inj hn hm hboth).1

theorem encodings_are_prefix_free_beyond_limit :
    maxDepth < (nestedLists 200).nesting ∧ maxDepth < (nestedLists 201).nesting ∧
      (nestedLists 200).encode ≠ (nestedLists 201).encode ∧
      ∀ x y : Bytes, (nestedLists 200).encode ++ x ≠ (nestedLists 201).encode ++ y := by
  have hdeep : ∀ depth, (nestedLists depth).nesting = depth := nesting_nestedLists
  have hne : nestedLists 200 ≠ nestedLists 201 := by
    intro hsame
    have hnesting := congrArg nesting hsame
    rw [hdeep, hdeep] at hnesting
    omega
  obtain ⟨happend, -, hdiffer⟩ :=
    encodings_are_prefix_free (sized_nestedLists 200) (sized_nestedLists 201)
  refine ⟨by rw [hdeep]; decide, by rw [hdeep]; decide, hdiffer hne, fun x y hsame => ?_⟩
  exact hne (happend x y hsame).1

end Node

end ContentGraph
