import ContentGraph.DepthWalk
import ContentGraph.Proofs.Wire

/-! The walk over encoded bytes goes over one wire tree as a whole: it comes out behind the tree, or
reports that the tree nests too deep. -/

namespace ContentGraph

theorem splitExactly_append (front back : Bytes) :
    splitExactly front.length (front ++ back) = some (front, back) :=
  splitExactly_eq_some_iff.mpr ⟨rfl, rfl⟩

namespace Cursor

theorem take_append (position : Nat) (front back : Bytes) :
    take front.length ⟨position, front ++ back⟩ = .ok (front, ⟨position + front.length, back⟩) := by
  simp only [take, splitExactly_append]

theorem skip_append (position : Nat) (front back : Bytes) :
    skip front.length ⟨position, front ++ back⟩ = .ok ⟨position + front.length, back⟩ := by
  rw [skip, take_append]
  rfl

theorem number_append (width : Nat) {n : Nat} (hn : n < 256 ^ width) (position : Nat)
    (back : Bytes) :
    number width ⟨position, littleEndian width n ++ back⟩ = .ok (n, ⟨position + width, back⟩) := by
  have htake := take_append position (littleEndian width n) back
  rw [length_littleEndian] at htake
  rw [number, htake]
  simp only [bind, Except.bind, pure, Except.pure, ofLittleEndian_littleEndian,
    Nat.mod_eq_of_lt hn]

theorem skipPrefixed_append {payload : Bytes} (h : payload.length < lengthLimit) (position : Nat)
    (back : Bytes) :
    skipPrefixed ⟨position, prefixed payload ++ back⟩ =
      .ok ⟨position + (prefixed payload).length, back⟩ := by
  have hnumber := number_append 8 h position (payload ++ back)
  rw [skipPrefixed, prefixed, lengthPrefix, List.append_assoc, hnumber]
  simp only [bind, Except.bind, skip_append, List.length_append, length_littleEndian,
    Nat.add_assoc]

end Cursor

namespace Walk

/-- Goes on from what a step has led to. -/
def resume (limit : Nat) : Except DecodeError (Option Walk) → Except DecodeError Unit
  | .error e => .error e
  | .ok none => .ok ()
  | .ok (some w) => run limit w

theorem run_eq (limit : Nat) (w : Walk) : run limit w = resume limit (w.step limit) := by
  rw [run]
  split <;> simp [resume, *]

variable {limit : Nat}

theorem step_append {w : Wire} (hw : w.Fits) (position : Nat) (rest : Bytes) (opened : List Frame) :
    step limit ⟨⟨position, w.encode ++ rest⟩, opened⟩ =
      readPayload limit ⟨position + 4, w.content ++ rest⟩ opened w.layout := by
  have hnumber := Cursor.number_append 4 w.kind.tag_lt position (w.content ++ rest)
  rw [step, Wire.encode, NodeKind.tagBytes, List.append_assoc, hnumber]
  simp only [bind, Except.bind, NodeKind.ofTag?_tag, hw.layout_kind]

theorem enter_append {isMap : Bool} {key : Bytes}
    (hkey : if isMap then key.length < lengthLimit else key = []) (position remaining : Nat)
    (rest : Bytes) (outer : List Frame) :
    enter ⟨position, Wire.keyBytes isMap key ++ rest⟩ ⟨isMap, remaining⟩ outer =
      .ok (some ⟨⟨position + (Wire.keyBytes isMap key).length, rest⟩,
        ⟨isMap, remaining⟩ :: outer⟩) := by
  cases isMap with
  | true =>
    rw [enter, Wire.keyBytes, if_pos rfl, if_pos rfl, Cursor.skipPrefixed_append hkey]
    rfl
  | false => rfl

theorem length_encode (w : Wire) : w.encode.length = 4 + w.content.length := by
  rw [Wire.encode, List.length_append, NodeKind.length_tagBytes]

/-- The parts of a container, the first of which is just being gone on to. -/
theorem resume_enter_parts {isMap : Bool} {parts : List (Bytes × Wire)}
    (ih : ∀ p ∈ parts, p.2.Fits → ∀ (position : Nat) (rest : Bytes) (opened : List Frame),
      opened.length ≤ limit → run limit ⟨⟨position, p.2.encode ++ rest⟩, opened⟩ =
        if opened.length + p.2.nesting ≤ limit then
          resume limit (close ⟨position + p.2.encode.length, rest⟩ opened)
        else .error (.tooDeep limit))
    (hne : parts ≠ []) (hparts : Wire.FitsParts isMap parts) (position : Nat) (rest : Bytes)
    (opened : List Frame) (hopened : opened.length < limit) :
    resume limit (enter ⟨position, Wire.partsBytes isMap parts ++ rest⟩ ⟨isMap, parts.length⟩ opened) =
      if opened.length + Wire.nestingOfParts parts ≤ limit then
        resume limit (close ⟨position + (Wire.partsBytes isMap parts).length, rest⟩ opened)
      else .error (.tooDeep limit) := by
  induction parts generalizing position with
  | nil => exact absurd rfl hne
  | cons p later ihlater =>
    obtain ⟨key, w⟩ := p
    have hw := ih (key, w) (by simp) hparts.2.1
    simp only at hw
    rw [Wire.partsBytes_cons, List.append_assoc, List.append_assoc, enter_append hparts.1, resume,
      List.length_cons, hw _ _ (⟨isMap, later.length + 1⟩ :: opened) hopened]
    simp only [List.length_cons, List.length_append, Wire.nestingOfParts, close,
      Nat.add_sub_cancel]
    by_cases hdeep : opened.length + 1 + w.nesting ≤ limit
    · rw [if_pos hdeep]
      by_cases hlater : later = []
      · subst hlater
        rw [if_pos List.length_nil, if_pos (by simp only [Wire.nestingOfParts]; omega)]
        simp only [Wire.partsBytes, List.nil_append, List.length_nil, Nat.add_zero, Nat.add_assoc]
      · rw [if_neg (by simpa using hlater),
          ihlater (fun p hp => ih p (List.mem_cons_of_mem _ hp)) hlater hparts.2.2]
        simp only [Nat.add_assoc]
        by_cases hrest : opened.length + Wire.nestingOfParts later ≤ limit
        · rw [if_pos hrest, if_pos (by omega)]
        · rw [if_neg hrest, if_neg (by omega)]
    · rw [if_neg hdeep, if_neg (by omega)]

/-- The walk over a tree with anything behind it. -/
theorem run_append {w : Wire} (hw : w.Fits) (position : Nat) (rest : Bytes) (opened : List Frame)
    (hopened : opened.length ≤ limit) :
    run limit ⟨⟨position, w.encode ++ rest⟩, opened⟩ =
      if opened.length + w.nesting ≤ limit then
        resume limit (close ⟨position + w.encode.length, rest⟩ opened)
      else .error (.tooDeep limit) := by
  induction w generalizing position rest opened with
  | fixed kind payload =>
    rw [run_eq, step_append hw, if_pos (by rwa [Wire.nesting])]
    simp only [Wire.content, Wire.layout, readPayload, Cursor.skip_append, length_encode, bind,
      Except.bind, Nat.add_assoc]
  | prefixed kind payload =>
    rw [run_eq, step_append hw, if_pos (by rwa [Wire.nesting])]
    simp only [Wire.content, Wire.layout, readPayload, Cursor.skipPrefixed_append hw.2,
      length_encode, bind, Except.bind, Nat.add_assoc]
  | container isMap parts ih =>
    have hnumber := Cursor.number_append 8 hw.1 (position + 4)
      (Wire.partsBytes isMap parts ++ rest)
    rw [run_eq, step_append hw, Wire.nesting]
    simp only [Wire.content, Wire.layout, readPayload, lengthPrefix, List.append_assoc, hnumber,
      bind, Except.bind, openContainer]
    by_cases hempty : parts = []
    · subst hempty
      rw [if_pos List.length_nil, if_pos (by rwa [Wire.nestingOfParts])]
      simp [length_encode, Wire.content, Wire.partsBytes, Nat.add_assoc]
    · rw [if_neg (by simpa using hempty)]
      by_cases hfull : limit ≤ opened.length
      · have hlevel : 0 < Wire.nestingOfParts parts := by
          cases parts with
          | nil => exact absurd rfl hempty
          | cons p later => simp only [Wire.nestingOfParts]; omega
        rw [if_pos hfull, if_neg (by omega)]
        rfl
      · rw [if_neg hfull, resume_enter_parts ih hempty hw.2 _ _ _ (by omega)]
        simp only [length_encode, Wire.content, List.length_append, length_lengthPrefix,
          Nat.add_assoc]

end Walk

/-- The walk accepts a tree that nests no deeper than the limit, whatever stands behind it. -/
theorem checkDepth_append {w : Wire} (hw : w.Fits) (limit : Nat) (rest : Bytes) :
    checkDepth limit (w.encode ++ rest) =
      if w.nesting ≤ limit then .ok () else .error (.tooDeep limit) := by
  rw [checkDepth, Walk.run_append hw 0 rest [] (Nat.zero_le _)]
  simp only [List.length_nil, Nat.zero_add]
  rfl

end ContentGraph
