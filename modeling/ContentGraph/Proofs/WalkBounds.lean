import ContentGraph.Proofs.WalkAgreement
import ContentGraph.Proofs.WalkStages

/-! What the walk over encoded bytes takes, whatever the lengths in the input are. It stays in the
input, opens no more containers than its limit, never counts a value that is not due, and reads at most
one tag for every four bytes, and one more. -/

namespace ContentGraph

theorem splitExactly_eq (n : Nat) (data : Bytes) :
    splitExactly n data = if n ≤ data.length then some (data.take n, data.drop n) else none := by
  by_cases hn : n ≤ data.length
  · rw [if_pos hn, splitExactly_eq_some_iff]
    exact ⟨List.length_take_of_le hn, (List.take_append_drop n data).symm⟩
  · rw [if_neg hn, Option.eq_none_iff_forall_ne_some]
    rintro ⟨front, back⟩ hsplit
    obtain ⟨hlength, hdata⟩ := splitExactly_eq_some_iff.mp hsplit
    rw [hdata, List.length_append] at hn
    omega

/-- The cursor stands in the data, and what is left is what stands behind it. -/
structure Cursor.IsIn (data : Bytes) (c : Cursor) : Prop where
  position_le : c.position ≤ data.length
  rest_eq : c.rest = data.drop c.position

namespace Cursor.IsIn

variable {data : Bytes} {c next : Cursor}

theorem length_rest (h : c.IsIn data) : c.position + c.rest.length = data.length := by
  have hle := h.position_le
  rw [h.rest_eq, List.length_drop]
  omega

/-- The sum of position and size is an exact one. A size that reaches beyond the last number of 64
bits is refused as every size is that reaches behind the end. -/
theorem take_eq (h : c.IsIn data) (n : Nat) :
    c.take n =
      if c.position + n ≤ data.length then
        .ok (c.rest.take n, ⟨c.position + n, data.drop (c.position + n)⟩)
      else .error .endOfBytes := by
  have hlength := h.length_rest
  rw [take, splitExactly_eq]
  by_cases hn : n ≤ c.rest.length
  · rw [if_pos hn, if_pos (by omega), h.rest_eq, List.drop_drop]
  · rw [if_neg hn, if_neg (by omega)]

theorem of_take (h : c.IsIn data) {n : Nat} {front : Bytes} (htake : c.take n = .ok (front, next)) :
    next.IsIn data := by
  rw [h.take_eq] at htake
  split at htake
  · next hle =>
    cases htake
    exact ⟨hle, rfl⟩
  · cases htake

theorem of_skip (h : c.IsIn data) {n : Nat} (hskip : c.skip n = .ok next) : next.IsIn data := by
  obtain ⟨_, htake, hnext⟩ := bind_eq_ok_iff.mp hskip
  cases hnext
  exact h.of_take htake

theorem of_number (h : c.IsIn data) {width n : Nat} (hnumber : c.number width = .ok (n, next)) :
    next.IsIn data := by
  obtain ⟨_, htake, hnext⟩ := bind_eq_ok_iff.mp hnumber
  cases hnext
  exact h.of_take htake

theorem skip_eq_error_iff (h : c.IsIn data) {n : Nat} :
    c.skip n = .error .endOfBytes ↔ data.length < c.position + n := by
  rw [skip, h.take_eq]
  split
  · next hle =>
    refine ⟨fun h => ?_, fun hlt => absurd hle (Nat.not_le.mpr hlt)⟩
    cases h
  · next hgt => exact ⟨fun _ => Nat.not_le.mp hgt, fun _ => rfl⟩

end Cursor.IsIn

namespace Walk

variable {limit : Nat} {data : Bytes} {s later : Stage}

/-- Sizes have 64 bits. -/
def Task.IsBounded : Task → Prop
  | .skip size _ => size < lengthLimit
  | _ => True

/-- What is kept from stage to stage. -/
structure Stage.Sound (limit : Nat) (data : Bytes) (s : Stage) : Prop where
  isIn : s.cursor.IsIn data
  opened_le : s.opened.length ≤ limit
  remaining_pos : ∀ frame ∈ s.opened, 1 ≤ frame.remaining
  bounded : s.task.IsBounded

theorem Stage.sound_entering {c : Cursor} {frame : Frame} {outer : List Frame} (hc : c.IsIn data)
    (hlength : outer.length < limit) (hframe : 1 ≤ frame.remaining)
    (houter : ∀ frame ∈ outer, 1 ≤ frame.remaining) :
    (entering c frame outer).Sound limit data := by
  refine ⟨hc, hlength, ?_, ?_⟩
  · intro other hother
    rcases List.mem_cons.mp hother with rfl | hother
    · exact hframe
    · exact houter other hother
  · unfold entering
    dsimp only
    split <;> trivial

theorem Stage.Sound.pass (h : s.Sound limit data) (hpasses : s.Passes limit later) :
    later.Sound limit data := by
  obtain ⟨hc, hlength, hremaining, hbounded⟩ := h
  cases hpasses with
  | tag kind hnumber =>
    refine ⟨hc.of_number hnumber, hlength, hremaining, ?_⟩
    cases kind <;> simp [NodeKind.layout, Task.ofLayout, Task.IsBounded, lengthLimit]
  | length hnumber =>
    exact ⟨hc.of_number hnumber, hlength, hremaining, (Cursor.number_eq_ok hnumber).1⟩
  | @skip _ _ _ _ isKey hskip =>
    refine ⟨hc.of_skip hskip, hlength, hremaining, ?_⟩
    cases isKey <;> trivial
  | empty hnumber => exact ⟨hc.of_number hnumber, hlength, hremaining, trivial⟩
  | opens hnumber hmore hroom =>
    exact sound_entering (hc.of_number hnumber) hroom (Nat.one_le_iff_ne_zero.mpr hmore) hremaining
  | closes =>
    exact ⟨hc, Nat.le_of_succ_le hlength, (List.forall_mem_cons.mp hremaining).2, trivial⟩
  | counts hmore =>
    exact sound_entering hc hlength (Nat.one_le_iff_ne_zero.mpr hmore)
      (List.forall_mem_cons.mp hremaining).2

/-- A stage never goes back, and goes over the tag that it reads. -/
theorem Stage.Passes.length_le (h : s.Passes limit later) :
    later.cursor.rest.length + (if s.readsTag then 4 else 0) ≤ s.cursor.rest.length := by
  cases h with
  | tag kind hnumber => exact Nat.le_of_eq (Cursor.number_length hnumber)
  | length hnumber => exact Nat.le_of_add_right_le (Nat.le_of_eq (Cursor.number_length hnumber))
  | skip hskip => exact Nat.le_of_add_right_le (Nat.le_of_eq (Cursor.skip_length hskip))
  | empty hnumber => exact Nat.le_of_add_right_le (Nat.le_of_eq (Cursor.number_length hnumber))
  | opens hnumber => exact Nat.le_of_add_right_le (Nat.le_of_eq (Cursor.number_length hnumber))
  | closes => exact Nat.le_refl _
  | counts => exact Nat.le_refl _

theorem Visits.sound {visited : List Stage} {outcome : Except DecodeError Unit}
    (h : Visits limit s visited outcome) (hs : s.Sound limit data) :
    ∀ t ∈ visited, t.Sound limit data := by
  induction h with
  | done => simpa using hs
  | failed => simpa using hs
  | pass hnext _ ih =>
    exact List.forall_mem_cons.mpr ⟨hs, ih (hs.pass (Stage.passes_of_next hnext))⟩

/-- Every tag but the last takes four bytes. -/
theorem Visits.tags_le {visited : List Stage} {outcome : Except DecodeError Unit}
    (h : Visits limit s visited outcome) :
    4 * visited.countP Stage.readsTag ≤ s.cursor.rest.length + 4 := by
  have hone (s : Stage) : [s].countP Stage.readsTag ≤ 1 := List.countP_le_length
  induction h with
  | @done s =>
    have hlast := hone s
    omega
  | @failed s =>
    have hlast := hone s
    omega
  | pass hnext _ ih =>
    have hlength := (Stage.passes_of_next hnext).length_le
    rw [List.countP_cons]
    split at hlength
    · next htag =>
      rw [if_pos htag]
      omega
    · next htag =>
      rw [if_neg htag]
      omega

theorem Stage.Sound.next_skip {size : Nat} {isKey : Bool} (h : s.Sound limit data)
    (htask : s.task = .skip size isKey) :
    size < lengthLimit ∧
      (s.next limit = .error .endOfBytes ↔ data.length < s.cursor.position + size) := by
  obtain ⟨c, opened, task⟩ := s
  obtain rfl : task = .skip size isKey := htask
  refine ⟨h.bounded, ?_⟩
  rw [← h.isIn.skip_eq_error_iff]
  show (c.skip size >>= _) = _ ↔ _
  cases c.skip size <;> simp [bind, Except.bind, pure, Except.pure]

/-- The stages of the walk over any data come to an end, which is the outcome of the walk. In every
one of them the walk stands in the data, no more containers are open than the limit allows, and each
of them has a value left to count. What is skipped is refused exactly if it ends behind the data, and
the tags that are read are one for four bytes at most, and one more. -/
theorem stages_are_bounded (limit : Nat) (data : Bytes) :
    (∃ visited, Visits limit (.ofWalk ⟨⟨0, data⟩, []⟩) visited (checkDepth limit data)) ∧
    ∀ visited outcome, Visits limit (.ofWalk ⟨⟨0, data⟩, []⟩) visited outcome →
      outcome = checkDepth limit data ∧ visited.countP Stage.readsTag ≤ data.length / 4 + 1 ∧
      ∀ s ∈ visited, s.cursor.position ≤ data.length ∧ s.opened.length ≤ limit ∧
        (∀ frame ∈ s.opened, 1 ≤ frame.remaining) ∧
        ∀ size isKey, s.task = .skip size isKey → size < lengthLimit ∧
          (s.next limit = .error .endOfBytes ↔ data.length < s.cursor.position + size) := by
  have hend : EndsIn limit (.ofWalk ⟨⟨0, data⟩, []⟩) (checkDepth limit data) := endsIn_run _
  refine ⟨hend, fun visited outcome hvisits => ⟨?_, ?_, ?_⟩⟩
  · obtain ⟨_, hvisits'⟩ := hend
    exact (hvisits.unique hvisits').2
  · have htags : 4 * visited.countP Stage.readsTag ≤ data.length + 4 := hvisits.tags_le
    omega
  · have hstart : (Stage.ofWalk ⟨⟨0, data⟩, []⟩).Sound limit data :=
      ⟨⟨Nat.zero_le _, rfl⟩, Nat.zero_le _, nofun, trivial⟩
    intro s hs
    have hsound := hvisits.sound hstart s hs
    exact ⟨hsound.isIn.position_le, hsound.opened_le, hsound.remaining_pos,
      fun size isKey htask => hsound.next_skip htask⟩

/-- A map of one entry, whose key is as long as a length can say and is not there. -/
def longKey : Bytes :=
  NodeKind.map.tagBytes ++ (lengthPrefix 1 ++ lengthPrefix (lengthLimit - 1))

def longKeyStage : Stage :=
  ⟨⟨20, []⟩, [⟨true, 1⟩], .skip (lengthLimit - 1) true⟩

theorem longKey_visits : ∃ visited, longKeyStage ∈ visited ∧
    Visits 1 (.ofWalk ⟨⟨0, longKey⟩, []⟩) visited (.error .endOfBytes) := by
  refine ⟨_, ?_, .pass rfl (.pass rfl (.pass rfl (.failed rfl)))⟩
  exact .tail _ (.tail _ (.tail _ (.head _)))

theorem stages_are_bounded_in_longKey :
    checkDepth 1 longKey = .error .endOfBytes ∧ longKeyStage.cursor.position ≤ longKey.length ∧
      longKey.length < longKeyStage.cursor.position + (lengthLimit - 1) := by
  obtain ⟨-, hall⟩ := stages_are_bounded 1 longKey
  obtain ⟨visited, hmem, hvisits⟩ := longKey_visits
  obtain ⟨houtcome, -, hstages⟩ := hall _ _ hvisits
  obtain ⟨hposition, -, -, hskip⟩ := hstages _ hmem
  obtain ⟨-, hrefused⟩ := hskip _ _ rfl
  exact ⟨houtcome.symm, hposition, hrefused.mp rfl⟩

end Walk

end ContentGraph
