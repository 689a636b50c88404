import ContentGraph.Proofs.WireWalk

/-! The walk over encoded bytes, taken apart into stages in each of which at most one piece of the
input is read or one value is counted. From stage to stage the walk comes to the end that it comes to
step by step. -/

namespace ContentGraph

namespace Walk

/-- What is done next: a tag is read, or the length of a key or of another byte string, or such bytes
are skipped, or the number of values in a container is read, or a value is complete and counts. -/
inductive Task
  | tag
  | length (isKey : Bool)
  | skip (size : Nat) (isKey : Bool)
  | values (isMap : Bool)
  | count

/-- What follows a tag. -/
def Task.ofLayout : Layout → Task
  | .fixed size => .skip size false
  | .prefixed => .length false
  | .container isMap => .values isMap

structure Stage where
  cursor : Cursor
  opened : List Frame
  task : Task

namespace Stage

/-- A tag is read next. -/
def ofWalk (w : Walk) : Stage :=
  ⟨w.cursor, w.opened, .tag⟩

/-- The next value of the innermost container, which in a map stands behind its key. -/
def entering (c : Cursor) (frame : Frame) (outer : List Frame) : Stage :=
  ⟨c, frame :: outer, if frame.isMap then .length true else .tag⟩

def next (limit : Nat) (s : Stage) : Except DecodeError (Option Stage) :=
  match s.task with
  | .tag => do
    let (tag, c) ← s.cursor.number 4
    match NodeKind.ofTag? tag with
    | none => throw (.unknownTag tag)
    | some kind => return some ⟨c, s.opened, .ofLayout kind.layout⟩
  | .length isKey => do
    let (size, c) ← s.cursor.number 8
    return some ⟨c, s.opened, .skip size isKey⟩
  | .skip size isKey => do
    let c ← s.cursor.skip size
    return some ⟨c, s.opened, if isKey then .tag else .count⟩
  | .values isMap => do
    let (length, c) ← s.cursor.number 8
    if length = 0 then return some ⟨c, s.opened, .count⟩
    else if limit ≤ s.opened.length then throw (.tooDeep limit)
    else return some (entering c ⟨isMap, length⟩ s.opened)
  | .count =>
    match s.opened with
    | [] => return none
    | frame :: outer =>
      if frame.remaining - 1 = 0 then return some ⟨s.cursor, outer, .count⟩
      else return some (entering s.cursor { frame with remaining := frame.remaining - 1 } outer)

def readsTag (s : Stage) : Bool :=
  match s.task with
  | .tag => true
  | _ => false

/-- Everything that a stage can go on to. -/
inductive Passes (limit : Nat) : Stage → Stage → Prop
  | tag {c behind : Cursor} {opened : List Frame} {tag : Nat} (kind : NodeKind)
    (hnumber : c.number 4 = .ok (tag, behind)) :
    Passes limit ⟨c, opened, .tag⟩ ⟨behind, opened, .ofLayout kind.layout⟩
  | length {c behind : Cursor} {opened : List Frame} {size : Nat} {isKey : Bool}
    (hnumber : c.number 8 = .ok (size, behind)) :
    Passes limit ⟨c, opened, .length isKey⟩ ⟨behind, opened, .skip size isKey⟩
  | skip {c behind : Cursor} {opened : List Frame} {size : Nat} {isKey : Bool}
    (hskip : c.skip size = .ok behind) :
    Passes limit ⟨c, opened, .skip size isKey⟩ ⟨behind, opened, if isKey then .tag else .count⟩
  | empty {c behind : Cursor} {opened : List Frame} {isMap : Bool}
    (hnumber : c.number 8 = .ok (0, behind)) :
    Passes limit ⟨c, opened, .values isMap⟩ ⟨behind, opened, .count⟩
  | opens {c behind : Cursor} {opened : List Frame} {isMap : Bool} {length : Nat}
    (hnumber : c.number 8 = .ok (length, behind)) (hmore : length ≠ 0)
    (hroom : opened.length < limit) :
    Passes limit ⟨c, opened, .values isMap⟩ (entering behind ⟨isMap, length⟩ opened)
  | closes {c : Cursor} {frame : Frame} {outer : List Frame} (hlast : frame.remaining - 1 = 0) :
    Passes limit ⟨c, frame :: outer, .count⟩ ⟨c, outer, .count⟩
  | counts {c : Cursor} {frame : Frame} {outer : List Frame} (hmore : frame.remaining - 1 ≠ 0) :
    Passes limit ⟨c, frame :: outer, .count⟩
      (entering c { frame with remaining := frame.remaining - 1 } outer)

theorem passes_of_next {limit : Nat} {s later : Stage} (h : s.next limit = .ok (some later)) :
    s.Passes limit later := by
  obtain ⟨c, opened, task⟩ := s
  cases task with
  | tag =>
    obtain ⟨⟨tag, behind⟩, hnumber, hlater⟩ := bind_eq_ok_iff.mp h
    dsimp only at hlater
    split at hlater
    · cases hlater
    · cases hlater
      exact .tag _ hnumber
  | length isKey =>
    obtain ⟨_, hnumber, hlater⟩ := bind_eq_ok_iff.mp h
    cases hlater
    exact .length hnumber
  | skip size isKey =>
    obtain ⟨_, hskip, hlater⟩ := bind_eq_ok_iff.mp h
    cases hlater
    exact .skip hskip
  | values isMap =>
    obtain ⟨⟨length, behind⟩, hnumber, hlater⟩ := bind_eq_ok_iff.mp h
    dsimp only at hlater
    split at hlater
    · next hempty =>
      cases hlater
      subst hempty
      exact .empty hnumber
    · next hmore =>
      split at hlater
      · cases hlater
      · next hroom =>
        cases hlater
        exact .opens hnumber hmore (Nat.not_le.mp hroom)
  | count =>
    cases opened with
    | nil => cases h
    | cons frame outer =>
      simp only [next] at h
      split at h
      · next hlast =>
        cases h
        exact .closes hlast
      · next hmore =>
        cases h
        exact .counts hmore

end Stage

/-- The stages that are visited one after the other, and how the last of them ends the walk. -/
inductive Visits (limit : Nat) : Stage → List Stage → Except DecodeError Unit → Prop
  | done {s : Stage} (h : s.next limit = .ok none) : Visits limit s [s] (.ok ())
  | failed {s : Stage} {e : DecodeError} (h : s.next limit = .error e) :
    Visits limit s [s] (.error e)
  | pass {s later : Stage} {visited : List Stage} {outcome : Except DecodeError Unit}
    (h : s.next limit = .ok (some later)) (hlater : Visits limit later visited outcome) :
    Visits limit s (s :: visited) outcome

variable {limit : Nat}

theorem Visits.eq_of_next {s : Stage} {visited : List Stage} {outcome : Except DecodeError Unit}
    (h : Visits limit s visited outcome) :
    match s.next limit with
    | .error e => visited = [s] ∧ outcome = .error e
    | .ok none => visited = [s] ∧ outcome = .ok ()
    | .ok (some later) => ∃ rest, visited = s :: rest ∧ Visits limit later rest outcome := by
  cases h with
  | done hnext =>
    rw [hnext]
    exact ⟨rfl, rfl⟩
  | failed hnext =>
    rw [hnext]
    exact ⟨rfl, rfl⟩
  | pass hnext hlater =>
    rw [hnext]
    exact ⟨_, rfl, hlater⟩

theorem Visits.unique {s : Stage} {visited visited' : List Stage}
    {outcome outcome' : Except DecodeError Unit} (h : Visits limit s visited outcome)
    (h' : Visits limit s visited' outcome') : visited = visited' ∧ outcome = outcome' := by
  induction h generalizing visited' with
  | done hnext =>
    have hsame := h'.eq_of_next
    rw [hnext] at hsame
    exact ⟨hsame.1.symm, hsame.2.symm⟩
  | failed hnext =>
    have hsame := h'.eq_of_next
    rw [hnext] at hsame
    exact ⟨hsame.1.symm, hsame.2.symm⟩
  | pass hnext _ ih =>
    have hsame := h'.eq_of_next
    rw [hnext] at hsame
    obtain ⟨rest, rfl, hlater⟩ := hsame
    obtain ⟨rfl, rfl⟩ := ih hlater
    exact ⟨rfl, rfl⟩

/-- The stages from one on come to an end, and with this outcome. -/
def EndsIn (limit : Nat) (s : Stage) (outcome : Except DecodeError Unit) : Prop :=
  ∃ visited, Visits limit s visited outcome

/-- The stages from one on end as what a part of a step has led to, if those from the walk that it has
gone on to end as that walk. -/
def Follows (limit : Nat) (s : Stage) (reached : Except DecodeError (Option Walk)) : Prop :=
  (∀ w, reached = .ok (some w) → EndsIn limit (.ofWalk w) (run limit w)) →
    EndsIn limit s (resume limit reached)

theorem Follows.of_pass {s later : Stage} {reached : Except DecodeError (Option Walk)}
    (h : Follows limit later reached) (hnext : s.next limit = .ok (some later)) :
    Follows limit s reached := by
  intro hwalk
  obtain ⟨visited, hvisits⟩ := h hwalk
  exact ⟨s :: visited, .pass hnext hvisits⟩

theorem Follows.of_error {s : Stage} {e : DecodeError} (hnext : s.next limit = .error e) :
    Follows limit s (.error e) :=
  fun _ => ⟨[s], .failed hnext⟩

theorem Follows.walk (w : Walk) : Follows limit (.ofWalk w) (.ok (some w)) :=
  fun hwalk => hwalk w rfl

/-- A stage that begins by reading something, as the step does. -/
theorem Follows.of_read {α : Type} {s : Stage} {read : Except DecodeError α}
    {go : α → Except DecodeError (Option Stage)} {rest : α → Except DecodeError (Option Walk)}
    (hnext : s.next limit = read >>= go)
    (h : ∀ a, s.next limit = go a → Follows limit s (rest a)) : Follows limit s (read >>= rest) := by
  cases read with
  | error e => exact .of_error hnext
  | ok a => exact h a hnext

variable {c : Cursor} {opened : List Frame}

theorem follows_skip {size : Nat} {isKey : Bool} {rest : Cursor → Except DecodeError (Option Walk)}
    (h : ∀ c, Follows limit ⟨c, opened, if isKey then .tag else .count⟩ (rest c)) :
    Follows limit ⟨c, opened, .skip size isKey⟩ (c.skip size >>= rest) :=
  .of_read rfl fun c hnext => (h c).of_pass hnext

theorem follows_length {isKey : Bool} {rest : Cursor → Except DecodeError (Option Walk)}
    (h : ∀ c, Follows limit ⟨c, opened, if isKey then .tag else .count⟩ (rest c)) :
    Follows limit ⟨c, opened, .length isKey⟩ (c.skipPrefixed >>= rest) := by
  rw [Cursor.skipPrefixed, bind_assoc]
  exact .of_read rfl fun p hnext => (follows_skip h).of_pass hnext

theorem follows_enter (c : Cursor) (frame : Frame) (outer : List Frame) :
    Follows limit (.entering c frame outer) (enter c frame outer) := by
  obtain ⟨isMap, remaining⟩ := frame
  cases isMap with
  | true => exact follows_length fun c => .walk ⟨c, ⟨true, remaining⟩ :: outer⟩
  | false => exact .walk ⟨c, ⟨false, remaining⟩ :: outer⟩

theorem follows_close (c : Cursor) (opened : List Frame) :
    Follows limit ⟨c, opened, .count⟩ (close c opened) := by
  induction opened with
  | nil => exact fun _ => ⟨[_], .done rfl⟩
  | cons frame outer ih =>
    rw [close]
    split
    · next hlast => exact ih.of_pass (if_pos hlast)
    · next hmore => exact (follows_enter _ _ _).of_pass (if_neg hmore)

theorem follows_readPayload (c : Cursor) (opened : List Frame) (layout : Layout) :
    Follows limit ⟨c, opened, .ofLayout layout⟩ (readPayload limit c opened layout) := by
  cases layout with
  | fixed size => exact follows_skip fun c => follows_close c opened
  | prefixed => exact follows_length fun c => follows_close c opened
  | container isMap =>
    refine .of_read rfl fun ⟨length, c⟩ hnext => ?_
    dsimp only at hnext ⊢
    rw [openContainer]
    split
    · next hempty =>
      rw [if_pos hempty] at hnext
      exact (follows_close c opened).of_pass hnext
    · next hmore =>
      rw [if_neg hmore] at hnext
      split
      · next hfull =>
        rw [if_pos hfull] at hnext
        exact .of_error hnext
      · next hroom =>
        rw [if_neg hroom] at hnext
        exact (follows_enter c ⟨isMap, length⟩ opened).of_pass hnext

theorem follows_step (w : Walk) : Follows limit (.ofWalk w) (w.step limit) := by
  refine .of_read rfl fun ⟨tag, c⟩ hnext => ?_
  dsimp only at hnext ⊢
  cases hkind : NodeKind.ofTag? tag with
  | none =>
    rw [hkind] at hnext
    exact .of_error hnext
  | some kind =>
    rw [hkind] at hnext
    exact (follows_readPayload c w.opened kind.layout).of_pass hnext

/-- The stages of a walk end as the walk does. -/
theorem endsIn_run (w : Walk) : EndsIn limit (.ofWalk w) (run limit w) := by
  induction w using run.induct limit with
  | case1 w e hstep =>
    rw [run_eq]
    exact follows_step w fun next hnext => nomatch hstep.symm.trans hnext
  | case2 w hstep =>
    rw [run_eq]
    exact follows_step w fun next hnext => nomatch hstep.symm.trans hnext
  | case3 w next hstep ih =>
    rw [run_eq]
    refine follows_step w fun later hlater => ?_
    cases hstep.symm.trans hlater
    exact ih

end Walk

end ContentGraph
