import ContentGraph.NodeEncoding
import ContentGraph.Outcome

/-! A walk over encoded bytes that measures how deep their lists and maps nest, and builds no tree.
It reads tags and lengths, skips what they cover, and keeps a stack of the containers it is in. Every
step moves forward, whatever the lengths say. -/

namespace ContentGraph

inductive DecodeError
  | endOfBytes
  | unknownTag (tag : Nat)
  | tooDeep (limit : Nat)
  | badBool (byte : UInt8)
  | badText (cause : Utf8Error)
  | badLink (cause : AddressError)
  | notCanonical (length canonicalLength : Nat)
  deriving DecidableEq

def DecodeError.reason : DecodeError → String
  | .endOfBytes => "unexpected end of node bytes"
  | .unknownTag tag => s!"unknown node tag {tag}"
  | .tooDeep limit => s!"nesting deeper than {limit} levels"
  | .badBool byte => s!"invalid u8 while decoding bool, expected 0 or 1, found {byte.toNat}"
  | .badText cause => s!"string is not valid utf8: {cause.message}"
  | .badLink cause => cause.message
  | .notCanonical length canonicalLength =>
    s!"non-canonical encoding ({length} bytes, canonical form is {canonicalLength})"

/-- The first `n` bytes and the others, if there are `n`. -/
def splitExactly : Nat → Bytes → Option (Bytes × Bytes)
  | 0, data => some ([], data)
  | _ + 1, [] => none
  | n + 1, b :: data => (splitExactly n data).map fun p => (b :: p.1, p.2)

theorem splitExactly_eq_some_iff {n : Nat} {data front back : Bytes} :
    splitExactly n data = some (front, back) ↔ front.length = n ∧ data = front ++ back := by
  induction n generalizing data front with
  | zero => cases front <;> simp [splitExactly, eq_comm]
  | succ n ih =>
    cases data with
    | nil => cases front <;> simp [splitExactly]
    | cons b data =>
      cases front with
      | nil => simp [splitExactly]
      | cons c front =>
        simp only [splitExactly, Option.map_eq_some_iff, Prod.exists, Prod.mk.injEq,
          List.cons.injEq, List.length_cons, List.cons_append]
        constructor
        · rintro ⟨front', back', h, ⟨rfl, rfl⟩, rfl⟩
          obtain ⟨hlen, hdata⟩ := ih.mp h
          exact ⟨by omega, rfl, hdata⟩
        · rintro ⟨hlen, rfl, hdata⟩
          exact ⟨front, back, ih.mpr ⟨by omega, hdata⟩, ⟨rfl, rfl⟩, rfl⟩

/-- A place in the input: how many bytes have been read, and those that have not. -/
structure Cursor where
  position : Nat
  rest : Bytes

namespace Cursor

def take (n : Nat) (c : Cursor) : Except DecodeError (Bytes × Cursor) :=
  match splitExactly n c.rest with
  | some (front, back) => .ok (front, ⟨c.position + n, back⟩)
  | none => .error .endOfBytes

def skip (n : Nat) (c : Cursor) : Except DecodeError Cursor := do
  let (_, c) ← c.take n
  return c

def number (width : Nat) (c : Cursor) : Except DecodeError (Nat × Cursor) := do
  let (data, c) ← c.take width
  return (ofLittleEndian data, c)

def skipPrefixed (c : Cursor) : Except DecodeError Cursor := do
  let (length, c) ← c.number 8
  c.skip length

theorem take_length {n : Nat} {c c' : Cursor} {front : Bytes} (h : c.take n = .ok (front, c')) :
    c'.rest.length + n = c.rest.length := by
  unfold take at h
  split at h
  · next hsplit =>
    obtain ⟨hlen, hdata⟩ := splitExactly_eq_some_iff.mp hsplit
    cases h
    simp only [hdata, List.length_append]
    omega
  · cases h

theorem skip_length {n : Nat} {c c' : Cursor} (h : c.skip n = .ok c') :
    c'.rest.length + n = c.rest.length := by
  obtain ⟨_, ht, hc⟩ := bind_eq_ok_iff.mp h
  cases hc
  exact take_length ht

theorem number_length {width value : Nat} {c c' : Cursor} (h : c.number width = .ok (value, c')) :
    c'.rest.length + width = c.rest.length := by
  obtain ⟨_, ht, hc⟩ := bind_eq_ok_iff.mp h
  cases hc
  exact take_length ht

theorem skipPrefixed_length {c c' : Cursor} (h : c.skipPrefixed = .ok c') :
    c'.rest.length ≤ c.rest.length := by
  obtain ⟨_, hn, hs⟩ := bind_eq_ok_iff.mp h
  have := number_length hn
  have := skip_length hs
  omega

end Cursor

/-- An open container, and how many of its values are not complete yet. -/
structure Frame where
  isMap : Bool
  remaining : Nat

/-- The open containers stand innermost first. -/
structure Walk where
  cursor : Cursor
  opened : List Frame

namespace Walk

/-- Goes on to the next value of the innermost container, which in a map stands behind its key. -/
def enter (c : Cursor) (frame : Frame) (outer : List Frame) : Except DecodeError (Option Walk) :=
  if frame.isMap then do
    let c ← c.skipPrefixed
    return some ⟨c, frame :: outer⟩
  else .ok (some ⟨c, frame :: outer⟩)

/-- A value is complete: the containers it completes are closed, and the next one is gone on with.
There is none if the whole tree is complete. -/
def close (c : Cursor) : List Frame → Except DecodeError (Option Walk)
  | [] => .ok none
  | frame :: outer =>
    if frame.remaining - 1 = 0 then close c outer
    else enter c { frame with remaining := frame.remaining - 1 } outer

/-- A container of no values is complete at once, and is no level of nesting. -/
def openContainer (limit : Nat) (c : Cursor) (frame : Frame) (outer : List Frame) :
    Except DecodeError (Option Walk) :=
  if frame.remaining = 0 then close c outer
  else if limit ≤ outer.length then .error (.tooDeep limit)
  else enter c frame outer

/-- Reads what belongs to a tag. -/
def readPayload (limit : Nat) (c : Cursor) (opened : List Frame) :
    Layout → Except DecodeError (Option Walk)
  | .fixed size => do close (← c.skip size) opened
  | .prefixed => do close (← c.skipPrefixed) opened
  | .container isMap => do
    let (length, c) ← c.number 8
    openContainer limit c ⟨isMap, length⟩ opened

/-- Reads one tag and what belongs to it. -/
def step (limit : Nat) (w : Walk) : Except DecodeError (Option Walk) := do
  let (tag, c) ← w.cursor.number 4
  match NodeKind.ofTag? tag with
  | none => throw (.unknownTag tag)
  | some kind => readPayload limit c w.opened kind.layout

theorem enter_length {c : Cursor} {frame : Frame} {outer : List Frame} {w : Walk}
    (h : enter c frame outer = .ok (some w)) : w.cursor.rest.length ≤ c.rest.length := by
  unfold enter at h
  split at h
  · obtain ⟨_, hs, hw⟩ := bind_eq_ok_iff.mp h
    cases hw
    exact Cursor.skipPrefixed_length hs
  · cases h
    exact Nat.le_refl _

theorem close_length {c : Cursor} {opened : List Frame} {w : Walk}
    (h : close c opened = .ok (some w)) : w.cursor.rest.length ≤ c.rest.length := by
  induction opened with
  | nil => cases h
  | cons frame outer ih =>
    simp only [close] at h
    split at h
    · exact ih h
    · exact enter_length h

theorem readPayload_length {limit : Nat} {c : Cursor} {opened : List Frame} {layout : Layout}
    {w : Walk} (h : readPayload limit c opened layout = .ok (some w)) :
    w.cursor.rest.length ≤ c.rest.length := by
  cases layout with
  | fixed size =>
    obtain ⟨_, hs, hc⟩ := bind_eq_ok_iff.mp h
    have := Cursor.skip_length hs
    have := close_length hc
    omega
  | prefixed =>
    obtain ⟨_, hs, hc⟩ := bind_eq_ok_iff.mp h
    exact Nat.le_trans (close_length hc) (Cursor.skipPrefixed_length hs)
  | container isMap =>
    obtain ⟨_, hn, ho⟩ := bind_eq_ok_iff.mp h
    have := Cursor.number_length hn
    simp only [openContainer] at ho
    split at ho
    · have := close_length ho
      omega
    · split at ho
      · cases ho
      · have := enter_length ho
        omega

theorem step_length {limit : Nat} {w next : Walk} (h : w.step limit = .ok (some next)) :
    next.cursor.rest.length < w.cursor.rest.length := by
  obtain ⟨⟨tag, c⟩, hn, hp⟩ := bind_eq_ok_iff.mp h
  have := Cursor.number_length hn
  dsimp only at hp
  split at hp
  · cases hp
  · have := readPayload_length hp
    omega

/-- Steps until the tree is complete. -/
def run (limit : Nat) (w : Walk) : Except DecodeError Unit :=
  match _h : w.step limit with
  | .error e => .error e
  | .ok none => .ok ()
  | .ok (some next) => run limit next
termination_by w.cursor.rest.length
decreasing_by exact step_length _h

end Walk

/-- Rejects bytes whose non-empty lists and maps nest deeper than `limit`, and bytes that end inside
a value or hold an unknown tag. -/
def checkDepth (limit : Nat) (data : Bytes) : Except DecodeError Unit :=
  Walk.run limit ⟨⟨0, data⟩, []⟩

end ContentGraph
