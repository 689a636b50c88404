import ContentGraph.DepthWalk

/-! Reading a tree back from its bytes. Nesting is measured before any tree is built, and what was
read has to encode to the very bytes it was read from, so a tree is read from one byte string only. -/

namespace ContentGraph

/-- Takes what it reads from the front of the bytes, and leaves the others. -/
abbrev Decoder (α : Type) := StateT Bytes (Except DecodeError) α

namespace Decoder

def take (n : Nat) : Decoder Bytes := fun data =>
  match splitExactly n data with
  | some (front, back) => .ok (front, back)
  | none => .error .endOfBytes

def number (width : Nat) : Decoder Nat :=
  ofLittleEndian <$> take width

def prefixedBytes : Decoder Bytes := do
  take (← number 8)

def text : Decoder String := do
  match textOfUtf8 (← prefixedBytes) with
  | .ok s => return s
  | .error cause => throw (.badText cause)

def address : Decoder Address := do
  match Address.ofBytes (← prefixedBytes) with
  | .ok a => return a
  | .error cause => throw (.badLink cause)

def bool : Decoder Bool := do
  match ← take 1 with
  | [0] => return false
  | [1] => return true
  | data => throw (.badBool (data.headD 0))

def replicate {α : Type} (item : Decoder α) : Nat → Decoder (List α)
  | 0 => return []
  | n + 1 => do
    let a ← item
    let rest ← replicate item n
    return a :: rest

def entry (value : Decoder Node) : Decoder (String × Node) := do
  let key ← text
  let n ← value
  return (key, n)

/-- Reads a tree that nests less than `depth` containers deep. -/
def node (depth : Nat) : Decoder Node :=
  match depth with
  | 0 => throw .endOfBytes
  | depth + 1 => do
    let tag ← number 4
    match NodeKind.ofTag? tag with
    | none => throw (.unknownTag tag)
    | some .null => return .null
    | some .bool => .bool <$> bool
    | some .integer => (fun n => .integer (UInt64.ofNat n).toInt64) <$> number 8
    | some .float => (fun n => .float (UInt64.ofNat n)) <$> number 8
    | some .string => .string <$> text
    | some .bytes => .bytes <$> prefixedBytes
    | some .link => .link <$> address
    | some .list => do .list <$> replicate (node depth) (← number 8)
    | some .map => do
      (fun entries => .map (Entries.ofList entries)) <$>
        replicate (entry (node depth)) (← number 8)

end Decoder

namespace Node

/-- Every level of nesting takes bytes of its own, so the number of bytes bounds the depth. -/
def read (data : Bytes) : Except DecodeError (Node × Bytes) :=
  Decoder.node (data.length + 1) data

def maxDepth : Nat := 128

def decode (data : Bytes) : Except DecodeError Node := do
  checkDepth maxDepth data
  let (n, _) ← read data
  if n.encode = data then return n
  else throw (.notCanonical data.length n.encode.length)

theorem encode_of_decode {data : Bytes} {n : Node} (h : decode data = .ok n) : n.encode = data := by
  obtain ⟨_, -, h⟩ := bind_eq_ok_iff.mp h
  obtain ⟨⟨m, rest⟩, -, h⟩ := bind_eq_ok_iff.mp h
  dsimp only at h
  split at h
  · next heq => cases h; exact heq
  · cases h

end Node

end ContentGraph
