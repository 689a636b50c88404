import ContentGraph.Store.Backend

/-! A backend that stops working: all reads fail, or all writes after a number of them. -/

namespace ContentGraph

structure Faulty (σ : Type) where
  inner : σ
  /-- The message of failing reads, if they fail. -/
  readFault : Option String
  /-- The message of failing writes, and how many writes still succeed before it. -/
  writeFault : Option (String × Nat)

namespace Faulty

variable {σ : Type} [Backend σ]

def sound (inner : σ) : Faulty σ := ⟨inner, none, none⟩

def reading {α : Type} (s : Faulty σ) (result : Except IoError α) : Except IoError α :=
  match s.readFault with
  | some message => .error ⟨.permissionDenied, message⟩
  | none => result

def write (s : Faulty σ) (key : String) (value : Bytes) : Except IoError Unit × Faulty σ :=
  match s.writeFault with
  | some (message, 0) => (.error ⟨.writeZero, message⟩, s)
  | fault =>
    let (result, inner) := Backend.write s.inner key value
    let remaining := match result with
      | .ok () => fault.map fun f => (f.1, f.2 - 1)
      | .error _ => fault
    (result, { s with inner, writeFault := remaining })

instance : Backend (Faulty σ) where
  read s key := s.reading (Backend.read s.inner key)
  write := write
  has s key := s.reading (Backend.has s.inner key)

end Faulty

end ContentGraph
