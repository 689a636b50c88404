import ContentGraph.Store.Backend

/-! A backend in memory. -/

namespace ContentGraph

structure MemoryStore where
  table : Table Bytes

namespace MemoryStore

def empty : MemoryStore := ⟨Table.empty⟩

/-- The first value written under a key stays. -/
def write (m : MemoryStore) (key : String) (value : Bytes) : MemoryStore :=
  if m.table.contains key then m else ⟨m.table.insert key value⟩

/-- Replaces a value, as only a fault would. -/
def corrupt (m : MemoryStore) (key : String) (value : Bytes) : MemoryStore :=
  ⟨m.table.insert key value⟩

def keys (m : MemoryStore) : List String :=
  m.table.keys

def size (m : MemoryStore) : Nat :=
  m.table.size

def isEmpty (m : MemoryStore) : Bool :=
  m.size = 0

def summary (m : MemoryStore) : String :=
  s!"InMemoryDatastore \x7b entry_count: {m.size} \x7d"

end MemoryStore

instance : Backend MemoryStore where
  read m key := .ok (m.table.get? key)
  write m key value := (.ok (), m.write key value)
  has m key := .ok (m.table.contains key)

end ContentGraph
