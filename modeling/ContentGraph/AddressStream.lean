import ContentGraph.IngestError

/-! A bounded queue of addresses between those who store documents and those who read them. What
cannot be done yet is pending and has no effect. -/

namespace ContentGraph

inductive Poll (α : Type u)
  | ready (value : α)
  | pending

/-- The senders are numbered in the order of their making. -/
structure AddressStream where
  capacity : Nat
  queue : List Address
  senders : List Nat
  madeSenders : Nat
  /-- No more addresses are accepted. -/
  closed : Bool
  /-- The receiving end is gone, and what was queued with it. -/
  dropped : Bool

namespace AddressStream

def make (capacity : Nat) : AddressStream where
  capacity := capacity
  queue := []
  senders := [0]
  madeSenders := 1
  closed := false
  dropped := false

def hasSender (s : AddressStream) (sender : Nat) : Bool :=
  sender ∈ s.senders

/-- The number of the new sender, and the stream with it. -/
def addSender (s : AddressStream) : Nat × AddressStream :=
  (s.madeSenders,
    { s with senders := s.senders ++ [s.madeSenders], madeSenders := s.madeSenders + 1 })

def dropSender (s : AddressStream) (sender : Nat) : AddressStream :=
  { s with senders := s.senders.erase sender }

def dropSenders (s : AddressStream) : AddressStream :=
  { s with senders := [] }

def close (s : AddressStream) : AddressStream :=
  { s with closed := true }

def drop (s : AddressStream) : AddressStream :=
  { s with queue := [], closed := true, dropped := true }

/-- Cancellation comes before all else, and a closed stream before a full one. -/
def send (s : AddressStream) (cancelled : Bool) (a : Address) :
    Poll (Except IngestError Unit) × AddressStream :=
  if cancelled then (.ready (.error .cancelled), s)
  else if s.closed then (.ready (.error .streamClosed), s)
  else if s.queue.length < s.capacity then (.ready (.ok ()), { s with queue := s.queue ++ [a] })
  else (.pending, s)

/-- Nothing is queued and nothing ever will be. -/
def isFinished (s : AddressStream) : Bool :=
  s.queue.isEmpty && (s.closed || s.senders.isEmpty)

/-- The next address, or none if there will be no more. -/
def receive (s : AddressStream) (cancelled : Bool) :
    Poll (Except IngestError (Option Address)) × AddressStream :=
  if cancelled then (.ready (.error .cancelled), s)
  else
    match s.queue with
    | a :: rest => (.ready (.ok (some a)), { s with queue := rest })
    | [] => if s.isFinished then (.ready (.ok none), s) else (.pending, s)

end AddressStream

end ContentGraph
