import ContentGraph.AddressStream
import ContentGraph.Dispatch

/-! Taking addresses off a stream and indexing the objects behind them. -/

namespace ContentGraph

/-- What is done with each object in turn. -/
abbrev Indexer (τ : Type) := Object → Stateful IngestError τ Unit

def Dispatch.indexer {τ : Type} (d : Dispatch τ) (fetch : Fetch) : Indexer τ := fun o => do
  discard (d.dispatch fetch o)

/-- Fetches the object of an address and indexes it. -/
def indexAddress {τ : Type} (fetch : Fetch) (index : Indexer τ) (a : Address) :
    Stateful IngestError τ Unit :=
  match fetch a with
  | .error cause => throw (.store cause)
  | .ok o => index o

/-- How far a queue was worked off. -/
structure Consumed (τ : Type) where
  indexed : Nat
  failure : Option IngestError
  /-- What was not taken off the queue. -/
  left : List Address
  state : τ

/-- Works off a queue up to the first failure. The address that fails is taken off as well. The
indexer's state tells when the signal fires, which is looked at before every address. -/
def consume {τ : Type} (fetch : Fetch) (index : Indexer τ) (fires : τ → Bool) :
    List Address → τ → Consumed τ
  | [], state => ⟨0, if fires state then some .cancelled else none, [], state⟩
  | a :: rest, state =>
    if fires state then ⟨0, some .cancelled, a :: rest, state⟩
    else
      match indexAddress fetch index a state with
      | (.error e, state) => ⟨0, some e, rest, state⟩
      | (.ok (), state) =>
        let later := consume fetch index fires rest state
        { later with indexed := later.indexed + 1 }

/-- Indexes what a stream has to give, until it is finished or something fails: the number of
objects indexed. It is pending when the queue is worked off and more may come. -/
def runIndexer {τ : Type} (fetch : Fetch) (index : Indexer τ) (fires : τ → Bool)
    (stream : AddressStream) (state : τ) : Poll (Except IngestError Nat) × AddressStream × τ :=
  let worked := consume fetch index fires stream.queue state
  let stream := { stream with queue := worked.left }
  match worked.failure with
  | some e => (.ready (.error e), stream, worked.state)
  | none =>
    if stream.isFinished then (.ready (.ok worked.indexed), stream, worked.state)
    else (.pending, stream, worked.state)

end ContentGraph
