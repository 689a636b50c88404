import ContentGraph.AddressStream
import ContentGraph.Encoder

/-! Documents converted into stored objects under a list of contexts, and their roots published. A
root is published only when all of its document is stored. -/

namespace ContentGraph

structure Converter where
  contexts : List Context
  config : EncoderConfig := {}

namespace Converter

variable {σ : Type} [Backend σ]

def load (state : σ) (contexts : List Address) : Except IngestError Converter :=
  match Context.loadAll state contexts with
  | .ok contexts => .ok { contexts }
  | .error cause => .error (.encode cause)

def encoder (c : Converter) : Encoder :=
  ⟨Context.resolveInOrder c.contexts, c.config⟩

def convert (c : Converter) (document : Bytes) : Stateful IngestError σ Address := fun state =>
  match c.encoder.encodeDocument Store.put document state with
  | (.ok root, state) => (.ok root, state)
  | (.error cause, state) => (.error (.encode cause), state)

/-- Converts a document and sends its root, unless it is cancelled before it begins. -/
def publish (c : Converter) (cancelled : Bool) (document : Bytes) (state : σ)
    (stream : AddressStream) : Poll (Except IngestError Address) × σ × AddressStream :=
  if cancelled then (.ready (.error .cancelled), state, stream)
  else
    match c.convert document state with
    | (.error e, state) => (.ready (.error e), state, stream)
    | (.ok root, state) =>
      match stream.send cancelled root with
      | (.ready (.ok ()), stream) => (.ready (.ok root), state, stream)
      | (.ready (.error e), stream) => (.ready (.error e), state, stream)
      | (.pending, stream) => (.pending, state, stream)

end Converter

end ContentGraph
