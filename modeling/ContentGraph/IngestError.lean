import ContentGraph.EncodeError
import ContentGraph.GraphError

/-! Why documents are not taken in, or not passed on to those who wait for them. -/

namespace ContentGraph

inductive IngestError
  | cancelled
  | streamClosed
  | unhandledType (type : String) (address : Address)
  | handler (type reason : String)
  | store (cause : StoreError)
  | graph (cause : GraphError)
  | encode (cause : EncodeError)
  deriving DecidableEq

def IngestError.message : IngestError → String
  | .cancelled => "ingestion cancelled"
  | .streamClosed => "address stream closed"
  | .unhandledType type address => s!"no handler for type {quoted type} (object {address.text})"
  | .handler type reason => s!"handler for {quoted type} failed: {reason}"
  | .store cause => cause.message
  | .graph cause => cause.message
  | .encode cause => cause.message

end ContentGraph
