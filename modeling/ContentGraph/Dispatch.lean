import ContentGraph.Graph
import ContentGraph.IngestError
import ContentGraph.Shape
import ContentGraph.Store

/-! Objects handed to whatever handles their declared type. -/

namespace ContentGraph

/-- What is done with an object, given a graph rooted at it and its shape. The state is the
handler's own. -/
abbrev Handler (τ : Type) := Graph → Shape → Stateful IngestError τ Unit

structure DispatchConfig where
  /-- Objects whose type has no handler are passed over. -/
  skipUnknown : Bool := true
  deriving DecidableEq

structure Dispatch (τ : Type) where
  handlers : Table (Handler τ) := .empty
  config : DispatchConfig := {}
  graph : GraphConfig := {}

namespace Dispatch

variable {τ : Type}

/-- A later handler of a type replaces an earlier one. -/
def on (d : Dispatch τ) (type : String) (handler : Handler τ) : Dispatch τ :=
  { d with handlers := d.handlers.insert type handler }

def handles (d : Dispatch τ) (type : String) : Bool :=
  d.handlers.contains type

/-- Whether the object was handled. The handler is looked up first, and only then is the shape
read. -/
def dispatch (d : Dispatch τ) (fetch : Fetch) (o : Object) : Stateful IngestError τ Bool :=
  match d.handlers.get? o.typeName with
  | none =>
    if d.config.skipUnknown then return false
    else throw (.unhandledType o.typeName o.address)
  | some handler =>
    match Shape.ofObject o with
    | .error cause => throw (.encode cause)
    | .ok shape => do
      handler { fetch, root := o, config := d.graph } shape
      return true

def summary (d : Dispatch τ) : String :=
  let types := ", ".intercalate (d.handlers.keys.map quoted)
  s!"TypeDispatch \x7b types: [{types}], config: DispatchConfig \x7b skip_unknown: {d.config.skipUnknown} \x7d \x7d"

end Dispatch

end ContentGraph
