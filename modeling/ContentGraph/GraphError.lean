import ContentGraph.StoreError

/-! Why a path through linked objects leads nowhere. -/

namespace ContentGraph

inductive GraphError
  | pathNotFound (path : List String)
  | expectedLink (segment : String) (found : NodeKind)
  | depthExceeded (limit : Nat)
  | store (cause : StoreError)
  deriving DecidableEq

namespace GraphError

def message : GraphError → String
  | .pathNotFound path => "path not found: " ++ "/".intercalate path
  | .expectedLink segment found =>
    s!"expected link before segment {quoted segment}, found {found.name}"
  | .depthExceeded limit => s!"link depth limit of {limit} exceeded"
  | .store cause => cause.message

def isAbsence : GraphError → Bool
  | .pathNotFound _ => true
  | .store cause => cause.isAbsence
  | _ => false

end GraphError

end ContentGraph
