import ContentGraph.NodeDecoding
import ContentGraph.Value

/-! Why blocks, objects and stores fail. -/

namespace ContentGraph

inductive IoKind
  | notFound
  | permissionDenied
  | alreadyExists
  | invalidInput
  | invalidData
  | writeZero
  | notADirectory
  | isADirectory
  | invalidName
  deriving DecidableEq

structure IoError where
  kind : IoKind
  message : String
  deriving DecidableEq

inductive StoreError
  | invalidVersion (version : UInt8)
  | addressMismatch (claimed derived : Address)
  | invalidCodec (codec : Codec)
  | undecodable (cause : DecodeError)
  | notString (field : String) (found : NodeKind)
  | unencodable (cause : ValueError)
  | invalidType (found : NodeKind)
  | pathNotFound (path : List String)
  | notFound (address : Address)
  | io (cause : IoError)
  deriving DecidableEq

namespace StoreError

def message : StoreError → String
  | .invalidVersion version =>
    s!"unsupported address version {version.toNat} (supported: {Address.currentVersion.toNat})"
  | .addressMismatch claimed derived =>
    s!"address mismatch: claimed {claimed.text}, derived {derived.text}"
  | .invalidCodec codec => s!"invalid codec {codec.name}: objects must use the node codec"
  | .undecodable cause => s!"decode error: {cause.reason}"
  | .notString field found => s!"decode error: field {field} is a {found.name}, not a string"
  | .unencodable cause => s!"encode error: {cause.reason}"
  | .invalidType found => s!"invalid @type field: expected string, got {found.name}"
  | .pathNotFound path => "path not found: " ++ "/".intercalate path
  | .notFound address => s!"object not found: {address.text}"
  | .io cause => s!"I/O error: {cause.message}"

/-- What was asked for is simply not there, which callers need not treat as a failure. -/
def isAbsence : StoreError → Bool
  | .pathNotFound _ => true
  | _ => false

end StoreError

end ContentGraph
