import ContentGraph.StoreError
import ContentGraph.Xml.Error

/-! Why documents cannot be encoded, and encoded ones cannot be read back. -/

namespace ContentGraph

inductive ContextFault
  | missing
  | notAMap
  | badTerm (name : String) (found : NodeKind)
  deriving DecidableEq

def ContextFault.reason : ContextFault → String
  | .missing => "missing @context field"
  | .notAMap => "@context is not a map"
  | .badTerm name found => s!"term {quoted name} is a {found.name}"

inductive ShapeFault
  | notAMap
  | noType
  | badText
  | badLinks
  | badField (name : String) (found : NodeKind)
  | noValue
  deriving DecidableEq

def ShapeFault.reason : ShapeFault → String
  | .notAMap => "not a map"
  | .noType => "no @type"
  | .badText => "@value list holds a non-string"
  | .badLinks => "list field holds a non-link"
  | .badField name found => s!"field {name} is a {found.name}"
  | .noValue => "leaf without @value"

inductive EncodeError
  | document (cause : Xml.DocumentError)
  | missingContext (name : String)
  | contextUnavailable (context : Address) (cause : StoreError)
  | invalidContext (context : Address) (fault : ContextFault)
  | fieldConflict (element field : String)
  | tooDeep (limit : Nat)
  | unexpectedShape (object : Address) (fault : ShapeFault)
  | store (cause : StoreError)
  deriving DecidableEq

def EncodeError.message : EncodeError → String
  | .document cause => cause.message
  | .missingContext name => s!"no context provides a type for {quoted name}"
  | .contextUnavailable context cause => s!"context {context.text} unavailable: {cause.message}"
  | .invalidContext context fault =>
    s!"invalid context document {context.text}: {fault.reason}"
  | .fieldConflict element field =>
    s!"element {quoted element}: field {quoted field} is both an attribute and a child element"
  | .tooDeep limit => s!"element nesting exceeds {limit} levels"
  | .unexpectedShape object fault => s!"unexpected object shape: {object.text}: {fault.reason}"
  | .store cause => cause.message

end ContentGraph
