import ContentGraph.IngestError

/-! Errors with their causes, as messages from the outermost inwards. An error that only passes another
one on has that one's causes. -/

namespace ContentGraph

namespace Xml

def ReferenceError.causes (e : ReferenceError) : List String :=
  match e with
  | .empty | .badDigit | .tooLarge => [e.message]
  | _ => []

def EntityError.causes : EntityError → List String
  | .badReference cause => cause.message :: cause.causes
  | _ => []

def MarkupError.causes : MarkupError → List String
  | .syntactic cause => [cause.message]
  | .illFormed cause => [cause.message]
  | .notUtf8 cause => [cause.message]
  | .badAttribute cause => [cause.message]
  | .badEntity cause => cause.message :: cause.causes
  | .badBinding _ _ => []

def DocumentError.causes : DocumentError → List String
  | .markup cause => cause.message :: cause.causes
  | _ => []

end Xml

def StoreError.causes : StoreError → List String
  | .io cause => [cause.message]
  | _ => []

def StoreError.chain (e : StoreError) : List String :=
  e.message :: e.causes

def GraphError.chain : GraphError → List String
  | .store cause => cause.chain
  | e => [e.message]

def EncodeError.causes : EncodeError → List String
  | .document cause => cause.causes
  | .contextUnavailable _ cause => cause.chain
  | .store cause => cause.causes
  | _ => []

def IngestError.chain : IngestError → List String
  | .store cause => cause.chain
  | .graph cause => cause.chain
  | .encode cause => cause.message :: cause.causes
  | e => [e.message]

end ContentGraph
