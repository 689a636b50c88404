import ContentGraph.Xml.Element
import ContentGraph.Xml.Entity

/-! Reading a document into its element tree. Elements that are open are kept on a stack, and one
that would make it higher than a limit is refused before it is read. -/

namespace ContentGraph.Xml

/-- An element whose end tag has not been read. Children and text runs stand last first; the first run
is the one that text is added to. -/
structure OpenElement where
  tag : Bytes
  scope : Scope
  uri : Option String
  name : String
  attributes : List Attribute
  children : List Element
  run : String
  runs : List String

namespace OpenElement

def close (e : OpenElement) : Element where
  uri := e.uri
  name := e.name
  attributes := e.attributes
  children := e.children.reverse
  textRuns := (e.run :: e.runs).reverse

def addText (e : OpenElement) (s : String) : OpenElement :=
  { e with run := e.run ++ s }

def addChild (e : OpenElement) (child : Element) : OpenElement :=
  { e with children := child :: e.children, run := "", runs := e.run :: e.runs }

end OpenElement

/-- The elements that are open, innermost first, and the root if it is complete. -/
structure Reading where
  opened : List OpenElement
  root : Option Element

def decodeName (data : Bytes) : Except DocumentError String :=
  match textOfUtf8 data with
  | .ok s => .ok s
  | .error cause => .error (.notUtf8 cause)

/-- Text and attribute values, in which references are resolved. -/
def decodeText (raw : Bytes) : Except DocumentError String :=
  match textOfUtf8 raw with
  | .error cause => .error (.markup (.notUtf8 cause))
  | .ok s =>
    match unescape s with
    | .ok s => .ok s
    | .error cause => .error (.markup (.badEntity cause))

def decodeUri (uri : Except Bytes (Option Bytes)) : Except DocumentError (Option String) :=
  match uri with
  | .error label => .error (.unknownPrefix (lossyText label))
  | .ok none => .ok none
  | .ok (some uri) => some <$> decodeName uri

/-- The namespace is looked up first, then the name is decoded, then the value. -/
def decodeAttribute (scope : Scope) (a : RawAttribute) : Except DocumentError Attribute := do
  let (label, localPart) := splitName a.key
  let uri ← decodeUri (scope.ofAttribute label)
  let name ← decodeName localPart
  let value ← decodeText a.value
  return ⟨uri, name, value⟩

/-- The attributes up to the first fault; declarations are left out. -/
def decodeAttributes (scope : Scope) (list : AttributeList) :
    Except DocumentError (List Attribute) := do
  let attributes ← (list.attributes.filter fun a => (declaredLabel? a.key).isNone).mapM
    (decodeAttribute scope)
  match list.fault with
  | none => return attributes
  | some cause => throw (.markup (.badAttribute cause))

def currentScope (opened : List OpenElement) : Scope :=
  match opened with
  | [] => outermostScope
  | e :: _ => e.scope

/-- The element that a tag opens: its declarations come first, then the limit, its name and its
attributes. -/
def openElement (limit : Nat) (opened : List OpenElement) (content : Bytes) :
    Except DocumentError OpenElement := do
  let scope ← match (currentScope opened).enter content with
    | .ok scope => pure scope
    | .error cause => throw (.markup cause)
  if limit ≤ opened.length then throw (.tooDeep limit)
  else
    let tag := tagName content
    let (label, localPart) := splitName tag
    let uri ← decodeUri (scope.ofElement label)
    let name ← decodeName localPart
    let attributes ← decodeAttributes scope (attributesOf true content)
    return ⟨tag, scope, uri, name, attributes, [], "", []⟩

/-- Puts a complete element into the one around it. -/
def addElement (opened : List OpenElement) (root : Option Element) (e : Element) :
    Except DocumentError Reading :=
  match opened, root with
  | outer :: others, root => .ok ⟨outer.addChild e :: others, root⟩
  | [], none => .ok ⟨[], some e⟩
  | [], some _ => .error (.secondRoot e.displayName)

/-- The empty text stands for a name that is not UTF-8. -/
def shownName (name : Bytes) : String :=
  match textOfUtf8 name with
  | .ok s => s
  | .error _ => ""

def closeElement (name : Bytes) (state : Reading) : Except DocumentError Reading :=
  match state.opened with
  | [] => .error (.markup (.illFormed (.unmatchedEndTag (shownName name))))
  | e :: outer =>
    if e.tag = name then addElement outer state.root e.close
    else
      .error (.markup (.illFormed (.mismatchedEndTag (shownName e.tag) (shownName name))))

/-- Text outside the root element is passed over unread. -/
def addText (read : Bytes → Except DocumentError String) (raw : Bytes) (state : Reading) :
    Except DocumentError Reading :=
  match state.opened with
  | [] => .ok state
  | e :: outer => do
    let s ← read raw
    return ⟨e.addText s :: outer, state.root⟩

def Reading.add (limit : Nat) (state : Reading) : Markup → Except DocumentError Reading
  | .text raw => addText decodeText raw state
  | .cdata raw => addText decodeName raw state
  | .startTag content => do
    let e ← openElement limit state.opened content
    return ⟨e :: state.opened, state.root⟩
  | .emptyTag content => do
    let e ← openElement limit state.opened content
    addElement state.opened state.root e.close
  | .endTag name => closeElement name state
  | .other => .ok state

/-- Reads pieces until the end of the input. -/
def Reading.run (limit : Nat) (state : Reading) (data : Bytes) : Except DocumentError Reading :=
  match data with
  | [] => .ok state
  | b :: tail =>
    match _h : Markup.read b tail with
    | .error cause => .error (.markup cause)
    | .ok (m, rest) =>
      match state.add limit m with
      | .error e => .error e
      | .ok next => Reading.run limit next rest
termination_by data.length
decreasing_by exact Nat.lt_succ_of_le (Markup.read_length _h)

def Reading.finish (state : Reading) : Except DocumentError Element :=
  match state.opened, state.root with
  | e :: _, _ => .error (.unclosedElement e.close.displayName)
  | [], some root => .ok root
  | [], none => .error .noRoot

def dropByteOrderMark (data : Bytes) : Bytes :=
  if (utf8 "\ufeff").isPrefixOf data then data.drop 3 else data

/-- The element tree of a document, in which at most `limit` elements may stand inside each other. -/
def parseDocument (limit : Nat) (data : Bytes) : Except DocumentError Element := do
  let state ← Reading.run limit ⟨[], none⟩ (dropByteOrderMark data)
  state.finish

end ContentGraph.Xml
