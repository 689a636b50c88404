import ContentGraph.Proofs.Escaping

/-! Documents as they are written down: tags with declarations and attributes, and between them
text, CDATA sections, comments and processing instructions. Beside the text of a document stands
what it means: the tree of its elements, in which a prefix stands for what the innermost declaration
around it says. -/

namespace ContentGraph.Xml

/-- ASCII letters and digits, at least one. -/
structure Name where
  text : String
  nonempty : text ≠ ""
  alphanumeric : ∀ c ∈ text.toList, c.isAlphanum = true
  deriving DecidableEq

def nameA : Name := ⟨"a", by decide, by simp⟩

def nameB : Name := ⟨"b", by decide, by simp⟩

/-- A prefix of names. -/
structure Label extends Name where
  notReserved : text ≠ "xmlns"
  deriving DecidableEq

structure WrittenName where
  label : Option Label
  localName : Name

def WrittenName.written (n : WrittenName) : String :=
  match n.label with
  | none => n.localName.text
  | some label => label.text ++ ":" ++ n.localName.text

/-- A declaration of a prefix, or of the default namespace. What it is declared to stand for is
written without references, so that it may hold any character but the quotation mark. -/
structure Declaration where
  label : Option Label
  uri : String
  notXml : ∀ l ∈ label, l.text ≠ "xml"
  unquoted : '"' ∉ uri.toList
  unreserved : uri ≠ xmlNamespace ∧ uri ≠ xmlnsNamespace

structure WrittenAttribute where
  name : WrittenName
  value : String
  notDeclaration : name.written ≠ "xmlns"

/-- What stands behind the name in a tag. -/
inductive TagEntry
  | declaration (d : Declaration)
  | attribute (a : WrittenAttribute)

namespace TagEntry

def key : TagEntry → String
  | .declaration d =>
    match d.label with
    | none => "xmlns"
    | some label => "xmlns:" ++ label.text
  | .attribute a => a.name.written

def value : TagEntry → String
  | .declaration d => d.uri
  | .attribute a => escaped a.value

def written (e : TagEntry) : String :=
  " " ++ e.key ++ "=\"" ++ e.value ++ "\""

def declaration? : TagEntry → Option Declaration
  | .declaration d => some d
  | .attribute _ => none

def attribute? : TagEntry → Option WrittenAttribute
  | .declaration _ => none
  | .attribute a => some a

end TagEntry

/-- No prefix is declared twice, and no two attributes are written alike. -/
structure Tag where
  name : WrittenName
  entries : List TagEntry
  distinct : (entries.map TagEntry.key).Nodup

namespace Tag

def written (tag : Tag) : String :=
  tag.name.written ++ String.join (tag.entries.map TagEntry.written)

def declarations (tag : Tag) : List Declaration :=
  tag.entries.filterMap TagEntry.declaration?

def attributes (tag : Tag) : List WrittenAttribute :=
  tag.entries.filterMap TagEntry.attribute?

end Tag

/-- What an element holds beside elements. -/
inductive Piece
  | text (s : String)
  | cdata (s : String) (h : ¬[']', ']', '>'] <:+: s.toList)
  | comment (body : String) (h : '>' ∉ body.toList)
  | instruction (body : String) (h : '?' ∉ body.toList ∧ '>' ∉ body.toList)

namespace Piece

def written : Piece → String
  | .text s => escaped s
  | .cdata s _ => "<![CDATA[" ++ s ++ "]]>"
  | .comment body _ => "<!--" ++ body ++ "-->"
  | .instruction body _ => "<?" ++ body ++ "?>"

/-- The text that it stands for. -/
def shown : Piece → String
  | .text s => s
  | .cdata s _ => s
  | .comment _ _ => ""
  | .instruction _ _ => ""

end Piece

def writtenRun (run : List Piece) : String :=
  String.join (run.map Piece.written)

def shownRun (run : List Piece) : String :=
  String.join (run.map Piece.shown)

mutual

/-- An element that holds nothing may be written as one tag. -/
inductive Tree
  | pair (tag : Tag) (content : Content)
  | single (tag : Tag)

/-- Pieces, and between them elements. -/
inductive Content
  | last (run : List Piece)
  | child (run : List Piece) (tree : Tree) (rest : Content)

end

mutual

def Tree.written : Tree → String
  | .pair tag content =>
    "<" ++ tag.written ++ ">" ++ content.written ++ "</" ++ tag.name.written ++ ">"
  | .single tag => "<" ++ tag.written ++ "/>"

def Content.written : Content → String
  | .last run => writtenRun run
  | .child run tree rest => writtenRun run ++ tree.written ++ rest.written

end

mutual

/-- The number of elements on the longest way down. -/
def Tree.height : Tree → Nat
  | .pair _ content => content.height + 1
  | .single _ => 1

def Content.height : Content → Nat
  | .last _ => 0
  | .child _ tree rest => max tree.height rest.height

end

/-- Which namespace a prefix stands for inside tags, the innermost first. Without a prefix it is the
default namespace that is asked for. -/
abbrev Naming := List Tag → Option Label → Option String

/-- The default namespace is none of an attribute's. -/
def WrittenAttribute.attribute (naming : Naming) (tags : List Tag) (a : WrittenAttribute) :
    Attribute where
  uri := a.name.label.bind fun label => naming tags (some label)
  name := a.name.localName.text
  value := a.value

def Tag.element (naming : Naming) (tags : List Tag) (tag : Tag) (children : List Element)
    (textRuns : List String) : Element where
  uri := naming tags tag.name.label
  name := tag.name.localName.text
  attributes := tag.attributes.map (WrittenAttribute.attribute naming tags)
  children := children
  textRuns := textRuns

def Content.textRuns : Content → List String
  | .last run => [shownRun run]
  | .child run _ rest => shownRun run :: rest.textRuns

mutual

/-- The element that is written, inside the tags around it. -/
def Tree.element (naming : Naming) (outer : List Tag) : Tree → Element
  | .pair tag content =>
    tag.element naming (tag :: outer) (content.elements naming (tag :: outer)) content.textRuns
  | .single tag => tag.element naming (tag :: outer) [] [""]

def Content.elements (naming : Naming) (outer : List Tag) : Content → List Element
  | .last _ => []
  | .child _ tree rest => tree.element naming outer :: rest.elements naming outer

end

/-- What a prefix is declared to stand for in a tag. -/
def Tag.declared? (tag : Tag) (label : Option Label) : Option String :=
  (tag.declarations.find? fun d => d.label = label).map Declaration.uri

/-- The innermost declaration decides, and one of the empty text takes the prefix out of use. The
prefix `xml` always stands for its own namespace. -/
def lexicalNamespace : Naming := fun tags label =>
  if label.map (fun l => l.text) = some "xml" then some xmlNamespace
  else (tags.findSome? fun tag => tag.declared? label).filter (· ≠ "")

/-- The prefixes in a tag, the element's own first. -/
def Tag.labels (tag : Tag) : List Label :=
  tag.name.label.toList ++ tag.attributes.filterMap fun a => a.name.label

/-- Those of the prefixes that stand for no namespace. -/
def unboundAmong (tags : List Tag) (labels : List Label) : List Label :=
  labels.filter fun label => lexicalNamespace tags (some label) = none

def Tag.unbound (tags : List Tag) (tag : Tag) : List Label :=
  unboundAmong tags tag.labels

mutual

/-- The prefixes that stand for no namespace, in the order in which they are written. -/
def Tree.unbound (outer : List Tag) : Tree → List Label
  | .pair tag content => tag.unbound (tag :: outer) ++ content.unbound (tag :: outer)
  | .single tag => tag.unbound (tag :: outer)

def Content.unbound (outer : List Tag) : Content → List Label
  | .last _ => []
  | .child _ tree rest => tree.unbound outer ++ rest.unbound outer

end

/-- A tag without prefixes and declarations. -/
structure Tag.IsPlain (tag : Tag) : Prop where
  name : tag.name.label = none
  entries : ∀ e ∈ tag.entries, ∃ a : WrittenAttribute, e = .attribute a ∧ a.name.label = none

mutual

/-- No prefixes and no declarations are used. -/
def Tree.IsPlain : Tree → Prop
  | .pair tag content => tag.IsPlain ∧ content.IsPlain
  | .single tag => tag.IsPlain

def Content.IsPlain : Content → Prop
  | .last _ => True
  | .child _ tree rest => tree.IsPlain ∧ rest.IsPlain

end

end ContentGraph.Xml
