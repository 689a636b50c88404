import ContentGraph.Quoted
import ContentGraph.Utf8

/-! Why XML text cannot be read as a document. -/

namespace ContentGraph.Xml

inductive SyntaxError
  | invalidBangMarkup
  | unclosedInstruction
  | unclosedComment
  | unclosedDoctype
  | unclosedCData
  | unclosedTag
  deriving DecidableEq

def SyntaxError.message : SyntaxError → String
  | .invalidBangMarkup => "unknown or missed symbol in markup"
  | .unclosedInstruction =>
    "processing instruction or xml declaration not closed: `?>` not found before end of input"
  | .unclosedComment => "comment not closed: `-->` not found before end of input"
  | .unclosedDoctype => "DOCTYPE not closed: `>` not found before end of input"
  | .unclosedCData => "CDATA not closed: `]]>` not found before end of input"
  | .unclosedTag => "tag not closed: `>` not found before end of input"

/-- Tags that do not fit together. A name that is not UTF-8 is given as the empty text. -/
inductive NestingError
  | missingDoctypeName
  | unmatchedEndTag (name : String)
  | mismatchedEndTag (expected found : String)
  deriving DecidableEq

def NestingError.message : NestingError → String
  | .missingDoctypeName => "`<!DOCTYPE>` declaration does not contain a name of a document type"
  | .unmatchedEndTag name => s!"close tag `</{name}>` does not match any open tag"
  | .mismatchedEndTag expected found => s!"expected `</{expected}>`, but `</{found}>` was found"

/-- Positions count the bytes from the start of the tag's content. -/
inductive AttributeError
  | expectedEquals (position : Nat)
  | expectedValue (position : Nat)
  | unquotedValue (position : Nat)
  | expectedQuote (position : Nat) (quote : Char)
  | duplicated (position earlier : Nat)
  deriving DecidableEq

def AttributeError.message : AttributeError → String
  | .expectedEquals position =>
    s!"position {position}: attribute key must be directly followed by `=` or space"
  | .expectedValue position => s!"position {position}: `=` must be followed by an attribute value"
  | .unquotedValue position =>
    s!"position {position}: attribute value must be enclosed in `\"` or `'`"
  | .expectedQuote position quote =>
    s!"position {position}: missing closing quote `{quote}` in attribute value"
  | .duplicated position earlier =>
    s!"position {position}: duplicated attribute, previous declaration at position {earlier}"

/-- Why a numeric reference stands for no character. -/
inductive ReferenceError
  | sign
  | empty
  | badDigit
  | tooLarge
  | noCharacter (code : Nat)
  | zero
  deriving DecidableEq

def ReferenceError.message : ReferenceError → String
  | .sign => "unexpected number sign"
  | .empty => "cannot parse integer from empty string"
  | .badDigit => "invalid digit found in string"
  | .tooLarge => "number too large to fit in target type"
  | .noCharacter code => s!"`{code}` is not a valid codepoint"
  | .zero => "0x0 character is not permitted in XML"

/-- Ranges count the bytes of the text that the entity stands in. -/
inductive EntityError
  | unterminated (first last : Nat)
  | unrecognized (first last : Nat) (name : String)
  | badReference (cause : ReferenceError)
  deriving DecidableEq

def EntityError.message : EntityError → String
  | .unterminated first last =>
    s!"Error while escaping character at range {first}..{last}: Cannot find ';' after '&'"
  | .unrecognized first last name => s!"at {first}..{last}: unrecognized entity `{name}`"
  | .badReference cause => s!"invalid character reference: {cause.message}"

inductive MarkupError
  | syntactic (cause : SyntaxError)
  | illFormed (cause : NestingError)
  | notUtf8 (cause : Utf8Error)
  | badAttribute (cause : AttributeError)
  | badEntity (cause : EntityError)
  | badBinding (label uri : Bytes)
  deriving DecidableEq

/-- A byte of a quoted byte string: as it is if it shows, else by its number. -/
def quotedByte (b : UInt8) : List Char :=
  if b = '"'.toUInt8 then ['\\', '"']
  else if 32 ≤ b ∧ b ≤ 126 then [Char.ofNat b.toNat]
  else '0' :: 'x' :: (Nat.toDigits 16 b.toNat).map Char.toUpper

def quotedBytes (data : Bytes) : String :=
  String.ofList ('"' :: data.flatMap quotedByte ++ ['"'])

def MarkupError.message : MarkupError → String
  | .syntactic cause => s!"syntax error: {cause.message}"
  | .illFormed cause => s!"ill-formed document: {cause.message}"
  | .notUtf8 cause => s!"Malformed UTF-8 input: {cause.message}"
  | .badAttribute cause => s!"error while parsing attribute: {cause.message}"
  | .badEntity cause => cause.message
  | .badBinding label uri =>
    s!"The namespace prefix '{quotedBytes label}' cannot be bound to '{quotedBytes uri}'"

inductive DocumentError
  | markup (cause : MarkupError)
  | notUtf8 (cause : Utf8Error)
  | secondRoot (name : String)
  | unclosedElement (name : String)
  | unknownPrefix (label : String)
  | noRoot
  | tooDeep (limit : Nat)
  deriving DecidableEq

def DocumentError.message : DocumentError → String
  | .markup cause => s!"xml error: {cause.message}"
  | .notUtf8 cause => s!"malformed document: {cause.message}"
  | .secondRoot name => s!"malformed document: second root element {quoted name}"
  | .unclosedElement name => s!"malformed document: unclosed element {quoted name}"
  | .unknownPrefix label => s!"unknown namespace prefix {quoted label}"
  | .noRoot => "document has no root element"
  | .tooDeep limit => s!"element nesting exceeds {limit} levels"

end ContentGraph.Xml
