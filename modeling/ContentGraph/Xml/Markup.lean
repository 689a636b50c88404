import ContentGraph.Outcome
import ContentGraph.Xml.Error

/-! The pieces that XML text consists of: runs of text, tags, CDATA sections, and what a reader of
elements passes over. Each piece is cut off the front of the bytes. -/

namespace ContentGraph.Xml

/-- Contents are the bytes between the brackets; those of an empty-element tag end before the slash. -/
inductive Markup
  | text (raw : Bytes)
  | startTag (content : Bytes)
  | emptyTag (content : Bytes)
  | endTag (name : Bytes)
  | cdata (raw : Bytes)
  | other

def isBlank (b : UInt8) : Bool :=
  b = ' '.toUInt8 || b = '\t'.toUInt8 || b = '\n'.toUInt8 || b = '\r'.toUInt8

/-- The bytes before the first place where `mark` stands, and those behind it. -/
def splitAtMark? (mark : Bytes) : Bytes → Option (Bytes × Bytes)
  | [] => if mark = [] then some ([], []) else none
  | b :: rest =>
    if mark.isPrefixOf (b :: rest) then some ([], (b :: rest).drop mark.length)
    else (splitAtMark? mark rest).map fun p => (b :: p.1, p.2)

/-- The quotation mark that is open behind `b`, if `quote` was open before it. -/
def quoteAfter (quote : Option UInt8) (b : UInt8) : Option UInt8 :=
  match quote with
  | none => if b = '"'.toUInt8 || b = '\''.toUInt8 then some b else none
  | some q => if b = q then none else some q

/-- The bytes before the first `>` that does not stand in quotes, and those behind it. -/
def splitTag? (quote : Option UInt8) : Bytes → Option (Bytes × Bytes)
  | [] => none
  | b :: rest =>
    if b = '>'.toUInt8 && quote.isNone then some ([], rest)
    else (splitTag? (quoteAfter quote b) rest).map fun p => (b :: p.1, p.2)

/-- The bytes before the `>` that is not paired with a `<`, of which `opened` are open. -/
def splitBalanced? (opened : Nat) : Bytes → Option (Bytes × Bytes)
  | [] => none
  | b :: rest =>
    if b = '>'.toUInt8 ∧ opened = 0 then some ([], rest)
    else
      let opened :=
        if b = '<'.toUInt8 then opened + 1 else if b = '>'.toUInt8 then opened - 1 else opened
      (splitBalanced? opened rest).map fun p => (b :: p.1, p.2)

/-- A name of nothing but blanks keeps them. -/
def dropTrailingBlanks (data : Bytes) : Bytes :=
  if data.all isBlank then data else (data.reverse.dropWhile isBlank).reverse

def closed? (cause : SyntaxError) (split : Option (Bytes × Bytes)) :
    Except MarkupError (Bytes × Bytes) :=
  match split with
  | some p => .ok p
  | none => .error (.syntactic cause)

/-- What follows `<!-`. A comment begins with `<!--`, but its end is looked for in any case. -/
def readComment : Bytes → Except MarkupError (Markup × Bytes)
  | [] => .error (.syntactic .unclosedComment)
  | c :: rest => do
    let (_, rest) ← closed? .unclosedComment (splitAtMark? (utf8 "-->") rest)
    if c = '-'.toUInt8 then return (.other, rest)
    else throw (.syntactic .unclosedComment)

/-- What follows `<!`, beginning with a bracket. -/
def readCData (data : Bytes) : Except MarkupError (Markup × Bytes) := do
  let (content, rest) ← closed? .unclosedCData (splitAtMark? (utf8 "]]>") data)
  if (utf8 "[CDATA[").isPrefixOf content then return (.cdata (content.drop 7), rest)
  else throw (.syntactic .unclosedCData)

def upperCase (b : UInt8) : UInt8 :=
  if 'a'.toUInt8 ≤ b ∧ b ≤ 'z'.toUInt8 then b - 32 else b

/-- What follows `<!`, beginning with the letter `D` in either case. -/
def readDoctype (data : Bytes) : Except MarkupError (Markup × Bytes) := do
  let (content, rest) ← closed? .unclosedDoctype (splitBalanced? 0 data)
  if (content.take 7).map upperCase ≠ utf8 "DOCTYPE" then throw (.syntactic .unclosedDoctype)
  else if (content.drop 7).all isBlank then throw (.illFormed .missingDoctypeName)
  else return (.other, rest)

/-- What follows `<!`. -/
def readBang : Bytes → Except MarkupError (Markup × Bytes)
  | [] => .error (.syntactic .invalidBangMarkup)
  | b :: rest =>
    if b = '['.toUInt8 then readCData (b :: rest)
    else if b = '-'.toUInt8 then readComment rest
    else if upperCase b = 'D'.toUInt8 then readDoctype (b :: rest)
    else .error (.syntactic .invalidBangMarkup)

/-- What follows `<`, beginning with a question mark that may be the one that closes it. -/
def readInstruction (data : Bytes) : Except MarkupError (Markup × Bytes) := do
  let (content, rest) ← closed? .unclosedInstruction (splitAtMark? (utf8 "?>") data)
  if content = [] then throw (.syntactic .unclosedInstruction) else return (.other, rest)

/-- What follows `</`. -/
def readEndTag (data : Bytes) : Except MarkupError (Markup × Bytes) := do
  let (content, rest) ← closed? .unclosedTag (splitTag? none data)
  return (.endTag (dropTrailingBlanks content), rest)

/-- What follows the `<` of a start tag. -/
def readStartTag (data : Bytes) : Except MarkupError (Markup × Bytes) := do
  let (content, rest) ← closed? .unclosedTag (splitTag? none data)
  if content.getLast? = some '/'.toUInt8 then return (.emptyTag content.dropLast, rest)
  else return (.startTag content, rest)

/-- What follows `<`. -/
def readBracketed : Bytes → Except MarkupError (Markup × Bytes)
  | [] => .error (.syntactic .unclosedTag)
  | b :: rest =>
    if b = '!'.toUInt8 then readBang rest
    else if b = '/'.toUInt8 then readEndTag rest
    else if b = '?'.toUInt8 then readInstruction (b :: rest)
    else readStartTag (b :: rest)

def isTextByte (b : UInt8) : Bool :=
  b ≠ '<'.toUInt8

/-- The first piece and what follows it. -/
def Markup.read (b : UInt8) (rest : Bytes) : Except MarkupError (Markup × Bytes) :=
  if isTextByte b then .ok (.text (b :: rest.takeWhile isTextByte), rest.dropWhile isTextByte)
  else readBracketed rest

theorem eq_append_of_splitAtMark? {mark data before after : Bytes}
    (h : splitAtMark? mark data = some (before, after)) : data = before ++ (mark ++ after) := by
  induction data generalizing before with
  | nil =>
    simp only [splitAtMark?] at h
    split at h
    · next hmark => cases h; simp [hmark]
    · cases h
  | cons b rest ih =>
    simp only [splitAtMark?] at h
    split at h
    · next hmark =>
      cases h
      obtain ⟨tail, htail⟩ := List.isPrefixOf_iff_prefix.mp hmark
      simp [← htail]
    · obtain ⟨⟨front, back⟩, hsplit, heq⟩ := Option.map_eq_some_iff.mp h
      cases heq
      simp [ih hsplit]

theorem eq_append_of_splitTag? {quote : Option UInt8} {data before after : Bytes}
    (h : splitTag? quote data = some (before, after)) : data = before ++ '>'.toUInt8 :: after := by
  induction data generalizing before quote with
  | nil => cases h
  | cons b rest ih =>
    simp only [splitTag?, Bool.and_eq_true, decide_eq_true_eq] at h
    split at h
    · next hend => cases h; simp [hend.1]
    · obtain ⟨⟨front, back⟩, hsplit, heq⟩ := Option.map_eq_some_iff.mp h
      cases heq
      simp [ih hsplit]

theorem eq_append_of_splitBalanced? {opened : Nat} {data before after : Bytes}
    (h : splitBalanced? opened data = some (before, after)) :
    data = before ++ '>'.toUInt8 :: after := by
  induction data generalizing before opened with
  | nil => cases h
  | cons b rest ih =>
    simp only [splitBalanced?] at h
    split at h
    · next hend => cases h; simp [hend.1]
    · obtain ⟨⟨front, back⟩, hsplit, heq⟩ := Option.map_eq_some_iff.mp h
      cases heq
      simp [ih hsplit]

theorem closed?_eq_ok {cause : SyntaxError} {split : Option (Bytes × Bytes)} {p : Bytes × Bytes}
    (h : closed? cause split = .ok p) : split = some p := by
  cases split <;> simp_all [closed?]

section Length

variable {data rest : Bytes} {m : Markup}

theorem readComment_length (h : readComment data = .ok (m, rest)) : rest.length ≤ data.length := by
  cases data with
  | nil => cases h
  | cons c tail =>
    obtain ⟨⟨content, after⟩, hsplit, h⟩ := bind_eq_ok_iff.mp h
    have := congrArg List.length (eq_append_of_splitAtMark? (closed?_eq_ok hsplit))
    dsimp only at h
    split at h <;> cases h
    simp at this ⊢; omega

theorem readCData_length (h : readCData data = .ok (m, rest)) : rest.length ≤ data.length := by
  obtain ⟨⟨content, after⟩, hsplit, h⟩ := bind_eq_ok_iff.mp h
  have := congrArg List.length (eq_append_of_splitAtMark? (closed?_eq_ok hsplit))
  dsimp only at h
  split at h <;> cases h
  simp at this; omega

theorem readDoctype_length (h : readDoctype data = .ok (m, rest)) : rest.length ≤ data.length := by
  obtain ⟨⟨content, after⟩, hsplit, h⟩ := bind_eq_ok_iff.mp h
  have := congrArg List.length (eq_append_of_splitBalanced? (closed?_eq_ok hsplit))
  dsimp only at h
  split at h
  · cases h
  · split at h <;> cases h
    simp at this; omega

theorem readBang_length (h : readBang data = .ok (m, rest)) : rest.length ≤ data.length := by
  cases data with
  | nil => cases h
  | cons b tail =>
    simp only [readBang] at h
    split at h
    · exact readCData_length h
    · split at h
      · exact Nat.le_succ_of_le (readComment_length h)
      · split at h
        · exact readDoctype_length h
        · cases h

theorem readInstruction_length (h : readInstruction data = .ok (m, rest)) :
    rest.length ≤ data.length := by
  obtain ⟨⟨content, after⟩, hsplit, h⟩ := bind_eq_ok_iff.mp h
  have := congrArg List.length (eq_append_of_splitAtMark? (closed?_eq_ok hsplit))
  dsimp only at h
  split at h <;> cases h
  simp at this; omega

theorem readEndTag_length (h : readEndTag data = .ok (m, rest)) : rest.length ≤ data.length := by
  obtain ⟨⟨content, after⟩, hsplit, h⟩ := bind_eq_ok_iff.mp h
  have := congrArg List.length (eq_append_of_splitTag? (closed?_eq_ok hsplit))
  cases h
  simp at this; omega

theorem readStartTag_length (h : readStartTag data = .ok (m, rest)) :
    rest.length ≤ data.length := by
  obtain ⟨⟨content, after⟩, hsplit, h⟩ := bind_eq_ok_iff.mp h
  have := congrArg List.length (eq_append_of_splitTag? (closed?_eq_ok hsplit))
  dsimp only at h
  split at h <;> cases h <;> (simp at this; omega)

theorem readBracketed_length (h : readBracketed data = .ok (m, rest)) :
    rest.length ≤ data.length := by
  cases data with
  | nil => cases h
  | cons b tail =>
    simp only [readBracketed] at h
    split at h
    · exact Nat.le_succ_of_le (readBang_length h)
    · split at h
      · exact Nat.le_succ_of_le (readEndTag_length h)
      · split at h
        · exact readInstruction_length h
        · exact readStartTag_length h

/-- Every piece takes at least one byte. -/
theorem Markup.read_length {b : UInt8} (h : Markup.read b data = .ok (m, rest)) :
    rest.length ≤ data.length := by
  simp only [Markup.read] at h
  split at h
  · cases h
    exact (List.dropWhile_sublist _).length_le
  · exact readBracketed_length h

end Length

end ContentGraph.Xml
