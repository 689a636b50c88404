import ContentGraph.Proofs.AsciiText
import ContentGraph.Xml.Document

/-! Text in which the characters that mean something in XML are written as references. Resolving the
references gives the text back, and none of these characters but the ampersand is left in it. -/

namespace ContentGraph.Xml

/-- The predefined entities stand for the five characters that have one. -/
def escapedChar : Char → List Char
  | '&' => ['&', 'a', 'm', 'p', ';']
  | '<' => ['&', 'l', 't', ';']
  | '>' => ['&', 'g', 't', ';']
  | '"' => ['&', 'q', 'u', 'o', 't', ';']
  | '\'' => ['&', 'a', 'p', 'o', 's', ';']
  | c => [c]

def escaped (s : String) : String :=
  String.ofList (s.toList.flatMap escapedChar)

theorem escaped_append (s t : String) : escaped (s ++ t) = escaped s ++ escaped t := by
  rw [escaped, String.toList_append, List.flatMap_append, String.ofList_append]
  rfl

@[simp] theorem escaped_empty : escaped "" = "" := rfl

theorem unescapeFrom_escapedChar (total position : Nat) (c : Char) (rest : List Char) :
    ∃ next, unescapeFrom total position none (escapedChar c ++ rest) =
      (c :: ·) <$> unescapeFrom total next none rest := by
  unfold escapedChar
  split
  case h_6 hamp _ _ _ _ =>
    refine ⟨position + c.utf8Size, ?_⟩
    rw [List.singleton_append, unescapeFrom, if_neg hamp]
  -- the five references are resolved one character after the other
  all_goals exact ⟨_, rfl⟩

theorem unescapeFrom_escaped (total position : Nat) (chars : List Char) :
    unescapeFrom total position none (chars.flatMap escapedChar) = .ok chars := by
  induction chars generalizing position with
  | nil => rfl
  | cons c rest ih =>
    obtain ⟨next, hnext⟩ := unescapeFrom_escapedChar total position c (rest.flatMap escapedChar)
    rw [List.flatMap_cons, hnext, ih]
    rfl

theorem unescape_escaped (s : String) : unescape (escaped s) = .ok s := by
  rw [unescape, escaped, String.toList_ofList, unescapeFrom_escaped]
  exact congrArg Except.ok String.ofList_toList

theorem decodeText_escaped (s : String) : decodeText (utf8 (escaped s)) = .ok s := by
  rw [decodeText, textOfUtf8_eq_ok_iff.mpr rfl]
  simp only [unescape_escaped]

theorem not_mem_escapedChar {c : Char} (hc : c ∈ ['<', '>', '"', '\'']) (d : Char) :
    c ∉ escapedChar d := by
  simp only [List.mem_cons, List.not_mem_nil, or_false] at hc
  unfold escapedChar
  split
  case h_6 hlt hgt hquote happ =>
    rw [List.mem_singleton]
    rintro rfl
    rcases hc with rfl | rfl | rfl | rfl <;> contradiction
  all_goals rcases hc with rfl | rfl | rfl | rfl <;> decide

theorem not_mem_escaped {c : Char} (hc : c ∈ ['<', '>', '"', '\'']) (s : String) :
    c ∉ (escaped s).toList := by
  rw [escaped, String.toList_ofList, List.mem_flatMap]
  rintro ⟨d, -, hd⟩
  exact not_mem_escapedChar hc d hd

end ContentGraph.Xml
