import ContentGraph.Proofs.NamespaceScope

/-! Reading a written document gives back what it says. The elements that are open while a tag is
read are those of the tags around it, so a tree that is read in any place leaves nothing there but
its element, or ends in the error about its first prefix that stands for nothing. -/

namespace ContentGraph.Xml

theorem run_of_begins {limit : Nat} {state : Reading} {data rest : Bytes} {m : Markup}
    (h : Begins data m rest) :
    Reading.run limit state data =
      state.add limit m >>= fun next => Reading.run limit next rest := by
  obtain ⟨b, tail, rfl, hread⟩ := h
  rw [Reading.run.eq_def]
  dsimp only
  split
  · next cause hfailed =>
    rw [hread] at hfailed
    cases hfailed
  · next m' rest' hok =>
    rw [hread] at hok
    cases hok
    cases state.add limit m <;> rfl

theorem run_of_add {limit : Nat} {state next : Reading} {data rest : Bytes} {m : Markup}
    (h : Begins data m rest) (hadd : state.add limit m = .ok next) :
    Reading.run limit state data = Reading.run limit next rest := by
  rw [run_of_begins h, hadd]
  rfl

theorem OpenElement.addText_addText (e : OpenElement) (s t : String) :
    (e.addText s).addText t = e.addText (s ++ t) := by
  simp only [addText, String.append_assoc]

@[simp] theorem OpenElement.addText_empty (e : OpenElement) : e.addText "" = e := by
  simp only [addText, String.append_empty]

section Pieces

variable {limit : Nat} {e : OpenElement} {opened : List OpenElement} {root : Option Element}
  {rest : Bytes}

theorem run_text (hrest : ∃ more, rest = '<'.toUInt8 :: more) (s : String) :
    Reading.run limit ⟨e :: opened, root⟩ (utf8 (escaped s) ++ rest) =
      Reading.run limit ⟨e.addText s :: opened, root⟩ rest := by
  by_cases hempty : utf8 (escaped s) = []
  · have hs : s = "" := by
      have hdecoded := decodeText_escaped s
      rw [hempty] at hdecoded
      exact (Except.ok.inj hdecoded).symm
    rw [hempty, hs, OpenElement.addText_empty, List.nil_append]
  · have hfree : '<'.toUInt8 ∉ utf8 (escaped s) := by
      rw [mem_utf8_iff (by decide)]
      exact not_mem_escaped (by decide) s
    rw [run_of_begins (.text hempty hfree (.inr hrest)), Reading.add, addText, decodeText_escaped]
    rfl

theorem run_cdata {s : String} (h : ¬[']', ']', '>'] <:+: s.toList) :
    Reading.run limit ⟨e :: opened, root⟩ (utf8 ("<![CDATA[" ++ s ++ "]]>") ++ rest) =
      Reading.run limit ⟨e.addText s :: opened, root⟩ rest := by
  rw [run_of_begins (.cdata h rest), Reading.add, addText, decodeName_utf8]
  rfl

theorem run_other {data : Bytes} {state : Reading} (h : Begins data .other rest) :
    Reading.run limit state data = Reading.run limit state rest := by
  rw [run_of_begins h]
  rfl

/-- Text in front of a piece is read together with it if that is text also, so it is kept apart
until something else follows. -/
theorem run_pieces (hrest : ∃ more, rest = '<'.toUInt8 :: more) (s : String) (run : List Piece) :
    Reading.run limit ⟨e :: opened, root⟩ (utf8 (escaped s) ++ (utf8 (writtenRun run) ++ rest)) =
      Reading.run limit ⟨e.addText (s ++ shownRun run) :: opened, root⟩ rest := by
  induction run generalizing s e with
  | nil =>
    have hwritten : writtenRun [] = "" := String.join_nil
    have hshown : shownRun [] = "" := String.join_nil
    rw [hwritten, hshown, utf8_empty, List.nil_append, String.append_empty]
    exact run_text hrest s
  | cons p run ih =>
    have hwritten : writtenRun (p :: run) = p.written ++ writtenRun run := String.join_cons
    have hshown : shownRun (p :: run) = p.shown ++ shownRun run := String.join_cons
    have hlater (e' : OpenElement) :
        Reading.run limit ⟨e' :: opened, root⟩ (utf8 (writtenRun run) ++ rest) =
          Reading.run limit ⟨e'.addText (shownRun run) :: opened, root⟩ rest := by
      simpa using ih (e := e') ""
    rw [hwritten, hshown, utf8_append, List.append_assoc]
    cases p with
    | text t =>
      have hjoined : utf8 (escaped s) ++ (utf8 (escaped t) ++ (utf8 (writtenRun run) ++ rest)) =
          utf8 (escaped (s ++ t)) ++ (utf8 (writtenRun run) ++ rest) := by
        rw [escaped_append, utf8_append, List.append_assoc]
      simp only [Piece.written, Piece.shown]
      rw [hjoined, ih (s ++ t), String.append_assoc]
    | cdata t h =>
      have hbegins := Begins.cdata h (utf8 (writtenRun run) ++ rest)
      simp only [Piece.written, Piece.shown]
      rw [run_text (hbegins.bracket nofun), run_cdata h, hlater, OpenElement.addText_addText,
        OpenElement.addText_addText]
    | comment body h =>
      have hbegins := Begins.comment h (utf8 (writtenRun run) ++ rest)
      simp only [Piece.written, Piece.shown]
      rw [run_text (hbegins.bracket nofun), run_other hbegins, hlater, OpenElement.addText_addText,
        String.empty_append]
    | instruction body h =>
      have hbegins := Begins.instruction h (utf8 (writtenRun run) ++ rest)
      simp only [Piece.written, Piece.shown]
      rw [run_text (hbegins.bracket nofun), run_other hbegins, hlater, OpenElement.addText_addText,
        String.empty_append]

theorem run_writtenRun (hrest : ∃ more, rest = '<'.toUInt8 :: more) (run : List Piece) :
    Reading.run limit ⟨e :: opened, root⟩ (utf8 (writtenRun run) ++ rest) =
      Reading.run limit ⟨e.addText (shownRun run) :: opened, root⟩ rest := by
  simpa using run_pieces hrest "" run

end Pieces

namespace OpenElement

/-- The element once its content has been read. -/
def fill (tags : List Tag) (e : OpenElement) : Content → OpenElement
  | .last run => e.addText (shownRun run)
  | .child run tree rest =>
    ((e.addText (shownRun run)).addChild (tree.element lexicalNamespace tags)).fill tags rest

theorem tag_fill (tags : List Tag) (e : OpenElement) (content : Content) :
    (e.fill tags content).tag = e.tag := by
  match content with
  | .last run => rfl
  | .child run tree rest => exact tag_fill tags _ rest

/-- The first text run of the content goes on where the element stands. -/
theorem close_fill (tags : List Tag) {e : OpenElement} (hrun : e.run = "") (content : Content) :
    (e.fill tags content).close =
      { e.close with
        children := e.children.reverse ++ content.elements lexicalNamespace tags
        textRuns := e.runs.reverse ++ content.textRuns } := by
  match content with
  | .last run => simp [fill, addText, close, hrun, Content.elements, Content.textRuns]
  | .child run tree rest =>
    have hrest := close_fill tags (e := (e.addText (shownRun run)).addChild
      (tree.element lexicalNamespace tags)) rfl rest
    rw [fill, hrest]
    simp [addText, addChild, close, hrun, Content.elements, Content.textRuns]

theorem close_openedBy (outer : List Tag) (tag : Tag) :
    (openedBy tag outer).close = tag.element lexicalNamespace (tag :: outer) [] [""] := rfl

theorem close_fill_openedBy (outer : List Tag) (tag : Tag) (content : Content) :
    ((openedBy tag outer).fill (tag :: outer) content).close =
      (Tree.pair tag content).element lexicalNamespace outer := by
  rw [close_fill (tag :: outer) rfl content, Tree.element]
  rfl

end OpenElement

section Tags

variable {limit : Nat} {opened : List OpenElement} {outer : List Tag}

theorem run_startTag (hscope : currentScope opened = scopeOf outer) (hlimit : opened.length < limit)
    (root : Option Element) (tag : Tag) (rest : Bytes) :
    Reading.run limit ⟨opened, root⟩ (utf8 ("<" ++ tag.written ++ ">") ++ rest) =
      requireBound (tag.unbound (tag :: outer)) >>= fun _ =>
        Reading.run limit ⟨openedBy tag outer :: opened, root⟩ rest := by
  rw [run_of_begins (.startTag tag rest), Reading.add, openElement_written hscope hlimit]
  cases requireBound (tag.unbound (tag :: outer)) <;> rfl

theorem run_emptyTag (hscope : currentScope opened = scopeOf outer) (hlimit : opened.length < limit)
    (root : Option Element) (tag : Tag) (rest : Bytes) :
    Reading.run limit ⟨opened, root⟩ (utf8 ("<" ++ tag.written ++ "/>") ++ rest) =
      requireBound (tag.unbound (tag :: outer)) >>= fun _ =>
        addElement opened root (openedBy tag outer).close >>= fun next =>
          Reading.run limit next rest := by
  rw [run_of_begins (.emptyTag tag rest), Reading.add, openElement_written hscope hlimit]
  cases requireBound (tag.unbound (tag :: outer)) <;> rfl

theorem run_endTag {e : OpenElement} {n : WrittenName} (htag : e.tag = utf8 n.written)
    (root : Option Element) (rest : Bytes) :
    Reading.run limit ⟨e :: opened, root⟩ (utf8 ("</" ++ n.written ++ ">") ++ rest) =
      addElement opened root e.close >>= fun next => Reading.run limit next rest := by
  rw [run_of_begins (.endTag n rest), Reading.add, closeElement]
  simp only [htag, if_true]

end Tags

theorem exists_bracket (tree : Tree) (rest : Bytes) :
    ∃ more, utf8 tree.written ++ rest = '<'.toUInt8 :: more := by
  cases tree <;>
  · simp only [Tree.written, utf8_append, List.append_assoc]
    exact ⟨_, rfl⟩

mutual

/-- In whatever place a tree is read, its element is put there. -/
theorem run_tree (tree : Tree) {limit : Nat} {opened : List OpenElement} {outer : List Tag}
    (hscope : currentScope opened = scopeOf outer)
    (hlimit : opened.length + tree.height ≤ limit)
    (root : Option Element) (rest : Bytes) :
    Reading.run limit ⟨opened, root⟩ (utf8 tree.written ++ rest) =
      requireBound (tree.unbound outer) >>= fun _ =>
        addElement opened root (tree.element lexicalNamespace outer) >>= fun next =>
          Reading.run limit next rest := by
  match tree with
  | .single tag =>
    have hroom : opened.length < limit := hlimit
    rw [Tree.written, run_emptyTag hscope hroom, OpenElement.close_openedBy, Tree.unbound,
      Tree.element]
  | .pair tag content =>
    have hheight : opened.length + 1 + content.height ≤ limit := by
      rw [Tree.height] at hlimit
      omega
    have hroom : opened.length < limit := by omega
    have hdata : utf8 (Tree.pair tag content).written ++ rest =
        utf8 ("<" ++ tag.written ++ ">") ++
          (utf8 content.written ++ (utf8 ("</" ++ tag.name.written ++ ">") ++ rest)) := by
      simp only [Tree.written, utf8_append, List.append_assoc]
    have hend : ∃ more, utf8 ("</" ++ tag.name.written ++ ">") ++ rest = '<'.toUInt8 :: more :=
      (Begins.endTag tag.name rest).bracket nofun
    have htag : ((openedBy tag outer).fill (tag :: outer) content).tag = utf8 tag.name.written :=
      OpenElement.tag_fill _ _ content
    -- the scope of the element that the tag opens is the one around its content
    have hscope' : (openedBy tag outer).scope = scopeOf (tag :: outer) := rfl
    rw [hdata, run_startTag hscope hroom, run_content content hscope' hheight root hend,
      run_endTag htag, OpenElement.close_fill_openedBy, Tree.unbound, requireBound_append]

theorem run_content (content : Content) {limit : Nat} {e : OpenElement} {opened : List OpenElement}
    {tags : List Tag} (hscope : e.scope = scopeOf tags)
    (hlimit : opened.length + 1 + content.height ≤ limit) (root : Option Element) {rest : Bytes}
    (hrest : ∃ more, rest = '<'.toUInt8 :: more) :
    Reading.run limit ⟨e :: opened, root⟩ (utf8 content.written ++ rest) =
      requireBound (content.unbound tags) >>= fun _ =>
        Reading.run limit ⟨e.fill tags content :: opened, root⟩ rest := by
  match content with
  | .last run =>
    rw [Content.written, run_writtenRun hrest, Content.unbound, OpenElement.fill]
    rfl
  | .child run tree more =>
    let e' := e.addText (shownRun run)
    let element := tree.element lexicalNamespace tags
    have hdata : utf8 (Content.child run tree more).written ++ rest =
        utf8 (writtenRun run) ++ (utf8 tree.written ++ (utf8 more.written ++ rest)) := by
      simp only [Content.written, utf8_append, List.append_assoc]
    have hscope' : currentScope (e' :: opened) = scopeOf tags := hscope
    have hheight : (e' :: opened).length + tree.height ≤ limit ∧
        opened.length + 1 + more.height ≤ limit := by
      rw [Content.height] at hlimit
      rw [List.length_cons]
      omega
    -- the child is put into `e'`, which keeps its scope, so what follows is read in the same one
    have hadd : addElement (e' :: opened) root element =
        .ok ⟨e'.addChild element :: opened, root⟩ := rfl
    have hmore := run_content more (e := e'.addChild element) hscope hheight.2 root hrest
    rw [hdata, run_writtenRun (exists_bracket tree _), run_tree tree hscope' hheight.1 root, hadd,
      Content.unbound, requireBound_append, OpenElement.fill, ← hmore]
    rfl

end

theorem dropByteOrderMark_bracket (data : Bytes) :
    dropByteOrderMark ('<'.toUInt8 :: data) = '<'.toUInt8 :: data := rfl

/-- Every written document is read up to its end or to its first prefix that stands for nothing. -/
theorem parseDocument_written {limit : Nat} {tree : Tree} (hlimit : tree.height ≤ limit) :
    parseDocument limit (utf8 tree.written) =
      requireBound (tree.unbound []) >>= fun _ => .ok (tree.element lexicalNamespace []) := by
  obtain ⟨more, hmore⟩ := exists_bracket tree []
  have hscope : currentScope [] = scopeOf [] := rfl
  have hheight : ([] : List OpenElement).length + tree.height ≤ limit := by simpa using hlimit
  have hrun := run_tree tree hscope hheight none []
  rw [hmore] at hrun
  rw [List.append_nil] at hmore
  rw [parseDocument, hmore, dropByteOrderMark_bracket, hrun]
  cases requireBound (tree.unbound []) with
  | error e => rfl
  | ok _ =>
    -- nothing is left, and the tree has become the root
    have hnil (state : Reading) : Reading.run limit state [] = .ok state := by
      rw [Reading.run.eq_def]
    show (Reading.run limit ⟨[], some (tree.element lexicalNamespace [])⟩ [] >>= Reading.finish) = _
    rw [hnil]
    rfl

end ContentGraph.Xml
