import ContentGraph.Proofs.DocumentReading
import ContentGraph.Proofs.FirstViolation

/-! The limit on how deep elements nest. The reader refuses exactly the trees that are higher than its
limit, and otherwise reads the same under every limit. So the encoder, which reads with the limit that
it has itself, never comes to an element that stands too deep for it. -/

namespace ContentGraph

namespace Xml

open Element (heightOfChildren heightOfChildren_le_iff)

/-- How deep the elements go that are open or stand in one that is. -/
def openedDepth : List OpenElement → Nat
  | [] => 0
  | e :: outer => max (outer.length + 1 + heightOfChildren e.children) (openedDepth outer)

/-- How deep the elements go that have been met so far. -/
def Reading.depth (state : Reading) : Nat :=
  max (openedDepth state.opened) (state.root.elim 0 Element.height)

/-- Whether an element begins with the piece. -/
def Markup.opens : Markup → Bool
  | .startTag _ | .emptyTag _ => true
  | _ => false

section Opening

variable {limit limit' : Nat} {opened : List OpenElement} {content : Bytes}

theorem openElement_eq_of_lt (h : opened.length < limit) (h' : opened.length < limit') :
    openElement limit opened content = openElement limit' opened content := by
  simp only [openElement, if_neg (Nat.not_le.mpr h), if_neg (Nat.not_le.mpr h')]

/-- What an element has from the tag that opens it. -/
structure OpensAs (limit : Nat) (opened : List OpenElement) (content : Bytes) (e : OpenElement) :
    Prop where
  scope_eq : (currentScope opened).enter content = .ok e.scope
  room : opened.length < limit
  tag_eq : e.tag = tagName content
  uri_eq : decodeUri (e.scope.ofElement (splitName (tagName content)).1) = .ok e.uri
  name_eq : decodeName (splitName (tagName content)).2 = .ok e.name
  attributes_eq : decodeAttributes e.scope (attributesOf true content) = .ok e.attributes
  children_eq : e.children = []
  run_eq : e.run = ""
  runs_eq : e.runs = []

theorem opensAs_of_openElement {e : OpenElement} (h : openElement limit opened content = .ok e) :
    OpensAs limit opened content e := by
  rw [openElement] at h
  cases hscope : (currentScope opened).enter content with
  | error cause =>
    rw [hscope] at h
    cases h
  | ok scope =>
    rw [hscope] at h
    simp only [pure_bind] at h
    split at h
    · cases h
    · next hroom =>
      obtain ⟨_, huri, h⟩ := bind_eq_ok_iff.mp h
      obtain ⟨_, hname, h⟩ := bind_eq_ok_iff.mp h
      obtain ⟨_, hattributes, h⟩ := bind_eq_ok_iff.mp h
      cases h
      exact ⟨hscope, Nat.not_le.mp hroom, rfl, huri, hname, hattributes, rfl, rfl, rfl⟩

theorem openElement_of_full {e : OpenElement} (hfull : limit ≤ opened.length)
    (h : openElement limit' opened content = .ok e) :
    openElement limit opened content = .error (.tooDeep limit) := by
  rw [openElement, (opensAs_of_openElement h).scope_eq]
  exact if_pos hfull

end Opening

theorem heightOfChildren_reverse (children : List Element) :
    heightOfChildren children.reverse = heightOfChildren children := by
  refine Nat.le_antisymm (heightOfChildren_le_iff.mpr fun child hchild => ?_)
    (heightOfChildren_le_iff.mpr fun child hchild => ?_)
  · exact heightOfChildren_le_iff.mp (Nat.le_refl _) child (List.mem_reverse.mp hchild)
  · exact heightOfChildren_le_iff.mp (Nat.le_refl _) child (List.mem_reverse.mpr hchild)

theorem height_close (e : OpenElement) : e.close.height = heightOfChildren e.children + 1 := by
  rw [OpenElement.close, Element.height, heightOfChildren_reverse]

section Adding

variable {opened : List OpenElement} {root : Option Element} {state next : Reading}

theorem addElement_eq_ok {e : Element} (h : addElement opened root e = .ok next) :
    (∃ outer others, opened = outer :: others ∧ next = ⟨outer.addChild e :: others, root⟩) ∨
      opened = [] ∧ root = none ∧ next = ⟨[], some e⟩ := by
  unfold addElement at h
  split at h
  · cases h
    exact .inl ⟨_, _, rfl, rfl⟩
  · cases h
    exact .inr ⟨rfl, rfl, rfl⟩
  · cases h

theorem closeElement_eq_ok {name : Bytes} (h : closeElement name state = .ok next) :
    ∃ e outer, state = ⟨e :: outer, state.root⟩ ∧ e.tag = name ∧
      addElement outer state.root e.close = .ok next := by
  obtain ⟨opened, root⟩ := state
  unfold closeElement at h
  split at h
  · cases h
  · next e outer hopened =>
    obtain rfl : opened = e :: outer := hopened
    split at h
    · next htag => exact ⟨e, outer, rfl, htag, h⟩
    · cases h

theorem addText_eq_ok {read : Bytes → Except DocumentError String} {raw : Bytes}
    (h : addText read raw state = .ok next) :
    next = state ∨ ∃ e outer s, state = ⟨e :: outer, state.root⟩ ∧ read raw = .ok s ∧
      next = ⟨e.addText s :: outer, state.root⟩ := by
  obtain ⟨opened, root⟩ := state
  unfold addText at h
  split at h
  · cases h
    exact .inl rfl
  · next e outer hopened =>
    obtain rfl : opened = e :: outer := hopened
    obtain ⟨s, hs, h⟩ := bind_eq_ok_iff.mp h
    cases h
    exact .inr ⟨e, outer, s, rfl, hs, rfl⟩

theorem depth_of_addElement {e : Element} (h : addElement opened root e = .ok next) :
    next.depth = max (Reading.depth ⟨opened, root⟩) (opened.length + e.height) := by
  obtain ⟨outer, others, rfl, rfl⟩ | ⟨rfl, rfl, rfl⟩ := addElement_eq_ok h
  · simp only [Reading.depth, openedDepth, OpenElement.addChild, heightOfChildren, List.length_cons]
    omega
  · simp [Reading.depth, openedDepth]

theorem depth_of_closeElement {name : Bytes} (h : closeElement name state = .ok next) :
    next.depth = state.depth := by
  obtain ⟨e, outer, hstate, -, h⟩ := closeElement_eq_ok h
  rw [depth_of_addElement h, height_close, hstate]
  simp only [Reading.depth, openedDepth]
  omega

theorem depth_of_addText {read : Bytes → Except DocumentError String} {raw : Bytes}
    (h : addText read raw state = .ok next) : next.depth = state.depth := by
  obtain rfl | ⟨e, outer, s, hstate, -, rfl⟩ := addText_eq_ok h
  · rfl
  · rw [hstate]
    rfl

end Adding

namespace Reading

variable {limit limit' : Nat} {state next last : Reading} {m : Markup}

/-- A piece that begins an element goes one below the elements that are open, and others go nowhere. -/
theorem depth_of_add (h : state.add limit m = .ok next) :
    next.depth = max state.depth (if m.opens then state.opened.length + 1 else 0) := by
  cases m with
  | text raw => simpa [Markup.opens] using depth_of_addText h
  | cdata raw => simpa [Markup.opens] using depth_of_addText h
  | startTag content =>
    obtain ⟨e, he, h⟩ := bind_eq_ok_iff.mp h
    cases h
    simp only [depth, openedDepth, (opensAs_of_openElement he).children_eq, heightOfChildren, Markup.opens, if_true]
    omega
  | emptyTag content =>
    obtain ⟨e, he, h⟩ := bind_eq_ok_iff.mp h
    rw [depth_of_addElement h, height_close, (opensAs_of_openElement he).children_eq]
    rfl
  | endTag name => simpa [Markup.opens] using depth_of_closeElement h
  | other =>
    cases h
    simp [Markup.opens]

theorem opens_of_depth_lt (h : state.add limit m = .ok next) (hlt : state.depth < next.depth) :
    m.opens = true ∧ next.depth = state.opened.length + 1 := by
  rw [depth_of_add h] at hlt ⊢
  split at hlt
  · next hopens =>
    rw [if_pos hopens]
    exact ⟨hopens, by omega⟩
  · omega

/-- A piece that is taken under one limit is taken under every other that it does not exceed. -/
theorem add_of_depth_le (h : state.add limit' m = .ok next) (hle : next.depth ≤ limit) :
    state.add limit m = .ok next := by
  have hroom (hopens : m.opens = true) : state.opened.length < limit := by
    have hdepth := depth_of_add h
    rw [if_pos hopens] at hdepth
    omega
  cases m with
  | startTag content =>
    obtain ⟨e, he, -⟩ := bind_eq_ok_iff.mp h
    rw [← h, add, add, openElement_eq_of_lt (hroom rfl) (opensAs_of_openElement he).room]
  | emptyTag content =>
    obtain ⟨e, he, -⟩ := bind_eq_ok_iff.mp h
    rw [← h, add, add, openElement_eq_of_lt (hroom rfl) (opensAs_of_openElement he).room]
  | text raw => exact h
  | cdata raw => exact h
  | endTag name => exact h
  | other => exact h

/-- The first piece that exceeds a limit is refused for it. -/
theorem add_of_depth_gt (h : state.add limit' m = .ok next) (hle : state.depth ≤ limit)
    (hgt : limit < next.depth) : state.add limit m = .error (.tooDeep limit) := by
  obtain ⟨hopens, hdepth⟩ := opens_of_depth_lt h (Nat.lt_of_le_of_lt hle hgt)
  have hfull : limit ≤ state.opened.length := by omega
  cases m with
  | startTag content =>
    obtain ⟨e, he, -⟩ := bind_eq_ok_iff.mp h
    rw [add, openElement_of_full hfull he]
    rfl
  | emptyTag content =>
    obtain ⟨e, he, -⟩ := bind_eq_ok_iff.mp h
    rw [add, openElement_of_full hfull he]
    rfl
  | _ => cases hopens

/-- One piece after the other is taken, until nothing is left. -/
inductive ReadsTo (limit : Nat) (last : Reading) : Reading → Bytes → Prop
  | done : ReadsTo limit last last []
  | piece {state next : Reading} {data rest : Bytes} {m : Markup} (hbegins : Begins data m rest)
    (hadd : state.add limit m = .ok next) (hrest : ReadsTo limit last next rest) :
    ReadsTo limit last state data

theorem readsTo_of_run {data : Bytes} (h : run limit state data = .ok last) :
    ReadsTo limit last state data := by
  induction state, data using run.induct limit with
  | case1 state =>
    rw [run] at h
    cases h
    exact .done
  | case2 state b tail cause hread =>
    rw [run.eq_def] at h
    dsimp only at h
    split at h
    · cases h
    · next hok =>
      rw [hread] at hok
      cases hok
  | case3 state b tail m rest hread cause hadd =>
    rw [run_of_begins ⟨b, tail, rfl, hread⟩, hadd] at h
    cases h
  | case4 state b tail m rest hread next hadd ih =>
    have hbegins : Begins (b :: tail) m rest := ⟨b, tail, rfl, hread⟩
    rw [run_of_add hbegins hadd] at h
    exact .piece hbegins hadd (ih h)

theorem ReadsTo.depth_le {data : Bytes} (h : ReadsTo limit last state data) :
    state.depth ≤ last.depth := by
  induction h with
  | done => exact Nat.le_refl _
  | piece _ hadd _ ih =>
    rw [depth_of_add hadd] at ih
    omega

/-- Under every limit the reader goes on as it did under the first, up to the piece that exceeds it. -/
theorem ReadsTo.run_eq {data : Bytes} (h : ReadsTo limit' last state data)
    (hstate : state.depth ≤ limit) :
    run limit state data = if last.depth ≤ limit then .ok last else .error (.tooDeep limit) := by
  induction h with
  | done => rw [run, if_pos hstate]
  | @piece state next data rest m hbegins hadd hrest ih =>
    by_cases hnext : next.depth ≤ limit
    · rw [run_of_add hbegins (add_of_depth_le hadd hnext), ih hnext]
    · have hlast := hrest.depth_le
      rw [run_of_begins hbegins, add_of_depth_gt hadd hstate (Nat.not_le.mp hnext),
        if_neg (by omega)]
      rfl

theorem finish_eq_ok {root : Element} (h : state.finish = .ok root) : state = ⟨[], some root⟩ := by
  unfold finish at h
  split at h
  · cases h
  · next hopened hroot =>
    cases h
    obtain ⟨opened, found⟩ := state
    obtain rfl : opened = [] := hopened
    obtain rfl : found = some root := hroot
    rfl
  · cases h

end Reading

theorem readsTo_of_parseDocument {limit : Nat} {data : Bytes} {root : Element}
    (h : parseDocument limit data = .ok root) :
    Reading.ReadsTo limit ⟨[], some root⟩ ⟨[], none⟩ (dropByteOrderMark data) := by
  obtain ⟨last, hrun, hfinish⟩ := bind_eq_ok_iff.mp h
  obtain rfl := Reading.finish_eq_ok hfinish
  exact Reading.readsTo_of_run hrun

/-- The tree that is read under one limit is read under every limit that it is not higher than. -/
theorem parseDocument_of_limit {limit limit' : Nat} {data : Bytes} {root : Element}
    (h : parseDocument limit' data = .ok root) :
    parseDocument limit data = if root.height ≤ limit then .ok root else .error (.tooDeep limit) := by
  have hdepth : Reading.depth ⟨[], some root⟩ = root.height := Nat.max_eq_right (Nat.zero_le _)
  have hstart : Reading.depth ⟨[], none⟩ ≤ limit := Nat.zero_le _
  rw [parseDocument, (readsTo_of_parseDocument h).run_eq hstart, hdepth]
  split <;> rfl

theorem height_le_of_parseDocument {limit : Nat} {data : Bytes} {root : Element}
    (h : parseDocument limit data = .ok root) : root.height ≤ limit := by
  have hlimit : parseDocument limit data = _ := parseDocument_of_limit h
  by_contra hheight
  rw [h, if_neg hheight] at hlimit
  cases hlimit

end Xml

open Xml (Element)

namespace Encoder

/-- The same encoder with another limit. -/
def withLimit (c : Encoder) (limit : Nat) : Encoder :=
  { c with config := { c.config with maxDepth := limit } }

section

variable {σ : Type} {put : Put σ} {c : Encoder} {limit : Nat}

theorem encodeChildren_withLimit {depth : Nat} {children : List Element}
    (h : ∀ child ∈ children,
      encodeElement (c.withLimit limit) put depth child = encodeElement c put depth child) :
    encodeChildren (c.withLimit limit) put depth children = encodeChildren c put depth children := by
  induction children with
  | nil => rfl
  | cons child rest ih =>
    rw [encodeChildren, encodeChildren, h child List.mem_cons_self,
      ih fun child hchild => h child (List.mem_cons_of_mem _ hchild)]

/-- Above the height of a tree all limits are the same. -/
theorem encodeElement_withLimit {depth : Nat} {e : Element} (hlimit : depth + e.height ≤ limit + 1)
    (hmax : depth + e.height ≤ c.config.maxDepth + 1) :
    encodeElement (c.withLimit limit) put depth e = encodeElement c put depth e := by
  induction e generalizing depth with
  | element e ih =>
    have hpos := e.height_pos
    have hchildren : encodeChildren (c.withLimit limit) put (depth + 1) e.children =
        encodeChildren c put (depth + 1) e.children := by
      refine encodeChildren_withLimit fun child hchild => ?_
      have hlower := Element.height_lt_of_mem hchild
      exact ih child hchild (by omega) (by omega)
    have hroom : ¬(c.withLimit limit).config.maxDepth < depth := by
      show ¬limit < depth
      omega
    have hroom' : ¬c.config.maxDepth < depth := by omega
    rw [encodeElement_eq, encodeElement_eq, if_neg hroom, if_neg hroom', hchildren]
    rfl

end

theorem typeOf_ne_tooDeep {c : Encoder} {e : Element} {n : Nat} :
    c.typeOf e ≠ .error (.tooDeep n) := by
  unfold typeOf
  split <;> exact nofun

theorem shapeOf_ne_tooDeep {c : Encoder} {e : Element} {type : String} {addresses : List Address}
    {n : Nat} : c.shapeOf e type addresses ≠ .error (.tooDeep n) := by
  unfold shapeOf
  split
  · exact nofun
  · split <;> exact nofun

theorem ShapeRun.shape_eq_of_tooDeep {shape : Except EncodeError Shape} {own : List PutCall}
    {n : Nat} (h : ShapeRun shape own (.error (.tooDeep n))) : shape = .error (.tooDeep n) := by
  cases h with
  | conflict h => exact h

mutual

/-- Only a tree that goes below the limit is refused for it, by whatever schedule. -/
theorem ElementRun.limit_lt {c : Encoder} {depth : Nat} {e : Element} {calls : List PutCall}
    {outcome : Except EncodeError Address} : ElementRun c depth e calls outcome →
      ∀ n, outcome = .error (.tooDeep n) → c.config.maxDepth + 1 < depth + e.height
  | .tooDeep hdepth => fun _ _ => Element.limit_lt_iff.mpr (.inl hdepth)
  | .untyped _ htype => by
    intro n h
    cases h
    exact absurd htype typeOf_ne_tooDeep
  | .childFailed _ _ hchildren hfailed => by
    intro n h
    cases h
    exact Element.limit_lt_iff.mpr (.inr (hchildren.limit_lt n hfailed))
  | .built _ _ _ hshape => by
    rintro n rfl
    exact absurd hshape.shape_eq_of_tooDeep shapeOf_ne_tooDeep

theorem ChildrenRun.limit_lt {c : Encoder} {depth : Nat} {children : List Element}
    {calls : List PutCall} {results : List (Option (Except EncodeError Address))} :
    ChildrenRun c depth children calls results → ∀ n, some (.error (.tooDeep n)) ∈ results →
      ∃ child ∈ children, c.config.maxDepth + 1 < depth + child.height
  | .nil => fun _ h => absurd h List.not_mem_nil
  | .run hchild hrest _ => by
    intro n h
    rcases List.mem_cons.mp h with h | h
    · exact ⟨_, List.mem_cons_self, hchild.limit_lt n (Option.some.inj h).symm⟩
    · obtain ⟨child, hmem, hlimit⟩ := hrest.limit_lt n h
      exact ⟨child, List.mem_cons_of_mem _ hmem, hlimit⟩
  | .skipped hrest => by
    intro n h
    obtain ⟨child, hmem, hlimit⟩ := hrest.limit_lt n (by simpa using h)
    exact ⟨child, List.mem_cons_of_mem _ hmem, hlimit⟩

end

theorem ElementRun.ne_tooDeep {c : Encoder} {root : Element} {calls : List PutCall}
    {outcome : Except EncodeError Address} (h : c.ElementRun 1 root calls outcome)
    (hheight : root.height ≤ c.config.maxDepth) (n : Nat) : outcome ≠ .error (.tooDeep n) := by
  intro houtcome
  have hlimit := h.limit_lt n houtcome
  omega

/-- Under two limits a document gives the same tree, except that a limit below the height of the tree
is the error. A tree that has been read under the limit of an encoder is encoded as it would be under
every other limit that it is not higher than, so the limit is no error there, by whatever schedule. -/
theorem limits_agree (data : Bytes) :
    (∀ limit limit' root, Xml.parseDocument limit' data = .ok root →
      Xml.parseDocument limit data =
        if root.height ≤ limit then .ok root else .error (.tooDeep limit)) ∧
    (∀ limit root, Xml.parseDocument limit data = .ok root → root.height ≤ limit) ∧
    (∀ (c : Encoder) root, Xml.parseDocument c.config.maxDepth data = .ok root →
      (∀ {σ : Type} (put : Put σ), ∀ limit ≥ root.height,
        (c.withLimit limit).encode put root = c.encode put root) ∧
      ∀ calls outcome, c.ElementRun 1 root calls outcome → ∀ n, outcome ≠ .error (.tooDeep n)) ∧
    ∀ (c : Encoder) {σ : Type} (put : Put σ) (s : σ) (n : Nat),
      (c.encodeDocument put data s).1 ≠ .error (.tooDeep n) := by
  refine ⟨fun _ _ _ => Xml.parseDocument_of_limit, fun _ _ => Xml.height_le_of_parseDocument,
    fun c root hparse => ⟨fun put limit hlimit => ?_, fun calls outcome hrun => ?_⟩,
    fun c σ put s n => ?_⟩
  · have hheight := Xml.height_le_of_parseDocument hparse
    exact encodeElement_withLimit (by omega) (by omega)
  · exact hrun.ne_tooDeep (Xml.height_le_of_parseDocument hparse)
  · cases hparse : Xml.parseDocument c.config.maxDepth data with
    | error cause =>
      rw [encodeDocument, hparse]
      exact nofun
    | ok root =>
      obtain ⟨calls, hrun, -⟩ := exists_elementRun put c 1 root s
      rw [encodeDocument, hparse]
      exact hrun.ne_tooDeep (Xml.height_le_of_parseDocument hparse) n

def nestedPairTree : Xml.Tree :=
  .pair ⟨⟨none, Xml.nameA⟩, [], List.nodup_nil⟩
    (.child [] (.single ⟨⟨none, Xml.nameB⟩, [], List.nodup_nil⟩) (.last []))

def nestedPair : Element :=
  ⟨none, "a", [], [⟨none, "b", [], [], [""]⟩], ["", ""]⟩

theorem nestedPair_parse : Xml.parseDocument 2 (utf8 nestedPairTree.written) = .ok nestedPair := by
  have hheight : nestedPairTree.height ≤ 2 := by decide
  rw [Xml.parseDocument_written hheight]
  rfl

/-- The inner element stands at the second level, so a limit of one refuses the document. -/
theorem limits_agree_on_nestedPair :
    Xml.parseDocument 1 (utf8 nestedPairTree.written) = .error (.tooDeep 1) ∧
      Xml.parseDocument 9 (utf8 nestedPairTree.written) = .ok nestedPair ∧ nestedPair.height ≤ 2 ∧
        (∃ c : Encoder, c.config.maxDepth = 2 ∧
          (c.withLimit 9).encode noting nestedPair = c.encode noting nestedPair) := by
  obtain ⟨hlimits, hheight, hencoder, -⟩ := limits_agree (utf8 nestedPairTree.written)
  obtain ⟨hsame, -⟩ := hencoder ⟨fun _ _ => some "Title", { maxDepth := 2 }⟩ _ nestedPair_parse
  exact ⟨hlimits 1 2 _ nestedPair_parse, hlimits 9 2 _ nestedPair_parse,
    hheight 2 _ nestedPair_parse, _, rfl, hsame noting 9 (by decide)⟩

end Encoder

end ContentGraph
