import ContentGraph.Proofs.DocumentReading
import ContentGraph.Proofs.Ingestion
import ContentGraph.Proofs.Schedules

/-! Published roots are complete. Whatever conversions are at work and however their puts and sends
fall between each other, an address that is queued or received stands for an object that the store
gives back, and so does every address that is reached from it over links. -/

namespace ContentGraph

open Xml (Element)

namespace MemoryStore

def HoldsOnlyContexts (m : MemoryStore) : Prop :=
  ∀ key data, m.table.get? key = some data →
    ∃ (context : Context) (o : Object), context.toObject = .ok o ∧ o.address.text = key ∧
      o.data = data

theorem HoldsOnlyContexts.matches {m : MemoryStore} (h : m.HoldsOnlyContexts) : m.Matches := by
  intro key data hdata
  obtain ⟨context, o, -, hkey, rfl⟩ := h key data hdata
  exact ⟨.node, by rw [← hkey, o.address_eq]⟩

/-- The object under one address links to the other. -/
def LinksTo (m : MemoryStore) (a b : Address) : Prop :=
  ∃ o, Store.get m a = .ok o ∧ b ∈ o.tree.links

end MemoryStore

namespace Ingestion

namespace Consistent

variable {initial : MemoryStore} {s : Ingestion}

theorem mem_puts_of_published (h : s.Consistent initial) {a : Address}
    (ha : a ∈ s.received ++ s.stream.queue) : a ∈ s.puts.map Object.address := by
  have hsent : a ∈ s.conversions.flatMap Conversion.sent :=
    h.sent.mem_iff.mp (List.mem_append_left _ ha)
  obtain ⟨c, hc, hac⟩ := List.mem_flatMap.mp hsent
  obtain ⟨o, ho, haddress⟩ := List.mem_map.mp ((h.sound c hc).mem_handed hac)
  have hput : o ∈ s.puts := h.handed.mem_iff.mpr (List.mem_flatMap_of_mem hc ho)
  exact List.mem_map.mpr ⟨o, hput, haddress⟩

theorem get_of_put (h : s.Consistent initial) (hinitial : initial.Matches)
    (hseparates : Separates (initial.Involved (s.puts.map .stored)))
    (hlength : ∀ o ∈ s.puts, o.data.length < lengthLimit) {o : Object} (ho : o ∈ s.puts) :
    Store.has s.store o.address = .ok true ∧ Store.get s.store o.address = .ok o := by
  have hcall : PutCall.stored o ∈ s.puts.map .stored := List.mem_map_of_mem ho
  have hentry := MemoryStore.get?_of_stored h.filled hinitial hseparates hcall
  obtain ⟨shape, hobject⟩ := h.shaped o ho
  have hcanonical := Encoder.canonical_of_shape hobject (hlength o ho)
  refine ⟨?_, MemoryStore.get_of_stored h.filled hinitial hseparates hcall hcanonical⟩
  have hcontains : s.store.table.contains o.address.text = true := by simp [Table.contains, hentry]
  simp [Store.has, Backend.has, hcontains]

theorem mem_puts_of_reached (h : s.Consistent initial) (hinitial : initial.Matches)
    (hseparates : Separates (initial.Involved (s.puts.map .stored)))
    (hlength : ∀ o ∈ s.puts, o.data.length < lengthLimit) {a b : Address}
    (ha : a ∈ s.puts.map Object.address) (hreached : Relation.ReflTransGen s.store.LinksTo a b) :
    b ∈ s.puts.map Object.address := by
  induction hreached with
  | refl => exact ha
  | tail _ hlink ih =>
    obtain ⟨o, ho, rfl⟩ := List.mem_map.mp ih
    obtain ⟨o', hget, hb⟩ := hlink
    -- the object found is the one that was put, and its links were put before it
    have hsame : o = o' :=
      Except.ok.inj ((h.get_of_put hinitial hseparates hlength ho).2.symm.trans hget)
    rw [← hsame] at hb
    have hcall : PutCall.stored o ∈ s.puts.map .stored := List.mem_map_of_mem ho
    have hstored := h.ordered.mem_storedIn_of_link hcall hb
    rwa [storedIn_map] at hstored

theorem complete (h : s.Consistent initial) (hinitial : initial.Matches)
    (hseparates : Separates (initial.Involved (s.puts.map .stored)))
    (hlength : ∀ o ∈ s.puts, o.data.length < lengthLimit) {a b : Address}
    (ha : a ∈ s.received ++ s.stream.queue)
    (hreached : Relation.ReflTransGen s.store.LinksTo a b) :
    Store.has s.store b = .ok true ∧ ∃ o, Store.get s.store b = .ok o := by
  have hput := h.mem_puts_of_published ha
  obtain ⟨o, ho, rfl⟩ :=
    List.mem_map.mp (h.mem_puts_of_reached hinitial hseparates hlength hput hreached)
  obtain ⟨hhas, hget⟩ := h.get_of_put hinitial hseparates hlength ho
  exact ⟨hhas, o, hget⟩

end Consistent

end Ingestion

/-! The program's own conversions are among those that can happen, with nothing in between. -/

theorem Converter.exists_run (c : Converter) (document : Bytes) (m : MemoryStore) :
    ∃ objects : List Object, c.Run document objects (c.convert document m).1 ∧
      Replays Store.put m (objects.map .stored) (c.convert document m).2 := by
  have hnever : NeverFails (Store.put : Put MemoryStore) := fun _ _ => rfl
  cases hparse : Xml.parseDocument c.config.maxDepth document with
  | error cause =>
    have hencode : c.encoder.encodeDocument Store.put document m =
        (.error (.document cause), m) := by
      have hparse' : Xml.parseDocument c.encoder.config.maxDepth document = .error cause := hparse
      rw [Encoder.encodeDocument, hparse']
      rfl
    rw [convert, hencode]
    exact ⟨[], .unread hparse, .nil⟩
  | ok root =>
    obtain ⟨calls, hrun, hreplay⟩ := Encoder.exists_elementRun Store.put c.encoder 1 root m
    obtain ⟨objects, rfl⟩ := exists_stored_of_unrefused (hreplay.unrefused hnever)
    have hencode : c.encoder.encodeDocument Store.put document m =
        Encoder.encodeElement c.encoder Store.put 1 root m := by
      have hparse' : Xml.parseDocument c.encoder.config.maxDepth document = .ok root := hparse
      rw [Encoder.encodeDocument, hparse']
      rfl
    have hown := Converter.Run.encoded hparse hrun
    rw [convert, hencode]
    cases hresult : Encoder.encodeElement c.encoder Store.put 1 root m with
    | mk outcome last =>
      rw [hresult] at hown hreplay
      cases outcome <;> exact ⟨objects, hown, hreplay⟩

def Stage.answer : Stage → Poll (Except IngestError Address)
  | .done result => .ready result
  | _ => .pending

namespace Ingestion

theorem steps_put {i : Nat} {c : Conversion} {s : Ingestion} {later : List Object}
    {result : Except IngestError Address} {last : MemoryStore} (hi : s.conversions[i]? = some c)
    (hstage : c.stage = .storing) (hrun : c.converter.Run c.document (c.handed ++ later) result)
    (hreplay : Replays Store.put s.store (later.map .stored) last) :
    ∃ puts, Steps s { s with
      store := last
      conversions := s.conversions.set i { c with handed := c.handed ++ later }
      puts } := by
  induction later generalizing s c with
  | nil =>
    cases hreplay
    have hsame : s.conversions.set i c = s.conversions := by
      obtain ⟨hlt, hget⟩ := List.getElem?_eq_some_iff.mp hi
      rw [← hget, List.set_getElem_self]
    refine ⟨s.puts, ?_⟩
    simp only [List.append_nil, hsame]
    exact .refl
  | cons o rest ih =>
    cases hreplay with
    | stored hput hrest =>
      obtain ⟨hlt, -⟩ := List.getElem?_eq_some_iff.mp hi
      have hnext : (s.put i c o).conversions[i]? = some (c.hand o) := by simp [put, hlt]
      have hrest' : Replays Store.put (s.put i c o).store (rest.map .stored) last := by
        simpa [put, hput] using hrest
      have hrun' : c.converter.Run c.document ((c.hand o).handed ++ rest) result := by
        simpa [Conversion.hand] using hrun
      obtain ⟨puts, hsteps⟩ := ih hnext hstage hrun' hrest'
      refine ⟨puts, .head (.put hi hstage hrun) ?_⟩
      simpa [put, Conversion.hand] using hsteps

/-- A conversion that is called and let run until all is stored. -/
theorem steps_convert (s : Ingestion) (converter : Converter) (document : Bytes)
    (signal : Option CancelSignal) (hfires : s.fires signal = false) :
    ∃ puts handed, Steps s { s with
      store := (converter.convert document s.store).2
      conversions := s.conversions ++ [(Conversion.storing converter document signal handed).finish
        (converter.convert document s.store).1]
      puts } := by
  obtain ⟨objects, hrun, hreplay⟩ := converter.exists_run document s.store
  have hcalled : (s.call converter document signal).conversions =
      s.conversions ++ [.storing converter document signal []] := by
    simp [call, hfires, Conversion.storing]
  have hi : (s.call converter document signal).conversions[s.conversions.length]? =
      some (.storing converter document signal []) := by simp [hcalled]
  obtain ⟨puts, hsteps⟩ := steps_put hi rfl hrun hreplay
  have hstored : Steps s { s with
      store := (converter.convert document s.store).2
      conversions := s.conversions ++ [.storing converter document signal objects]
      puts } := by
    simpa [call, hfires, Conversion.storing] using hsteps.head (.call converter document signal)
  have hlast : (s.conversions ++ [Conversion.storing converter document signal objects])[
      s.conversions.length]? = some (.storing converter document signal objects) := by simp
  refine ⟨puts, objects, ?_⟩
  simpa [finish] using hstored.tail (.finish hlast rfl hrun)

section

variable {s : Ingestion} {c : Conversion} {others : List Conversion} {root : Address}
  {stream : AddressStream}

theorem step_send (hlast : s.conversions = others ++ [c]) (hstage : c.stage = .sending root)
    (hsend : s.stream.send (s.fires c.signal) root = (.ready (.ok ()), stream)) :
    Step s { s with stream, conversions := others ++ [c.publish root] } := by
  have hi : s.conversions[others.length]? = some c := by simp [hlast]
  simpa [send, hsend, hlast] using Step.send hi hstage

theorem step_send_error (hlast : s.conversions = others ++ [c]) (hstage : c.stage = .sending root)
    {cause : IngestError}
    (hsend : s.stream.send (s.fires c.signal) root = (.ready (.error cause), stream)) :
    Step s { s with stream, conversions := others ++ [c.fail cause] } := by
  have hi : s.conversions[others.length]? = some c := by simp [hlast]
  simpa [send, hsend, hlast] using Step.send hi hstage

end

/-- The conversion can be made, without anything in between, until it has its answer or has to
wait. -/
def Makes (s : Ingestion) (converter : Converter) (document : Bytes) (signal : Option CancelSignal)
    (answer : Poll (Except IngestError Address)) (store : MemoryStore) (stream : AddressStream) :
    Prop :=
  ∃ t conversion, Steps s t ∧ t.conversions = s.conversions ++ [conversion] ∧
    conversion.converter = converter ∧ conversion.document = document ∧ conversion.signal = signal ∧
    conversion.stage.answer = answer ∧ t.store = store ∧ t.stream = stream

theorem makes_convert (s : Ingestion) (converter : Converter) (document : Bytes) :
    s.Makes converter document none (.ready (converter.convert document s.store).1)
      (converter.convert document s.store).2 s.stream := by
  obtain ⟨puts, handed, hsteps⟩ := s.steps_convert converter document none rfl
  refine ⟨_, _, hsteps, rfl, ?_, ?_, ?_, ?_, rfl, rfl⟩ <;>
    cases (converter.convert document s.store).1 <;> rfl

theorem makes_publish (s : Ingestion) (converter : Converter) (document : Bytes)
    (signal : CancelSignal) :
    let made := converter.publish (s.cancellations.fires signal) document s.store s.stream
    s.Makes converter document (some signal) made.1 made.2.1 made.2.2 := by
  by_cases hfires : s.cancellations.fires signal = true
  · rw [Converter.publish, if_pos hfires]
    have hcalled := Step.call (s := s) converter document (some signal)
    refine ⟨_, _, .single hcalled, rfl, rfl, rfl, rfl, ?_, rfl, rfl⟩
    simp [fires, hfires, Stage.answer]
  · have hidle : s.fires (some signal) = false := by simpa [fires] using hfires
    obtain ⟨puts, handed, hsteps⟩ := s.steps_convert converter document (some signal) hidle
    rw [Converter.publish, if_neg hfires]
    cases hconvert : converter.convert document s.store with
    | mk result last =>
      rw [hconvert] at hsteps
      cases result with
      | error cause => exact ⟨_, _, hsteps, rfl, rfl, rfl, rfl, rfl, rfl, rfl⟩
      | ok root =>
        rcases s.stream.send_cases (s.cancellations.fires signal) root with
          ⟨cause, hsend⟩ | hsend | hsend
        · have hsent := hsteps.tail (step_send_error rfl rfl (by exact hsend))
          simp only [hsend]
          exact ⟨_, _, hsent, rfl, rfl, rfl, rfl, rfl, rfl, rfl⟩
        · have hsent := hsteps.tail (step_send rfl rfl (by exact hsend))
          simp only [hsend]
          exact ⟨_, _, hsent, rfl, rfl, rfl, rfl, rfl, rfl, rfl⟩
        · simp only [hsend]
          exact ⟨_, _, hsteps, rfl, rfl, rfl, rfl, rfl, rfl, rfl⟩

/-- Every moment of every interleaving: what is published is complete, and a conversion that
publishes sends its root once if it succeeds, and nothing if it fails. That no two of the byte
strings share an address is what the hash function is trusted with, and that none reaches the length
limit is what memory sees to. -/
theorem published_roots_are_complete {initial : MemoryStore} {capacity : Nat} {s : Ingestion}
    (hinitial : initial.HoldsOnlyContexts) (hsteps : Steps (start initial capacity) s) :
    (Separates (initial.Involved (s.puts.map .stored)) →
      (∀ o ∈ s.puts, o.data.length < lengthLimit) → ∀ a ∈ s.received ++ s.stream.queue,
        ∀ b, Relation.ReflTransGen s.store.LinksTo a b →
          Store.has s.store b = .ok true ∧ ∃ o, Store.get s.store b = .ok o) ∧
    (∀ c ∈ s.conversions, c.signal.isSome = true →
      (c.fired = true → c.handed = [] ∧ c.sent = [] ∧ c.stage = .done (.error .cancelled)) ∧
      (∀ root, c.stage = .done (.ok root) → c.sent = [root]) ∧
      ∀ cause, c.stage = .done (.error cause) → c.sent = []) ∧
    (Replays Store.put initial (s.puts.map .stored) s.store ∧
      s.puts.Perm (s.conversions.flatMap Conversion.handed) ∧
      (s.received ++ s.stream.queue ++ s.lost).Perm (s.conversions.flatMap Conversion.sent)) ∧
    (∀ converter document, s.Makes converter document none
      (.ready (converter.convert document s.store).1) (converter.convert document s.store).2
      s.stream) ∧
    ∀ converter document signal,
      let made := converter.publish (s.cancellations.fires signal) document s.store s.stream
      s.Makes converter document (some signal) made.1 made.2.1 made.2.2 := by
  have h : s.Consistent initial := (consistent_start initial capacity).steps hsteps
  refine ⟨fun hseparates hlength a ha b hreached => ?_, fun c hc hsignal => ?_,
    ⟨h.filled, h.handed, h.sent⟩, s.makes_convert, s.makes_publish⟩
  · exact h.complete hinitial.matches hseparates hlength ha hreached
  · have hsound := h.sound c hc
    refine ⟨fun hfired => ?_, fun root hstage => ?_, fun cause hstage => ?_⟩
    · exact hsound.idle_of_fired hfired
    · have hsent := hsound
      simp only [Conversion.Sound, hstage, hsignal, if_true] at hsent
      exact hsent.2.2
    · have hsent := hsound
      simp only [Conversion.Sound, hstage] at hsent
      exact hsent.1

end Ingestion

open Encoder

def smallContext : Context :=
  .ofTerms [("a", "Title"), ("b", "Title")]

def smallContextObject : Object :=
  ⟨Block.ofData .node smallContext.toNode.encode, smallContext.toNode, some contextType, rfl, rfl,
    rfl⟩

def contextStore : MemoryStore :=
  (Store.put smallContextObject MemoryStore.empty).2

def smallConverter : Converter :=
  { contexts := [smallContext] }

def smallBytes : Bytes :=
  [60, 97, 62, 60, 98, 62, 120, 60, 47, 98, 62, 60, 47, 97, 62]

def parsedDocument : Element :=
  ⟨none, "a", [], [smallLeaf], ["", ""]⟩

def parsedShape : Shape :=
  .composite "Title" (attributesOf parsedDocument)
    ((groupByField parsedDocument [smallLeafObject.address]).mapValues fieldOf) []

def parsedObject : Object :=
  ⟨Block.ofData .node parsedShape.toNode.encode, parsedShape.toNode, some "Title", rfl, rfl, rfl⟩

def smallWritten : Xml.Tree :=
  .pair ⟨⟨none, Xml.nameA⟩, [], List.nodup_nil⟩
    (.child [] (.pair ⟨⟨none, Xml.nameB⟩, [], List.nodup_nil⟩ (.last [.text "x"])) (.last []))

theorem smallBytes_parse : Xml.parseDocument 256 smallBytes = .ok parsedDocument := by
  have hwritten : smallBytes = utf8 smallWritten.written := by decide
  have hheight : smallWritten.height ≤ 256 := by decide
  rw [hwritten, Xml.parseDocument_written hheight]
  rfl

theorem smallBytes_run : smallConverter.Run smallBytes [smallLeafObject, parsedObject]
    (.ok parsedObject.address) := by
  have hleaf : smallConverter.encoder.ElementRun 2 smallLeaf [.stored smallLeafObject]
      (.ok smallLeafObject.address) :=
    @ElementRun.of_childless _ 2 smallLeaf "Title" smallLeafShape _ rfl (by decide) rfl rfl rfl
  have hrun : smallConverter.encoder.ElementRun 1 parsedDocument
      [.stored smallLeafObject, .stored parsedObject] (.ok parsedObject.address) :=
    @ElementRun.built _ 1 parsedDocument "Title" [.stored smallLeafObject] _
      [smallLeafObject.address] _ (by decide) rfl (.run hleaf .nil (.left .nil))
      (@ShapeRun.stored _ parsedShape _ rfl rfl)
  exact @Converter.Run.encoded smallConverter smallBytes parsedDocument
    [smallLeafObject, parsedObject] (.ok parsedObject.address) smallBytes_parse hrun

theorem smallBytes_apart :
    ([smallContextObject, smallLeafObject, parsedObject].map Object.address).Nodup := by
  decide +kernel

theorem contextStore_entry {key : String} {data : Bytes}
    (h : contextStore.table.get? key = some data) :
    smallContextObject.address.text = key ∧ smallContextObject.data = data := by
  have hwritten : contextStore =
      MemoryStore.empty.write smallContextObject.address.text smallContextObject.data := rfl
  have hempty : MemoryStore.empty.table.get? key = none := rfl
  rw [hwritten, MemoryStore.get?_write, hempty, Option.none_or] at h
  by_cases hkey : key = smallContextObject.address.text
  · rw [if_pos hkey] at h
    exact ⟨hkey.symm, Option.some.inj h⟩
  · rw [if_neg hkey] at h
    cases h

theorem contextStore_holdsOnlyContexts : contextStore.HoldsOnlyContexts := by
  intro key data hdata
  exact ⟨smallContext, smallContextObject, rfl, contextStore_entry hdata⟩

def underWay (handed : List Object) : Conversion :=
  .storing smallConverter smallBytes (some .never) handed

/-- The conversion step by step, up to where the root is received. -/
def smallIngestion : Ingestion :=
  let called := (Ingestion.start contextStore 1).call smallConverter smallBytes (some .never)
  let begun := called.put 0 (underWay []) smallLeafObject
  let stored := begun.put 0 (underWay [smallLeafObject]) parsedObject
  let last := underWay [smallLeafObject, parsedObject]
  let finished := stored.finish 0 last (.ok parsedObject.address)
  let sent := finished.send 0 (last.finish (.ok parsedObject.address)) parsedObject.address
  sent.receive .never

theorem steps_smallIngestion : Ingestion.Steps (Ingestion.start contextStore 1) smallIngestion := by
  refine .head (.call smallConverter smallBytes (some .never)) ?_
  refine .head (@Ingestion.Step.put _ 0 (underWay []) _ [parsedObject] _ rfl rfl smallBytes_run) ?_
  refine .head (@Ingestion.Step.put _ 0 (underWay [_]) _ [] _ rfl rfl smallBytes_run) ?_
  refine .head (@Ingestion.Step.finish _ 0 (underWay [_, _]) _ rfl rfl smallBytes_run) ?_
  refine .head (@Ingestion.Step.send _ 0 ((underWay [_, _]).finish (.ok _)) _ rfl rfl) ?_
  exact .single (.receive .never)

theorem smallIngestion_separates :
    Separates (contextStore.Involved (smallIngestion.puts.map .stored)) := by
  refine (separates_of_nodup smallBytes_apart).of_imp fun data hdata => ?_
  rcases hdata with ⟨key, hkey⟩ | ⟨o, ho, hdata⟩
  · exact ⟨smallContextObject, by simp, (contextStore_entry hkey).2⟩
  · have hputs : smallIngestion.puts = [smallLeafObject, parsedObject] := rfl
    rw [hputs] at ho
    refine ⟨o, ?_, hdata⟩
    simpa using Or.inr ho

theorem smallIngestion_short : ∀ o ∈ smallIngestion.puts, o.data.length < lengthLimit := by
  have hputs : smallIngestion.puts = [smallLeafObject, parsedObject] := rfl
  rw [hputs]
  intro o ho
  rcases List.mem_cons.mp ho with rfl | ho
  · decide +kernel
  · obtain rfl := List.mem_singleton.mp ho
    decide +kernel

theorem published_roots_are_complete_in_small_document :
    ∃ s, Ingestion.Steps (Ingestion.start contextStore 1) s ∧
      s.received = [parsedObject.address] ∧
      ∀ b, Relation.ReflTransGen s.store.LinksTo parsedObject.address b →
        Store.has s.store b = .ok true ∧ ∃ o, Store.get s.store b = .ok o := by
  have hreceived : smallIngestion.received = [parsedObject.address] := rfl
  obtain ⟨hcomplete, -⟩ :=
    Ingestion.published_roots_are_complete contextStore_holdsOnlyContexts steps_smallIngestion
  refine ⟨smallIngestion, steps_smallIngestion, hreceived, fun b hreached => ?_⟩
  have hroot : parsedObject.address ∈ smallIngestion.received ++ smallIngestion.stream.queue := by
    simp [hreceived]
  exact hcomplete smallIngestion_separates smallIngestion_short parsedObject.address hroot b hreached

end ContentGraph
