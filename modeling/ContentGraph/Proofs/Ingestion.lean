import ContentGraph.Cancellation
import ContentGraph.Converter
import ContentGraph.Proofs.LinkOrder
import ContentGraph.Proofs.StoredObjects
import Mathlib.Logic.Relation

/-! Conversions at work beside each other, over one store and one stream: a conversion puts one
object after the other and, if it publishes, sends its root at the end, while others put and send,
addresses are received, the stream is closed and signals fire in between. -/

namespace ContentGraph

open Xml (Element)

/-- The objects that a conversion hands over from its beginning to its end, and its result. -/
inductive Converter.Run (c : Converter) (document : Bytes) :
    List Object → Except IngestError Address → Prop
  | unread {cause : Xml.DocumentError}
    (hparse : Xml.parseDocument c.config.maxDepth document = .error cause) :
    Run c document [] (.error (.encode (.document cause)))
  | encoded {root : Element} {objects : List Object} {outcome : Except EncodeError Address}
    (hparse : Xml.parseDocument c.config.maxDepth document = .ok root)
    (hrun : c.encoder.ElementRun 1 root (objects.map .stored) outcome) :
    Run c document objects (outcome.mapError .encode)

theorem Converter.Run.linksBefore {c : Converter} {document : Bytes} {objects : List Object}
    {result : Except IngestError Address} (h : c.Run document objects result) :
    LinksBefore [] (objects.map .stored) ∧
      ∀ root, result = .ok root → root ∈ objects.map Object.address := by
  cases h with
  | unread => exact ⟨trivial, nofun⟩
  | @encoded _ _ outcome _ hrun =>
    obtain ⟨hordered, hroot⟩ := hrun.linksBefore
    refine ⟨hordered, fun root hresult => ?_⟩
    cases outcome with
    | ok a =>
      cases hresult
      simpa only [storedIn_map] using hroot root rfl
    | error cause => cases hresult

theorem Converter.Run.exists_shape {c : Converter} {document : Bytes} {objects : List Object}
    {result : Except IngestError Address} (h : c.Run document objects result) {o : Object}
    (ho : o ∈ objects) : ∃ shape : Shape, Object.ofNode shape.toNode = .ok o := by
  cases h with
  | unread => cases ho
  | encoded _ hrun => exact hrun.exists_shape o (List.mem_map_of_mem ho)

inductive Stage
  | storing
  | sending (root : Address)
  | done (result : Except IngestError Address)

/-- A conversion, with what it has put and what it has sent so far. -/
structure Conversion where
  converter : Converter
  document : Bytes
  /-- Without a signal nothing is published. -/
  signal : Option CancelSignal
  /-- The signal had fired when the conversion was called. -/
  fired : Bool
  handed : List Object
  sent : List Address
  stage : Stage

namespace Conversion

/-- A conversion that is storing its document and has come as far as `handed`. -/
def storing (converter : Converter) (document : Bytes) (signal : Option CancelSignal)
    (handed : List Object) : Conversion where
  converter := converter
  document := document
  signal := signal
  fired := false
  handed := handed
  sent := []
  stage := .storing

def hand (c : Conversion) (o : Object) : Conversion :=
  { c with handed := c.handed ++ [o] }

def fail (c : Conversion) (cause : IngestError) : Conversion :=
  { c with stage := .done (.error cause) }

def publish (c : Conversion) (root : Address) : Conversion :=
  { c with sent := c.sent ++ [root], stage := .done (.ok root) }

/-- All is stored, and the root is still to be sent if the conversion publishes. -/
def finish (c : Conversion) (result : Except IngestError Address) : Conversion :=
  match result with
  | .ok root => { c with stage := if c.signal.isSome then .sending root else .done (.ok root) }
  | .error cause => c.fail cause

end Conversion

structure Ingestion where
  store : MemoryStore
  stream : AddressStream
  cancellations : Cancellations
  conversions : List Conversion
  /-- What has been put, by all conversions. -/
  puts : List Object
  received : List Address
  /-- What was in the queue when the receiving end went. -/
  lost : List Address

namespace Ingestion

def start (store : MemoryStore) (capacity : Nat) : Ingestion where
  store := store
  stream := .make capacity
  cancellations := .empty
  conversions := []
  puts := []
  received := []
  lost := []

variable (s : Ingestion)

def fires (signal : Option CancelSignal) : Bool :=
  signal.any s.cancellations.fires

def call (c : Converter) (document : Bytes) (signal : Option CancelSignal) : Ingestion :=
  let stage := if s.fires signal then .done (.error .cancelled) else .storing
  { s with conversions := s.conversions ++ [⟨c, document, signal, s.fires signal, [], [], stage⟩] }

def put (i : Nat) (c : Conversion) (o : Object) : Ingestion :=
  { s with
    store := (Store.put o s.store).2
    conversions := s.conversions.set i (c.hand o)
    puts := s.puts ++ [o] }

def finish (i : Nat) (c : Conversion) (result : Except IngestError Address) : Ingestion :=
  { s with conversions := s.conversions.set i (c.finish result) }

def send (i : Nat) (c : Conversion) (root : Address) : Ingestion :=
  match s.stream.send (s.fires c.signal) root with
  | (.ready (.ok ()), stream) =>
    { s with stream, conversions := s.conversions.set i (c.publish root) }
  | (.ready (.error cause), stream) =>
    { s with stream, conversions := s.conversions.set i (c.fail cause) }
  | (.pending, stream) => { s with stream }

def receive (signal : CancelSignal) : Ingestion :=
  match s.stream.receive (s.cancellations.fires signal) with
  | (.ready (.ok (some a)), stream) => { s with stream, received := s.received ++ [a] }
  | (_, stream) => { s with stream }

def drop : Ingestion :=
  { s with stream := s.stream.drop, lost := s.lost ++ s.stream.queue }

/-- One put, one send or one receive, or one of the other things that can happen. What is put next
is what some run of the document puts next. -/
inductive Step (s : Ingestion) : Ingestion → Prop
  | call (c : Converter) (document : Bytes) (signal : Option CancelSignal) :
    Step s (s.call c document signal)
  | put {i : Nat} {c : Conversion} {o : Object} {later : List Object}
    {result : Except IngestError Address} (hi : s.conversions[i]? = some c)
    (hstage : c.stage = .storing)
    (hrun : c.converter.Run c.document (c.handed ++ o :: later) result) : Step s (s.put i c o)
  | finish {i : Nat} {c : Conversion} {result : Except IngestError Address}
    (hi : s.conversions[i]? = some c) (hstage : c.stage = .storing)
    (hrun : c.converter.Run c.document c.handed result) : Step s (s.finish i c result)
  | send {i : Nat} {c : Conversion} {root : Address} (hi : s.conversions[i]? = some c)
    (hstage : c.stage = .sending root) : Step s (s.send i c root)
  | receive (signal : CancelSignal) : Step s (s.receive signal)
  | close : Step s { s with stream := s.stream.close }
  | drop : Step s s.drop
  | addSender : Step s { s with stream := s.stream.addSender.2 }
  | dropSender (sender : Nat) : Step s { s with stream := s.stream.dropSender sender }
  | makeSignal : Step s { s with cancellations := s.cancellations.create.2 }
  | cancel (handle : CancelHandle) :
    Step s { s with cancellations := s.cancellations.cancel handle }

abbrev Steps : Ingestion → Ingestion → Prop :=
  Relation.ReflTransGen Step

end Ingestion

namespace AddressStream

theorem send_cases (s : AddressStream) (cancelled : Bool) (a : Address) :
    (∃ cause, s.send cancelled a = (.ready (.error cause), s)) ∨
      s.send cancelled a = (.ready (.ok ()), { s with queue := s.queue ++ [a] }) ∨
      s.send cancelled a = (.pending, s) := by
  unfold send
  split
  · exact .inl ⟨_, rfl⟩
  · split
    · exact .inl ⟨_, rfl⟩
    · split
      · exact .inr (.inl rfl)
      · exact .inr (.inr rfl)

theorem receive_cases (s : AddressStream) (cancelled : Bool) :
    (∃ a rest, s.queue = a :: rest ∧
      s.receive cancelled = (.ready (.ok (some a)), { s with queue := rest })) ∨
      ∃ poll, (∀ a, poll ≠ .ready (.ok (some a))) ∧ s.receive cancelled = (poll, s) := by
  unfold receive
  split
  · refine .inr ⟨_, ?_, rfl⟩
    simp
  · split
    · next a rest hqueue => exact .inl ⟨a, rest, hqueue, rfl⟩
    · split
      · refine .inr ⟨_, ?_, rfl⟩
        simp
      · refine .inr ⟨_, ?_, rfl⟩
        simp

end AddressStream

namespace Conversion

def Sound (c : Conversion) : Prop :=
  match c.stage with
  | .storing => c.fired = false ∧ c.sent = []
  | .sending root => c.fired = false ∧ c.sent = [] ∧ c.signal.isSome = true ∧
    root ∈ c.handed.map Object.address
  | .done (.ok root) => c.fired = false ∧ root ∈ c.handed.map Object.address ∧
    c.sent = if c.signal.isSome then [root] else []
  | .done (.error cause) => c.sent = [] ∧ (c.fired = true → c.handed = [] ∧ cause = .cancelled)

variable {c : Conversion} {root : Address}

theorem Sound.mem_handed (h : c.Sound) {a : Address} (ha : a ∈ c.sent) :
    a ∈ c.handed.map Object.address := by
  unfold Sound at h
  split at h
  · simp [h.2] at ha
  · simp [h.2.1] at ha
  · next root hstage =>
    obtain ⟨-, hroot, hsent⟩ := h
    by_cases hsignal : c.signal.isSome = true
    · rw [hsent, if_pos hsignal, List.mem_singleton] at ha
      rwa [ha]
    · rw [hsent, if_neg hsignal] at ha
      cases ha
  · simp [h.1] at ha

theorem Sound.idle_of_fired (h : c.Sound) (hfired : c.fired = true) :
    c.handed = [] ∧ c.sent = [] ∧ c.stage = .done (.error .cancelled) := by
  unfold Sound at h
  split at h
  · simp [hfired] at h
  · simp [hfired] at h
  · simp [hfired] at h
  · next cause hstage =>
    obtain ⟨hsent, hidle⟩ := h
    obtain ⟨hhanded, rfl⟩ := hidle hfired
    exact ⟨hhanded, hsent, hstage⟩

theorem Sound.hand (h : c.Sound) (hstage : c.stage = .storing) (o : Object) : (c.hand o).Sound := by
  have hidle : c.fired = false ∧ c.sent = [] := by simpa [Sound, hstage] using h
  simpa [Sound, Conversion.hand, hstage] using hidle

theorem Sound.finish (h : c.Sound) (hstage : c.stage = .storing)
    {result : Except IngestError Address} (hrun : c.converter.Run c.document c.handed result) :
    (c.finish result).Sound := by
  obtain ⟨hfired, hsent⟩ : c.fired = false ∧ c.sent = [] := by simpa [Sound, hstage] using h
  cases result with
  | error cause => simp [Sound, Conversion.finish, fail, hsent, hfired]
  | ok root =>
    have hroot := hrun.linksBefore.2 root rfl
    by_cases hsignal : c.signal.isSome = true
    · simp [Sound, Conversion.finish, hsignal, hfired, hsent, hroot]
    · simp [Sound, Conversion.finish, hsignal, hfired, hsent, hroot]

theorem Sound.publish (h : c.Sound) (hstage : c.stage = .sending root) :
    (c.publish root).Sound := by
  obtain ⟨hfired, hsent, hsignal, hroot⟩ : c.fired = false ∧ c.sent = [] ∧
      c.signal.isSome = true ∧ root ∈ c.handed.map Object.address := by
    simpa only [Sound, hstage] using h
  simp [Sound, Conversion.publish, hfired, hsent, hsignal, hroot]

theorem Sound.fail (h : c.Sound) (hstage : c.stage = .sending root) (cause : IngestError) :
    (c.fail cause).Sound := by
  obtain ⟨hfired, hsent, -⟩ : c.fired = false ∧ c.sent = [] ∧
      c.signal.isSome = true ∧ root ∈ c.handed.map Object.address := by
    simpa only [Sound, hstage] using h
  simp [Sound, Conversion.fail, hfired, hsent]

end Conversion

theorem perm_flatMap_set {α β : Type} {f : α → List β} {xs : List α} {i : Nat} {x y : α}
    {more : List β} (hi : xs[i]? = some x) (hy : f y = f x ++ more) :
    ((xs.set i y).flatMap f).Perm (xs.flatMap f ++ more) := by
  induction xs generalizing i with
  | nil => simp at hi
  | cons z zs ih =>
    cases i with
    | zero =>
      obtain rfl : z = x := by simpa using hi
      simp only [List.set_cons_zero, List.flatMap_cons, hy, List.append_assoc]
      exact List.perm_append_comm.append_left _
    | succ i =>
      have hrest := ih (by simpa using hi)
      simpa only [List.set_cons_succ, List.flatMap_cons, List.append_assoc] using
        hrest.append_left _

theorem perm_flatMap_set_of_eq {α β : Type} {f : α → List β} {xs : List α} {i : Nat} {x y : α}
    (hi : xs[i]? = some x) (hy : f y = f x) : ((xs.set i y).flatMap f).Perm (xs.flatMap f) := by
  have hsame : f y = f x ++ [] := by simpa using hy
  simpa using perm_flatMap_set hi hsame

namespace Ingestion

/-- The store is what the puts have made of the first one, each object came behind what it links to,
and what is on its way to a receiver or there is what the conversions have sent. -/
structure Consistent (initial : MemoryStore) (s : Ingestion) : Prop where
  filled : Replays Store.put initial (s.puts.map .stored) s.store
  ordered : LinksBefore [] (s.puts.map .stored)
  shaped : ∀ o ∈ s.puts, ∃ shape : Shape, Object.ofNode shape.toNode = .ok o
  handed : s.puts.Perm (s.conversions.flatMap Conversion.handed)
  sent : (s.received ++ s.stream.queue ++ s.lost).Perm (s.conversions.flatMap Conversion.sent)
  sound : ∀ c ∈ s.conversions, c.Sound

theorem consistent_start (initial : MemoryStore) (capacity : Nat) :
    (start initial capacity).Consistent initial where
  filled := .nil
  ordered := trivial
  shaped := by simp [start]
  handed := .nil
  sent := .nil
  sound := by simp [start]

namespace Consistent

variable {initial : MemoryStore} {s t : Ingestion} {i : Nat} {c : Conversion}

theorem mem_puts (h : s.Consistent initial) (hi : s.conversions[i]? = some c) {o : Object}
    (ho : o ∈ c.handed) : o ∈ s.puts :=
  h.handed.mem_iff.mpr (List.mem_flatMap_of_mem (List.mem_of_getElem? hi) ho)

/-- Nothing else than the streams and the signals has changed. -/
theorem of_same (h : s.Consistent initial) (hstore : t.store = s.store) (hputs : t.puts = s.puts)
    (hconversions : t.conversions = s.conversions)
    (hsent : (t.received ++ t.stream.queue ++ t.lost).Perm
      (s.received ++ s.stream.queue ++ s.lost)) :
    t.Consistent initial where
  filled := by simpa only [hstore, hputs] using h.filled
  ordered := by simpa only [hputs] using h.ordered
  shaped := by simpa only [hputs] using h.shaped
  handed := by simpa only [hputs, hconversions] using h.handed
  sent := by simpa only [hconversions] using hsent.trans h.sent
  sound := by simpa only [hconversions] using h.sound

theorem call (h : s.Consistent initial) (converter : Converter) (document : Bytes)
    (signal : Option CancelSignal) : (s.call converter document signal).Consistent initial where
  filled := h.filled
  ordered := h.ordered
  shaped := h.shaped
  handed := by simpa [Ingestion.call] using h.handed
  sent := by simpa [Ingestion.call] using h.sent
  sound := by
    intro c hc
    simp only [Ingestion.call, List.mem_append, List.mem_singleton] at hc
    rcases hc with hc | rfl
    · exact h.sound c hc
    · by_cases hfires : s.fires signal = true
      · simp [Conversion.Sound, hfires]
      · simp [Conversion.Sound, hfires]

theorem put (h : s.Consistent initial) {o : Object} {later : List Object}
    {result : Except IngestError Address} (hi : s.conversions[i]? = some c)
    (hstage : c.stage = .storing)
    (hrun : c.converter.Run c.document (c.handed ++ o :: later) result) :
    (s.put i c o).Consistent initial where
  filled := by
    have hput : Store.put o s.store = (.ok (), (Store.put o s.store).2) := rfl
    simpa [Ingestion.put] using h.filled.append (.stored hput .nil)
  ordered := by
    have hown := hrun.linksBefore.1
    rw [List.map_append, List.map_cons] at hown
    -- the conversion itself has put all that the object links to
    have hlinks : ∀ a ∈ o.tree.links, a ∈ storedIn (s.puts.map .stored) ++ [] := by
      intro a ha
      have hmem := hown.of_append.1 a ha
      simp only [List.append_nil, storedIn_map, List.mem_map] at hmem ⊢
      obtain ⟨o', ho', haddress⟩ := hmem
      exact ⟨o', h.mem_puts hi ho', haddress⟩
    have hlast : LinksBefore (storedIn (s.puts.map .stored) ++ []) [.stored o] := ⟨hlinks, trivial⟩
    simpa [Ingestion.put] using h.ordered.append hlast
  shaped := by
    intro o' ho'
    simp only [Ingestion.put, List.mem_append, List.mem_singleton] at ho'
    rcases ho' with ho' | rfl
    · exact h.shaped o' ho'
    · exact hrun.exists_shape (by simp)
  handed := (h.handed.append_right [o]).trans (perm_flatMap_set hi rfl).symm
  sent := by
    have hsame : (c.hand o).sent = c.sent := rfl
    exact h.sent.trans (perm_flatMap_set_of_eq hi hsame).symm
  sound := by
    intro c' hc'
    rcases List.mem_or_eq_of_mem_set hc' with hc' | rfl
    · exact h.sound c' hc'
    · exact (h.sound c (List.mem_of_getElem? hi)).hand hstage o

/-- A conversion goes on without a put, and what it has sent is in the queue. -/
theorem set (h : s.Consistent initial) (hi : s.conversions[i]? = some c) {c' : Conversion}
    {stream : AddressStream} {more : List Address} (hhanded : c'.handed = c.handed)
    (hsent : c'.sent = c.sent ++ more) (hqueue : stream.queue = s.stream.queue ++ more)
    (hsound : c'.Sound) :
    Consistent initial { s with stream, conversions := s.conversions.set i c' } where
  filled := h.filled
  ordered := h.ordered
  shaped := h.shaped
  handed := h.handed.trans (perm_flatMap_set_of_eq hi hhanded).symm
  sent := by
    have hmore := (h.sent.append_right more).trans (perm_flatMap_set hi hsent).symm
    -- the queue grows at its end, in front of what was lost
    refine List.Perm.trans ?_ hmore
    simp only [hqueue, List.append_assoc]
    exact (List.perm_append_comm.append_left _).append_left _
  sound := by
    intro other hother
    rcases List.mem_or_eq_of_mem_set hother with hother | rfl
    · exact h.sound other hother
    · exact hsound

theorem finish (h : s.Consistent initial) (hi : s.conversions[i]? = some c)
    (hstage : c.stage = .storing) {result : Except IngestError Address}
    (hrun : c.converter.Run c.document c.handed result) :
    (s.finish i c result).Consistent initial := by
  have hsound := (h.sound c (List.mem_of_getElem? hi)).finish hstage hrun
  have hkept : (c.finish result).handed = c.handed ∧ (c.finish result).sent = c.sent ++ [] := by
    cases result <;> simp [Conversion.finish, Conversion.fail]
  exact h.set hi hkept.1 hkept.2 (List.append_nil _).symm hsound

theorem send (h : s.Consistent initial) (hi : s.conversions[i]? = some c) {root : Address}
    (hstage : c.stage = .sending root) : (s.send i c root).Consistent initial := by
  have hsound := h.sound c (List.mem_of_getElem? hi)
  unfold Ingestion.send
  rcases s.stream.send_cases (s.fires c.signal) root with ⟨cause, hsend⟩ | hsend | hsend
  · rw [hsend]
    exact h.set hi rfl (List.append_nil _).symm (List.append_nil _).symm (hsound.fail hstage cause)
  · rw [hsend]
    exact h.set hi rfl rfl rfl (hsound.publish hstage)
  · rw [hsend]
    exact h

theorem receive (h : s.Consistent initial) (signal : CancelSignal) :
    (s.receive signal).Consistent initial := by
  unfold Ingestion.receive
  rcases s.stream.receive_cases (s.cancellations.fires signal) with
    ⟨a, rest, hqueue, hreceive⟩ | ⟨poll, hpoll, hreceive⟩
  · rw [hreceive]
    refine h.of_same rfl rfl rfl ?_
    simp [hqueue]
  · rw [hreceive]
    split
    · next a _ heq => exact absurd (Prod.mk.inj heq).1 (hpoll a)
    · next heq =>
      rw [← (Prod.mk.inj heq).2]
      exact h

theorem drop (h : s.Consistent initial) : s.drop.Consistent initial := by
  refine h.of_same rfl rfl rfl ?_
  simp only [Ingestion.drop, AddressStream.drop, List.append_nil, List.append_assoc]
  exact List.perm_append_comm.append_left _

theorem step (h : s.Consistent initial) (hstep : Step s t) : t.Consistent initial := by
  cases hstep with
  | call converter document signal => exact h.call converter document signal
  | put hi hstage hrun => exact h.put hi hstage hrun
  | finish hi hstage hrun => exact h.finish hi hstage hrun
  | send hi hstage => exact h.send hi hstage
  | receive signal => exact h.receive signal
  | close => exact h.of_same rfl rfl rfl (.refl _)
  | drop => exact h.drop
  | addSender => exact h.of_same rfl rfl rfl (.refl _)
  | dropSender sender => exact h.of_same rfl rfl rfl (.refl _)
  | makeSignal => exact h.of_same rfl rfl rfl (.refl _)
  | cancel handle => exact h.of_same rfl rfl rfl (.refl _)

theorem steps (h : s.Consistent initial) (hsteps : Steps s t) : t.Consistent initial := by
  induction hsteps with
  | refl => exact h
  | tail _ hstep ih => exact ih.step hstep

end Consistent

end Ingestion

end ContentGraph
