import ContentGraph.Consumer
import ContentGraph.Proofs.Retrieval

/-! How far a consumer gets with the queue of a stream: up to the first object that cannot be fetched
or handled, or to the receive at which its signal fires. -/

namespace ContentGraph

theorem Table.get?_mapValues {α : Type _} {β : Type _} (f : α → β) (t : Table α) (key : String) :
    (t.mapValues f).get? key = (t.get? key).map f :=
  Entries.get?_mapValues f t.entries key

theorem Stateful.discard_apply {ε σ α : Type} (x : Stateful ε σ α) (s : σ) :
    (discard x : Stateful ε σ Unit) s = ((x s).1.map fun _ => (), (x s).2) := by
  show (match (x s).1 with
      | .ok a => _
      | .error e => _ : StateM σ (Except ε Unit)) (x s).2 = _
  rcases x s with ⟨_ | _, _⟩ <;> rfl

/-- An answer of a consumer who has indexed `n` objects before. -/
def Poll.more (n : Nat) : Poll (Except IngestError Nat) → Poll (Except IngestError Nat)
  | .ready (.ok indexed) => .ready (.ok (n + indexed))
  | answer => answer

theorem Poll.more_zero : Poll.more 0 = id := by
  funext answer
  unfold Poll.more
  split <;> simp

theorem Poll.more_more (n m : Nat) (answer : Poll (Except IngestError Nat)) :
    (answer.more n).more m = answer.more (m + n) := by
  rcases answer with (_ | _) | _ <;> simp [Poll.more, Nat.add_assoc]

section

variable {τ : Type} {fetch : Fetch} {index : Indexer τ} {fires : τ → Bool}
  {stream : AddressStream} {a : Address} {queue : List Address} {s : τ}

theorem runIndexer_of_fires (h : fires s = true) :
    runIndexer fetch index fires stream s = (.ready (.error .cancelled), stream, s) := by
  obtain ⟨capacity, queue, senders, madeSenders, closed, dropped⟩ := stream
  cases queue <;> simp [runIndexer, consume, h]

theorem runIndexer_of_empty (h : fires s = false) (hqueue : stream.queue = []) :
    runIndexer fetch index fires stream s =
      (if stream.isFinished then .ready (.ok 0) else .pending, stream, s) := by
  obtain ⟨capacity, queue, senders, madeSenders, closed, dropped⟩ := stream
  obtain rfl : queue = [] := hqueue
  simp only [runIndexer, consume, h, Bool.false_eq_true, if_false]
  split <;> rfl

theorem runIndexer_of_cons (h : fires s = false) (hqueue : stream.queue = a :: queue) :
    runIndexer fetch index fires stream s =
      match indexAddress fetch index a s with
      | (.error e, s') => (.ready (.error e), { stream with queue }, s')
      | (.ok (), s') =>
        (runIndexer fetch index fires { stream with queue } s').map (.more 1) id := by
  have hconsume : consume fetch index fires stream.queue s =
      match indexAddress fetch index a s with
      | (.error e, s') => ⟨0, some e, queue, s'⟩
      | (.ok (), s') =>
        let later := consume fetch index fires queue s'
        { later with indexed := later.indexed + 1 } := by
    rw [hqueue, consume, h]
    rfl
  rw [runIndexer, hconsume]
  rcases indexAddress fetch index a s with ⟨e | done, s'⟩
  · rfl
  · simp only [runIndexer]
    cases hfailure : (consume fetch index fires queue s').failure with
    | some e => rfl
    | none =>
      simp only [Prod.map]
      split <;> simp_all [Poll.more, Nat.add_comm]

/-- What follows on a receive. -/
def afterReceive (fetch : Fetch) (index : Indexer τ) (fires : τ → Bool) (rest : AddressStream)
    (s : τ) : Poll (Except IngestError (Option Address)) →
      Poll (Except IngestError Nat) × AddressStream × τ
  | .pending => (.pending, rest, s)
  | .ready (.error e) => (.ready (.error e), rest, s)
  | .ready (.ok none) => (.ready (.ok 0), rest, s)
  | .ready (.ok (some a)) =>
    match indexAddress fetch index a s with
    | (.error e, s') => (.ready (.error e), rest, s')
    | (.ok (), s') => (runIndexer fetch index fires rest s').map (.more 1) id

/-- The consumer takes from the queue as anyone does who receives from the stream. -/
theorem runIndexer_eq_receive (stream : AddressStream) (s : τ) :
    runIndexer fetch index fires stream s =
      afterReceive fetch index fires (stream.receive (fires s)).2 s
        (stream.receive (fires s)).1 := by
  by_cases h : fires s = true
  · rw [runIndexer_of_fires h, AddressStream.receive, if_pos h]
    rfl
  · rw [AddressStream.receive, if_neg h]
    cases hqueue : stream.queue with
    | nil =>
      rw [runIndexer_of_empty (by simpa using h) hqueue]
      by_cases hfinished : stream.isFinished = true <;> simp [hfinished, afterReceive]
    | cons a queue => exact runIndexer_of_cons (by simpa using h) hqueue

end

namespace Dispatch

variable {τ : Type}

/-- The graph and the shape that a handler is called with for an address. None is called unless the
object can be fetched, has a type that is registered, and has a shape. -/
def call? (d : Dispatch τ) (fetch : Fetch) (a : Address) : Option (Graph × Shape) :=
  match fetch a with
  | .error _ => none
  | .ok o =>
    match d.handlers.get? o.typeName, Shape.ofObject o with
    | some _, .ok shape => some ({ fetch, root := o, config := d.graph }, shape)
    | _, _ => none

def noting (handler : Handler τ) : Handler (τ × List (Graph × Shape)) := fun graph shape s =>
  ((handler graph shape s.1).1, (handler graph shape s.1).2, s.2 ++ [(graph, shape)])

/-- The same handlers, which note beside their state what they are called with. -/
def recording (d : Dispatch τ) : Dispatch (τ × List (Graph × Shape)) :=
  ⟨d.handlers.mapValues noting, d.config, d.graph⟩

theorem get?_recording (d : Dispatch τ) (type : String) :
    d.recording.handlers.get? type = (d.handlers.get? type).map noting :=
  Table.get?_mapValues noting d.handlers type

/-- Indexes an object, and what others do meanwhile follows. They may fire the consumer's signal. -/
def attended (d : Dispatch τ) (fetch : Fetch) (meanwhile : τ → τ) : Indexer τ := fun o => do
  d.indexer fetch o
  modify meanwhile

/-- Nobody else does anything. -/
theorem attended_id (d : Dispatch τ) (fetch : Fetch) : d.attended fetch id = d.indexer fetch := by
  funext o s
  cases hindex : d.indexer fetch o s with
  | mk result s' =>
    cases result with
    | ok done => exact Stateful.bind_of_ok hindex
    | error e => exact Stateful.bind_of_error hindex

/-- What becomes of an address, and of the state of the handlers. -/
inductive Handles (d : Dispatch τ) (fetch : Fetch) (a : Address) (s : τ) :
    Except IngestError Unit → τ → Prop
  | unfetched {cause : StoreError} (hfetch : fetch a = .error cause) :
    Handles d fetch a s (.error (.store cause)) s
  | skipped {o : Object} (hfetch : fetch a = .ok o) (hnone : d.handlers.get? o.typeName = none)
    (hskips : d.config.skipUnknown = true) : Handles d fetch a s (.ok ()) s
  | unhandled {o : Object} (hfetch : fetch a = .ok o) (hnone : d.handlers.get? o.typeName = none)
    (hskips : d.config.skipUnknown = false) :
    Handles d fetch a s (.error (.unhandledType o.typeName o.address)) s
  | unshaped {o : Object} {handler : Handler τ} {cause : EncodeError} (hfetch : fetch a = .ok o)
    (hsome : d.handlers.get? o.typeName = some handler) (hshape : Shape.ofObject o = .error cause) :
    Handles d fetch a s (.error (.encode cause)) s
  | called {o : Object} {handler : Handler τ} {shape : Shape} {result : Except IngestError Unit}
    {s' : τ} (hfetch : fetch a = .ok o) (hsome : d.handlers.get? o.typeName = some handler)
    (hshape : Shape.ofObject o = .ok shape)
    (hcall : handler { fetch, root := o, config := d.graph } shape s = (result, s')) :
    Handles d fetch a s result s'

/-- Addresses are worked off without a failure, and the signal does not fire before any of them. -/
inductive Passes (d : Dispatch τ) (fetch : Fetch) (meanwhile : τ → τ) (fires : τ → Bool) :
    List Address → τ → τ → Prop
  | nil {s : τ} : Passes d fetch meanwhile fires [] s s
  | cons {a : Address} {later : List Address} {s s' last : τ} (hquiet : fires s = false)
    (hhandles : d.Handles fetch a s (.ok ()) s')
    (hlater : Passes d fetch meanwhile fires later (meanwhile s') last) :
    Passes d fetch meanwhile fires (a :: later) s last

/-- How it ends, with what was taken off the queue and what was left there. -/
inductive Ends (d : Dispatch τ) (fetch : Fetch) (meanwhile : τ → τ) (fires : τ → Bool) (s : τ) :
    List Address → List Address → Except IngestError Nat → τ → Prop
  | drained {taken : List Address} {last : τ}
    (hpasses : d.Passes fetch meanwhile fires taken s last) (hquiet : fires last = false) :
    Ends d fetch meanwhile fires s taken [] (.ok taken.length) last
  | failed {front left : List Address} {a : Address} {e : IngestError} {s' last : τ}
    (hpasses : d.Passes fetch meanwhile fires front s s') (hquiet : fires s' = false)
    (hfails : d.Handles fetch a s' (.error e) last) :
    Ends d fetch meanwhile fires s (front ++ [a]) left (.error e) last
  | cancelled {taken left : List Address} {last : τ}
    (hpasses : d.Passes fetch meanwhile fires taken s last) (hfires : fires last = true) :
    Ends d fetch meanwhile fires s taken left (.error .cancelled) last

section

variable {d : Dispatch τ} {fetch : Fetch} {meanwhile : τ → τ} {fires : τ → Bool} {a : Address}
  {s s' last : τ} {result : Except IngestError Unit}

theorem exists_handles (d : Dispatch τ) (fetch : Fetch) (a : Address) (s : τ) :
    ∃ result s', d.Handles fetch a s result s' := by
  cases hfetch : fetch a with
  | error cause => exact ⟨_, _, .unfetched hfetch⟩
  | ok o =>
    cases hfound : d.handlers.get? o.typeName with
    | none =>
      cases hskips : d.config.skipUnknown with
      | true => exact ⟨_, _, .skipped hfetch hfound hskips⟩
      | false => exact ⟨_, _, .unhandled hfetch hfound hskips⟩
    | some handler =>
      cases hshape : Shape.ofObject o with
      | error cause => exact ⟨_, _, .unshaped hfetch hfound hshape⟩
      | ok shape => exact ⟨_, _, .called hfetch hfound hshape rfl⟩

theorem Handles.indexAddress_eq (h : d.Handles fetch a s result s') :
    indexAddress fetch (d.indexer fetch) a s = (result, s') := by
  cases h with
  | unfetched hfetch => rw [indexAddress, hfetch]; rfl
  | skipped hfetch hnone hskips =>
    rw [indexAddress, hfetch]
    simp only [Dispatch.indexer, dispatch, hnone, hskips]
    rfl
  | unhandled hfetch hnone hskips =>
    rw [indexAddress, hfetch]
    simp only [Dispatch.indexer, dispatch, hnone, hskips]
    rfl
  | unshaped hfetch hsome hshape =>
    rw [indexAddress, hfetch]
    simp only [Dispatch.indexer, dispatch, hsome, hshape]
    rfl
  | called hfetch hsome hshape hcall =>
    rw [indexAddress, hfetch]
    simp only [Dispatch.indexer, dispatch, hsome, hshape, Stateful.discard_apply]
    cases result with
    | ok done => rw [Stateful.bind_of_ok hcall]; rfl
    | error e => rw [Stateful.bind_of_error hcall]; rfl

theorem Handles.attended_of_ok (h : d.Handles fetch a s (.ok ()) s') :
    indexAddress fetch (d.attended fetch meanwhile) a s = (.ok (), meanwhile s') := by
  have hindex := h.indexAddress_eq
  cases hfetch : fetch a with
  | error cause =>
    rw [indexAddress, hfetch] at hindex
    cases hindex
  | ok o =>
    rw [indexAddress, hfetch] at hindex ⊢
    exact Stateful.bind_of_ok hindex

theorem Handles.attended_of_error {e : IngestError} (h : d.Handles fetch a s (.error e) s') :
    indexAddress fetch (d.attended fetch meanwhile) a s = (.error e, s') := by
  have hindex := h.indexAddress_eq
  cases hfetch : fetch a with
  | error cause =>
    rw [indexAddress, hfetch] at hindex ⊢
    exact hindex
  | ok o =>
    rw [indexAddress, hfetch] at hindex ⊢
    exact Stateful.bind_of_error hindex

/-- The calls are noted, and nothing else is different. -/
theorem Handles.recording (h : d.Handles fetch a s result s') (calls : List (Graph × Shape)) :
    d.recording.Handles fetch a (s, calls) result (s', calls ++ (d.call? fetch a).toList) := by
  cases h with
  | unfetched hfetch =>
    simp only [call?, hfetch, Option.toList_none, List.append_nil]
    exact .unfetched hfetch
  | skipped hfetch hnone hskips =>
    simp only [call?, hfetch, hnone, Option.toList_none, List.append_nil]
    exact .skipped hfetch (by rw [get?_recording, hnone]; rfl) hskips
  | unhandled hfetch hnone hskips =>
    simp only [call?, hfetch, hnone, Option.toList_none, List.append_nil]
    exact .unhandled hfetch (by rw [get?_recording, hnone]; rfl) hskips
  | @unshaped _ handler _ hfetch hsome hshape =>
    simp only [call?, hfetch, hsome, hshape, Option.toList_none, List.append_nil]
    exact .unshaped hfetch (by rw [get?_recording, hsome]; rfl) hshape
  | called hfetch hsome hshape hcall =>
    simp only [call?, hfetch, hsome, hshape, Option.toList_some]
    refine .called hfetch (by rw [get?_recording, hsome]; rfl) hshape ?_
    have hgraph : d.recording.graph = d.graph := rfl
    simp only [noting, hgraph, hcall]

theorem Passes.recording {front : List Address} (h : d.Passes fetch meanwhile fires front s last)
    (calls : List (Graph × Shape)) :
    d.recording.Passes fetch (Prod.map meanwhile id) (fires ∘ Prod.fst) front (s, calls)
      (last, calls ++ front.filterMap (d.call? fetch)) := by
  induction h generalizing calls with
  | nil => simpa using .nil
  | @cons a later s s' last hquiet hhandles _ ih =>
    have hlater := ih (calls ++ (d.call? fetch a).toList)
    have hcalls : calls ++ (a :: later).filterMap (d.call? fetch) =
        calls ++ (d.call? fetch a).toList ++ later.filterMap (d.call? fetch) := by
      cases hcall : d.call? fetch a <;> simp [hcall]
    rw [hcalls]
    exact .cons hquiet (hhandles.recording calls) hlater

theorem Ends.recording {taken left : List Address} {outcome : Except IngestError Nat}
    (h : d.Ends fetch meanwhile fires s taken left outcome last) :
    d.recording.Ends fetch (Prod.map meanwhile id) (fires ∘ Prod.fst) (s, []) taken left outcome
      (last, taken.filterMap (d.call? fetch)) := by
  cases h with
  | drained hpasses hquiet => exact .drained (hpasses.recording []) hquiet
  | @failed front left a e s' last hpasses hquiet hfails =>
    have hcalls : (front ++ [a]).filterMap (d.call? fetch) =
        [] ++ front.filterMap (d.call? fetch) ++ (d.call? fetch a).toList := by
      cases hcall : d.call? fetch a <;> simp [hcall]
    rw [hcalls]
    exact .failed (hpasses.recording []) hquiet (hfails.recording _)
  | cancelled hpasses hfires => exact .cancelled (hpasses.recording []) hfires

theorem Passes.runIndexer_eq {front left : List Address}
    (h : d.Passes fetch meanwhile fires front s last) {stream : AddressStream}
    (hqueue : stream.queue = front ++ left) :
    runIndexer fetch (d.attended fetch meanwhile) fires stream s =
      (runIndexer fetch (d.attended fetch meanwhile) fires { stream with queue := left } last).map
        (.more front.length) id := by
  induction h generalizing stream with
  | nil =>
    have hstream : { stream with queue := left } = stream := by
      rw [← List.nil_append left, ← hqueue]
    rw [hstream, List.length_nil, Poll.more_zero]
    rfl
  | @cons a later s s' last hquiet hhandles _ ih =>
    let rest : AddressStream := { stream with queue := later ++ left }
    have hrest : rest.queue = later ++ left := rfl
    have hlater := ih hrest
    rw [runIndexer_of_cons hquiet hqueue, hhandles.attended_of_ok]
    show (runIndexer fetch _ fires rest _).map _ _ = _
    rw [hlater]
    simp only [rest, Prod.map, Poll.more_more, id, List.length_cons, Nat.add_comm]

/-- A stream without senders is worked off, and the consumer waits for nothing. -/
theorem Ends.runIndexer_eq {taken left : List Address} {outcome : Except IngestError Nat}
    (h : d.Ends fetch meanwhile fires s taken left outcome last) {stream : AddressStream}
    (hqueue : stream.queue = taken ++ left) (hsenders : stream.senders = []) :
    runIndexer fetch (d.attended fetch meanwhile) fires stream s =
      (.ready outcome, { stream with queue := left }, last) := by
  cases h with
  | drained hpasses hquiet =>
    have hfinished : AddressStream.isFinished { stream with queue := [] } = true := by
      simp [AddressStream.isFinished, hsenders]
    rw [hpasses.runIndexer_eq hqueue, runIndexer_of_empty hquiet rfl, if_pos hfinished]
    rfl
  | @failed front left a e s' last hpasses hquiet hfails =>
    rw [List.append_assoc] at hqueue
    rw [hpasses.runIndexer_eq hqueue, runIndexer_of_cons hquiet rfl, hfails.attended_of_error]
    rfl
  | cancelled hpasses hfires =>
    rw [hpasses.runIndexer_eq hqueue, runIndexer_of_fires hfires]
    rfl

theorem Ends.cons {taken left : List Address} {outcome : Except IngestError Nat}
    (h : d.Ends fetch meanwhile fires (meanwhile s') taken left outcome last)
    (hquiet : fires s = false) (hhandles : d.Handles fetch a s (.ok ()) s') :
    ∃ outcome, d.Ends fetch meanwhile fires s (a :: taken) left outcome last := by
  cases h with
  | drained hpasses hlast => exact ⟨_, .drained (.cons hquiet hhandles hpasses) hlast⟩
  | failed hpasses hlast hfails => exact ⟨_, .failed (.cons hquiet hhandles hpasses) hlast hfails⟩
  | cancelled hpasses hfires => exact ⟨_, .cancelled (.cons hquiet hhandles hpasses) hfires⟩

theorem exists_ends (d : Dispatch τ) (fetch : Fetch) (meanwhile : τ → τ) (fires : τ → Bool)
    (queue : List Address) (s : τ) : ∃ taken left outcome last,
      queue = taken ++ left ∧ d.Ends fetch meanwhile fires s taken left outcome last := by
  induction queue generalizing s with
  | nil =>
    cases hfires : fires s with
    | true => exact ⟨[], [], _, s, rfl, .cancelled .nil hfires⟩
    | false => exact ⟨[], [], _, s, rfl, .drained .nil hfires⟩
  | cons a rest ih =>
    cases hfires : fires s with
    | true => exact ⟨[], a :: rest, _, s, rfl, .cancelled .nil hfires⟩
    | false =>
      obtain ⟨result, s', hhandles⟩ := d.exists_handles fetch a s
      cases result with
      | error e => exact ⟨[] ++ [a], rest, _, s', rfl, .failed .nil hfires hhandles⟩
      | ok done =>
        obtain ⟨taken, left, outcome, last, rfl, hends⟩ := ih (meanwhile s')
        obtain ⟨outcome, hends⟩ := hends.cons hfires hhandles
        exact ⟨a :: taken, left, outcome, last, rfl, hends⟩

theorem Handles.call?_isSome (h : d.Handles fetch a s (.ok ()) s') :
    ∃ o, fetch a = .ok o ∧ (d.call? fetch a).isSome = d.handles o.typeName := by
  cases h with
  | @skipped o hfetch hnone =>
    exact ⟨o, hfetch, by simp [call?, handles, Table.contains, hfetch, hnone]⟩
  | @called o _ _ _ _ hfetch hsome hshape =>
    exact ⟨o, hfetch, by simp [call?, handles, Table.contains, hfetch, hsome, hshape]⟩

theorem Passes.call?_isSome {front : List Address}
    (h : d.Passes fetch meanwhile fires front s last) :
    ∀ a ∈ front, ∃ o, fetch a = .ok o ∧ (d.call? fetch a).isSome = d.handles o.typeName := by
  induction h with
  | nil => exact List.forall_mem_nil _
  | cons _ hhandles _ ih => exact List.forall_mem_cons.mpr ⟨hhandles.call?_isSome, ih⟩

end

/-- A stream that nobody sends to any more is worked off to its end, to the first address that fails,
or to the receive at which the signal fires, whatever others do between the objects. A handler is
called once for each address taken off whose object has a handler and a shape, in their order. -/
theorem consumer_indexes_prefix (d : Dispatch τ) (fetch : Fetch) (meanwhile : τ → τ)
    (fires : τ → Bool) (stream : AddressStream) (h : stream.senders = []) (s : τ) :
    (∃ taken left outcome last, stream.queue = taken ++ left ∧
      d.Ends fetch meanwhile fires s taken left outcome last ∧
      runIndexer fetch (d.attended fetch meanwhile) fires stream s =
        (.ready outcome, { stream with queue := left }, last) ∧
      runIndexer fetch (d.recording.attended fetch (Prod.map meanwhile id)) (fires ∘ Prod.fst)
          stream (s, []) =
        (.ready outcome, { stream with queue := left }, last, taken.filterMap (d.call? fetch))) ∧
    ∀ front last, d.Passes fetch meanwhile fires front s last →
      ∀ a ∈ front, ∃ o, fetch a = .ok o ∧ (d.call? fetch a).isSome = d.handles o.typeName := by
  constructor
  · obtain ⟨taken, left, outcome, last, hqueue, hends⟩ :=
      d.exists_ends fetch meanwhile fires stream.queue s
    exact ⟨taken, left, outcome, last, hqueue, hends, hends.runIndexer_eq hqueue h,
      hends.recording.runIndexer_eq hqueue h⟩
  · exact fun front last hpasses => hpasses.call?_isSome

open Encoder (smallLeafObject)

/-- Counts its calls. -/
def counting : Dispatch Nat :=
  ({} : Dispatch Nat).on "Title" fun _ _ => modify (· + 1)

def leaves : Fetch := fun _ => .ok smallLeafObject

def threeLeaves : AddressStream :=
  { (AddressStream.make 3).dropSenders with queue := List.replicate 3 smallLeafObject.address }

/-- The signal fires at the second call, and the third address stays in the queue. -/
theorem consumer_indexes_prefix_of_threeLeaves :
    threeLeaves.senders = [] ∧ ∃ calls : List (Graph × Shape), calls.length = 2 ∧
      runIndexer leaves (counting.indexer leaves) (2 ≤ ·) threeLeaves 0 =
        (.ready (.error .cancelled), { threeLeaves with queue := [smallLeafObject.address] }, 2) ∧
      runIndexer leaves (counting.recording.indexer leaves) (fun s => 2 ≤ s.1) threeLeaves (0, []) =
        (.ready (.error .cancelled), { threeLeaves with queue := [smallLeafObject.address] }, 2,
          calls) := by
  refine ⟨rfl, ?_⟩
  obtain ⟨⟨taken, left, outcome, last, hqueue, -, hrun, hrecorded⟩, -⟩ :=
    consumer_indexes_prefix counting leaves id (2 ≤ ·) threeLeaves rfl 0
  have hcancelled : runIndexer leaves (counting.attended leaves id) (2 ≤ ·) threeLeaves 0 =
      (.ready (.error .cancelled), { threeLeaves with queue := [smallLeafObject.address] }, 2) := by
    rfl
  have hsame := hcancelled.symm.trans hrun
  simp only [Prod.mk.injEq, Poll.ready.injEq, AddressStream.mk.injEq] at hsame
  obtain ⟨rfl, ⟨-, rfl, -⟩, rfl⟩ := hsame
  have hsplit : List.replicate 2 smallLeafObject.address ++ [smallLeafObject.address] =
      taken ++ [smallLeafObject.address] := hqueue
  have htaken := List.append_cancel_right hsplit
  rw [attended_id] at hcancelled
  rw [Prod.map_id, attended_id, ← htaken] at hrecorded
  exact ⟨_, rfl, hcancelled, hrecorded⟩

end Dispatch

end ContentGraph
