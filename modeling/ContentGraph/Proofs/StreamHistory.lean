import ContentGraph.AddressStream
import ContentGraph.Cancellation
import Mathlib.Data.List.Nodup

/-! What goes through a stream. Sends and receives, the making and dropping of senders, closing and
cancelling may follow each other in any order: every address that was sent is received once and in its
turn, or still queued, and who is cancelled neither adds to the queue nor takes from it. -/

namespace ContentGraph

/-- A stream, and the handles of those who use it. -/
structure Channel where
  stream : AddressStream
  cancellations : Cancellations

/-- A send or a receive stands for one poll of it. A call that has to wait is polled again, and a poll
without an answer changes nothing, so a call comes down to its last poll. -/
inductive ChannelEvent
  | sent (signal : CancelSignal) (a : Address) (answer : Poll (Except IngestError Unit))
  | received (signal : CancelSignal) (answer : Poll (Except IngestError (Option Address)))
  | closed
  | senderMade (sender : Nat)
  | senderDropped (sender : Nat)
  | handleMade (handle : CancelHandle)
  | cancelled (handle : CancelHandle)

namespace ChannelEvent

/-- The address whose send has succeeded. -/
def sent? : ChannelEvent → Option Address
  | .sent _ a (.ready (.ok ())) => some a
  | _ => none

def received? : ChannelEvent → Option Address
  | .received _ (.ready (.ok (some a))) => some a
  | _ => none

theorem sent?_of_ne {signal : CancelSignal} {a : Address} {answer : Poll (Except IngestError Unit)}
    (h : answer ≠ .ready (.ok ())) : (sent signal a answer).sent? = none := by
  unfold sent?
  split
  · next heq =>
    cases heq
    exact absurd rfl h
  · rfl

theorem received?_of_ne {signal : CancelSignal}
    {answer : Poll (Except IngestError (Option Address))}
    (h : ∀ a, answer ≠ .ready (.ok (some a))) : (received signal answer).received? = none := by
  unfold received?
  split
  · next a heq =>
    cases heq
    exact absurd rfl (h a)
  · rfl

end ChannelEvent

namespace Channel

def make (capacity : Nat) : Channel :=
  ⟨.make capacity, .empty⟩

def send (s : Channel) (signal : CancelSignal) (a : Address) :
    Poll (Except IngestError Unit) × Channel :=
  (s.stream.send (s.cancellations.fires signal) a).map id fun stream => { s with stream }

def receive (s : Channel) (signal : CancelSignal) :
    Poll (Except IngestError (Option Address)) × Channel :=
  (s.stream.receive (s.cancellations.fires signal)).map id fun stream => { s with stream }

/-- All that can happen as long as the stream is not dropped. -/
inductive Step (s : Channel) : ChannelEvent → Channel → Prop
  | send {sender : Nat} (hsender : s.stream.hasSender sender = true) (signal : CancelSignal)
    (a : Address) : Step s (.sent signal a (s.send signal a).1) (s.send signal a).2
  | receive (signal : CancelSignal) :
    Step s (.received signal (s.receive signal).1) (s.receive signal).2
  | close : Step s .closed { s with stream := s.stream.close }
  | makeSender {sender : Nat} (hsender : s.stream.hasSender sender = true) :
    Step s (.senderMade s.stream.addSender.1) { s with stream := s.stream.addSender.2 }
  | dropSender {sender : Nat} (hsender : s.stream.hasSender sender = true) :
    Step s (.senderDropped sender) { s with stream := s.stream.dropSender sender }
  | makeHandle : Step s (.handleMade s.cancellations.create.1)
    { s with cancellations := s.cancellations.create.2 }
  | cancel {handle : CancelHandle} (hmade : handle.cell < s.cancellations.cells) :
    Step s (.cancelled handle) { s with cancellations := s.cancellations.cancel handle }

inductive History (capacity : Nat) : List ChannelEvent → Channel → Prop
  | start : History capacity [] (make capacity)
  | step {events : List ChannelEvent} {e : ChannelEvent} {s t : Channel}
    (h : History capacity events s) (hstep : Step s e t) : History capacity (events ++ [e]) t

def sentIn (events : List ChannelEvent) : List Address :=
  events.filterMap ChannelEvent.sent?

def receivedIn (events : List ChannelEvent) : List Address :=
  events.filterMap ChannelEvent.received?

theorem sentIn_concat (events : List ChannelEvent) (e : ChannelEvent) :
    sentIn (events ++ [e]) = sentIn events ++ e.sent?.toList := by
  rw [sentIn, List.filterMap_append]
  cases hsent : e.sent? <;> simp [sentIn, hsent]

theorem receivedIn_concat (events : List ChannelEvent) (e : ChannelEvent) :
    receivedIn (events ++ [e]) = receivedIn events ++ e.received?.toList := by
  rw [receivedIn, List.filterMap_append]
  cases hreceived : e.received? <;> simp [receivedIn, hreceived]

/-- The sender that the channel was made with, or a clone. -/
def MadeIn (events : List ChannelEvent) (sender : Nat) : Prop :=
  sender = 0 ∨ .senderMade sender ∈ events

section

variable {s : Channel} {signal : CancelSignal} {a : Address}

theorem send_of_fires (h : s.cancellations.fires signal = true) :
    s.send signal a = (.ready (.error .cancelled), s) := by
  rw [send, h]
  rfl

theorem receive_of_fires (h : s.cancellations.fires signal = true) :
    s.receive signal = (.ready (.error .cancelled), s) := by
  rw [receive, h]
  rfl

theorem send_cases (s : Channel) (signal : CancelSignal) (a : Address) :
    ((s.send signal a).1 ≠ .ready (.ok ()) ∧ (s.send signal a).2 = s) ∨
      s.stream.queue.length < s.stream.capacity ∧ s.send signal a =
        (.ready (.ok ()), { s with stream := { s.stream with queue := s.stream.queue ++ [a] } }) := by
  by_cases hfires : s.cancellations.fires signal = true
  · rw [send_of_fires hfires]
    exact .inl ⟨by simp, rfl⟩
  · rw [send, AddressStream.send, if_neg hfires]
    by_cases hclosed : s.stream.closed = true
    · rw [if_pos hclosed]
      exact .inl ⟨by simp, rfl⟩
    · rw [if_neg hclosed]
      by_cases hroom : s.stream.queue.length < s.stream.capacity
      · rw [if_pos hroom]
        exact .inr ⟨hroom, rfl⟩
      · rw [if_neg hroom]
        exact .inl ⟨by simp, rfl⟩

theorem receive_cases (s : Channel) (signal : CancelSignal) :
    ((∀ a, (s.receive signal).1 ≠ .ready (.ok (some a))) ∧ (s.receive signal).2 = s) ∨
      ∃ a rest, s.stream.queue = a :: rest ∧ s.receive signal =
        (.ready (.ok (some a)), { s with stream := { s.stream with queue := rest } }) := by
  by_cases hfires : s.cancellations.fires signal = true
  · rw [receive_of_fires hfires]
    exact .inl ⟨by simp, rfl⟩
  · rw [receive, AddressStream.receive, if_neg hfires]
    cases hqueue : s.stream.queue with
    | cons a rest => exact .inr ⟨a, rest, rfl, rfl⟩
    | nil =>
      by_cases hfinished : s.stream.isFinished = true
      · dsimp only
        rw [if_pos hfinished]
        exact .inl ⟨by simp, rfl⟩
      · dsimp only
        rw [if_neg hfinished]
        exact .inl ⟨by simp, rfl⟩

/-- The end of the stream is answered only when nothing is queued or will be. -/
theorem isFinished_of_receive (h : (s.receive signal).1 = .ready (.ok none)) :
    s.stream.isFinished = true := by
  by_cases hfires : s.cancellations.fires signal = true
  · rw [receive_of_fires hfires] at h
    cases h
  · rw [receive, AddressStream.receive, if_neg hfires] at h
    split at h
    · cases h
    · by_cases hfinished : s.stream.isFinished = true
      · exact hfinished
      · rw [if_neg hfinished] at h
        cases h

end

theorem exists_queue_send (s : Channel) (signal : CancelSignal) (a : Address) :
    ∃ queue, (s.send signal a).2 = { s with stream := { s.stream with queue } } := by
  rcases s.send_cases signal a with ⟨-, hsame⟩ | ⟨-, hsent⟩
  · exact ⟨s.stream.queue, hsame⟩
  · exact ⟨_, congrArg Prod.snd hsent⟩

theorem exists_queue_receive (s : Channel) (signal : CancelSignal) :
    ∃ queue, (s.receive signal).2 = { s with stream := { s.stream with queue } } := by
  rcases s.receive_cases signal with ⟨-, hsame⟩ | ⟨a, rest, -, hreceived⟩
  · exact ⟨s.stream.queue, hsame⟩
  · exact ⟨rest, congrArg Prod.snd hreceived⟩

/-- What was sent is what was received, and behind it what is queued. -/
structure Accounts (capacity : Nat) (events : List ChannelEvent) (s : Channel) : Prop where
  order : receivedIn events ++ s.stream.queue = sentIn events
  bounded : s.stream.queue.length ≤ capacity
  sameCapacity : s.stream.capacity = capacity

namespace Accounts

variable {capacity : Nat} {events : List ChannelEvent} {s t : Channel} {e : ChannelEvent}

theorem start (capacity : Nat) : Accounts capacity [] (make capacity) :=
  ⟨rfl, Nat.zero_le capacity, rfl⟩

/-- Nothing went into the queue or out of it. -/
theorem of_same (h : Accounts capacity events s) (hsent : e.sent? = none)
    (hreceived : e.received? = none) (hqueue : t.stream.queue = s.stream.queue)
    (hcapacity : t.stream.capacity = s.stream.capacity) : Accounts capacity (events ++ [e]) t where
  order := by simpa [sentIn_concat, receivedIn_concat, hsent, hreceived, hqueue] using h.order
  bounded := hqueue ▸ h.bounded
  sameCapacity := hcapacity.trans h.sameCapacity

theorem send (h : Accounts capacity events s) (signal : CancelSignal) (a : Address) :
    Accounts capacity (events ++ [.sent signal a (s.send signal a).1]) (s.send signal a).2 := by
  rcases s.send_cases signal a with ⟨hanswer, hsame⟩ | ⟨hroom, hsent⟩
  · rw [hsame]
    exact h.of_same (ChannelEvent.sent?_of_ne hanswer) rfl rfl rfl
  · rw [hsent]
    refine ⟨?_, ?_, h.sameCapacity⟩
    · rw [sentIn_concat, receivedIn_concat, ← h.order]
      simp [ChannelEvent.sent?, ChannelEvent.received?]
    · rw [h.sameCapacity] at hroom
      simpa using Nat.succ_le_of_lt hroom

theorem receive (h : Accounts capacity events s) (signal : CancelSignal) :
    Accounts capacity (events ++ [.received signal (s.receive signal).1]) (s.receive signal).2 := by
  rcases s.receive_cases signal with ⟨hanswer, hsame⟩ | ⟨a, rest, hqueue, hreceived⟩
  · rw [hsame]
    exact h.of_same rfl (ChannelEvent.received?_of_ne hanswer) rfl rfl
  · have horder := h.order
    have hbounded := h.bounded
    rw [hqueue] at horder hbounded
    rw [hreceived]
    refine ⟨?_, Nat.le_of_succ_le hbounded, h.sameCapacity⟩
    rw [sentIn_concat, receivedIn_concat, ← horder, List.append_assoc]
    exact (List.append_nil _).symm

theorem step (h : Accounts capacity events s) (hstep : Step s e t) :
    Accounts capacity (events ++ [e]) t := by
  cases hstep with
  | send _ signal a => exact h.send signal a
  | receive signal => exact h.receive signal
  | close => exact h.of_same rfl rfl rfl rfl
  | makeSender _ => exact h.of_same rfl rfl rfl rfl
  | dropSender _ => exact h.of_same rfl rfl rfl rfl
  | makeHandle => exact h.of_same rfl rfl rfl rfl
  | cancel _ => exact h.of_same rfl rfl rfl rfl

end Accounts

/-- The senders that are left are those that were made and not dropped. -/
structure Senders (events : List ChannelEvent) (stream : AddressStream) : Prop where
  left : ∀ n, n ∈ stream.senders ↔ MadeIn events n ∧ .senderDropped n ∉ events
  made : ∀ n, MadeIn events n ↔ n < stream.madeSenders
  dropped : ∀ n, .senderDropped n ∈ events → MadeIn events n
  once : stream.senders.Nodup

namespace Senders

variable {events : List ChannelEvent} {stream : AddressStream} {s t : Channel} {e : ChannelEvent}

theorem start (capacity : Nat) : Senders [] (.make capacity) where
  left n := by simp [AddressStream.make, MadeIn]
  made n := by simp [AddressStream.make, MadeIn]
  dropped n h := absurd h List.not_mem_nil
  once := List.nodup_singleton 0

theorem of_same {other : AddressStream} (h : Senders events stream)
    (hmade : ∀ n, e ≠ .senderMade n) (hdropped : ∀ n, e ≠ .senderDropped n)
    (hsenders : other.senders = stream.senders)
    (hcount : other.madeSenders = stream.madeSenders) : Senders (events ++ [e]) other := by
  have hmadeIn (n : Nat) : MadeIn (events ++ [e]) n ↔ MadeIn events n := by
    simp [MadeIn, (hmade n).symm]
  have hdroppedIn (n : Nat) : .senderDropped n ∈ events ++ [e] ↔ .senderDropped n ∈ events := by
    simp [(hdropped n).symm]
  refine ⟨fun n => ?_, fun n => ?_, fun n => ?_, hsenders ▸ h.once⟩
  · rw [hsenders, hmadeIn, hdroppedIn]
    exact h.left n
  · rw [hcount, hmadeIn]
    exact h.made n
  · rw [hmadeIn, hdroppedIn]
    exact h.dropped n

/-- The number of a new sender has been given to none before. -/
theorem add (h : Senders events stream) :
    Senders (events ++ [.senderMade stream.addSender.1]) stream.addSender.2 := by
  have hfresh : ¬MadeIn events stream.madeSenders := by simp [h.made]
  have hmadeIn (n : Nat) : MadeIn (events ++ [.senderMade stream.madeSenders]) n ↔
      MadeIn events n ∨ n = stream.madeSenders := by
    simp [MadeIn, or_assoc]
  have hdroppedIn (n : Nat) :
      .senderDropped n ∈ events ++ [.senderMade stream.madeSenders] ↔
        .senderDropped n ∈ events := by
    simp
  refine ⟨fun n => ?_, fun n => ?_, fun n hn => ?_, ?_⟩
  · rw [AddressStream.addSender, hmadeIn, hdroppedIn, List.mem_append, List.mem_singleton, h.left]
    by_cases hn : n = stream.madeSenders
    · have hkept : .senderDropped stream.madeSenders ∉ events := fun hdropped =>
        hfresh (h.dropped _ hdropped)
      simp [hn, hkept]
    · simp [hn]
  · rw [AddressStream.addSender, hmadeIn, h.made]
    exact Nat.lt_succ_iff_lt_or_eq.symm
  · exact (hmadeIn n).mpr (.inl (h.dropped n ((hdroppedIn n).mp hn)))
  · refine List.nodup_append.mpr ⟨h.once, List.nodup_singleton _, ?_⟩
    rintro a ha b hb rfl
    rw [List.mem_singleton.mp hb] at ha
    exact hfresh ((h.left _).mp ha).1

theorem drop (h : Senders events stream) {n : Nat} (hn : n ∈ stream.senders) :
    Senders (events ++ [.senderDropped n]) (stream.dropSender n) := by
  have hmadeIn (m : Nat) : MadeIn (events ++ [.senderDropped n]) m ↔ MadeIn events m := by
    simp [MadeIn]
  have hdroppedIn (m : Nat) : .senderDropped m ∈ events ++ [.senderDropped n] ↔
      .senderDropped m ∈ events ∨ m = n := by
    simp
  refine ⟨fun m => ?_, fun m => ?_, fun m hm => ?_, h.once.erase n⟩
  · rw [AddressStream.dropSender, hmadeIn, hdroppedIn, h.once.mem_erase_iff, h.left, not_or]
    constructor
    · rintro ⟨hne, hmade, hkept⟩
      exact ⟨hmade, hkept, hne⟩
    · rintro ⟨hmade, hkept, hne⟩
      exact ⟨hne, hmade, hkept⟩
  · rw [AddressStream.dropSender, hmadeIn]
    exact h.made m
  · rw [hmadeIn]
    rcases (hdroppedIn m).mp hm with hm | rfl
    · exact h.dropped m hm
    · exact ((h.left m).mp hn).1

theorem step (h : Senders events s.stream) (hstep : Step s e t) :
    Senders (events ++ [e]) t.stream := by
  cases hstep with
  | send _ signal a =>
    obtain ⟨queue, hqueue⟩ := s.exists_queue_send signal a
    rw [hqueue]
    exact h.of_same nofun nofun rfl rfl
  | receive signal =>
    obtain ⟨queue, hqueue⟩ := s.exists_queue_receive signal
    rw [hqueue]
    exact h.of_same nofun nofun rfl rfl
  | close => exact h.of_same nofun nofun rfl rfl
  | makeSender _ => exact h.add
  | dropSender hsender => exact h.drop (of_decide_eq_true hsender)
  | makeHandle => exact h.of_same nofun nofun rfl rfl
  | cancel _ => exact h.of_same nofun nofun rfl rfl

end Senders

/-- The stream is closed once it was, and a cell is cancelled once a handle of it was. -/
structure Marks (events : List ChannelEvent) (s : Channel) : Prop where
  closed : s.stream.closed = true ↔ .closed ∈ events
  cancelled : ∀ handle : CancelHandle,
    handle.cell ∈ s.cancellations.cancelled ↔ .cancelled handle ∈ events
  cells : ∀ cell ∈ s.cancellations.cancelled, cell < s.cancellations.cells

namespace Marks

variable {events : List ChannelEvent} {s t : Channel} {e : ChannelEvent}

theorem start (capacity : Nat) : Marks [] (make capacity) where
  closed := by simp [make, AddressStream.make]
  cancelled handle := by simp [make, Cancellations.empty]
  cells cell h := absurd h List.not_mem_nil

theorem of_same (h : Marks events s) (hclosed : e ≠ .closed)
    (hcancelled : ∀ handle, e ≠ .cancelled handle) (hstream : t.stream.closed = s.stream.closed)
    (hsame : t.cancellations.cancelled = s.cancellations.cancelled)
    (hcells : s.cancellations.cells ≤ t.cancellations.cells) : Marks (events ++ [e]) t where
  closed := by simpa [hstream, hclosed.symm] using h.closed
  cancelled handle := by simpa [hsame, (hcancelled handle).symm] using h.cancelled handle
  cells cell hcell := Nat.lt_of_lt_of_le (h.cells cell (hsame ▸ hcell)) hcells

theorem step (h : Marks events s) (hstep : Step s e t) : Marks (events ++ [e]) t := by
  cases hstep with
  | send _ signal a =>
    obtain ⟨queue, hqueue⟩ := s.exists_queue_send signal a
    rw [hqueue]
    exact h.of_same (by simp) nofun rfl rfl (Nat.le_refl _)
  | receive signal =>
    obtain ⟨queue, hqueue⟩ := s.exists_queue_receive signal
    rw [hqueue]
    exact h.of_same (by simp) nofun rfl rfl (Nat.le_refl _)
  | close =>
    refine ⟨by simp [AddressStream.close], fun handle => ?_, h.cells⟩
    simpa using h.cancelled handle
  | makeSender _ => exact h.of_same (by simp) nofun rfl rfl (Nat.le_refl _)
  | dropSender _ => exact h.of_same (by simp) nofun rfl rfl (Nat.le_refl _)
  | makeHandle => exact h.of_same (by simp) nofun rfl rfl (Nat.le_succ _)
  | @cancel handle hmade =>
    refine ⟨by simpa using h.closed, fun other => ?_, fun cell hcell => ?_⟩
    · have hother := h.cancelled other
      obtain ⟨cell⟩ := other
      obtain ⟨own⟩ := handle
      simp [Cancellations.cancel, hother, or_comm]
    · rcases List.mem_cons.mp hcell with rfl | hcell
      · exact hmade
      · exact h.cells cell hcell

end Marks

section

variable {capacity : Nat} {events : List ChannelEvent} {s : Channel}

theorem accounts_of_history (h : History capacity events s) : Accounts capacity events s := by
  induction h with
  | start => exact .start capacity
  | step _ hstep ih => exact ih.step hstep

theorem senders_of_history (h : History capacity events s) : Senders events s.stream := by
  induction h with
  | start => exact .start capacity
  | step _ hstep ih => exact ih.step hstep

theorem marks_of_history (h : History capacity events s) : Marks events s := by
  induction h with
  | start => exact .start capacity
  | step _ hstep ih => exact ih.step hstep

theorem fires_iff (h : Marks events s) {signal : CancelSignal} :
    s.cancellations.fires signal = true ↔
      ∃ handle, .cancelled handle ∈ events ∧ signal = handle.signal := by
  obtain ⟨_ | cell⟩ := signal
  · simp [Cancellations.fires, CancelHandle.signal]
  · have hcell : cell ∈ s.cancellations.cancelled ↔ .cancelled ⟨cell⟩ ∈ events := h.cancelled ⟨cell⟩
    rw [Cancellations.fires, decide_eq_true_iff, hcell]
    constructor
    · exact fun hcancelled => ⟨⟨cell⟩, hcancelled, rfl⟩
    · rintro ⟨⟨other⟩, hcancelled, hsame⟩
      cases hsame
      exact hcancelled

/-- The end of a stream that is still held. -/
theorem ended_of_receive (h : History capacity events s) {signal : CancelSignal}
    (hend : (s.receive signal).1 = .ready (.ok none)) : s.stream.queue = [] ∧
      (.closed ∈ events ∨ ∀ n, MadeIn events n → .senderDropped n ∈ events) := by
  have hfinished := isFinished_of_receive hend
  rw [AddressStream.isFinished, Bool.and_eq_true, Bool.or_eq_true] at hfinished
  obtain ⟨hempty, hclosed | hnone⟩ := hfinished
  · exact ⟨List.isEmpty_iff.mp hempty, .inl ((marks_of_history h).closed.mp hclosed)⟩
  · refine ⟨List.isEmpty_iff.mp hempty, .inr fun n hmade => ?_⟩
    by_contra hkept
    have hleft := ((senders_of_history h).left n).mpr ⟨hmade, hkept⟩
    rw [List.isEmpty_iff.mp hnone] at hleft
    exact List.not_mem_nil hleft

/-- After any history every address whose send has succeeded was received in its turn or is queued, a
handle that was cancelled stops all its signals and no others, and the stream ends only when it is
drained and nothing more can be sent. -/
theorem cancellation_keeps_the_queue (h : History capacity events s) :
    receivedIn events ++ s.stream.queue = sentIn events ∧
    s.stream.queue.length ≤ capacity ∧
    (∀ signal a, (s.send signal a).1 ≠ .ready (.ok ()) → (s.send signal a).2 = s) ∧
    (∀ signal, (∀ a, (s.receive signal).1 ≠ .ready (.ok (some a))) → (s.receive signal).2 = s) ∧
    (∀ handle, .cancelled handle ∈ events →
      (∀ a, s.send handle.signal a = (.ready (.error .cancelled), s)) ∧
      s.receive handle.signal = (.ready (.error .cancelled), s)) ∧
    (∀ signal : CancelSignal, (∀ handle, .cancelled handle ∈ events → signal ≠ handle.signal) →
      (∀ a, s.send signal a = (s.stream.send false a).map id fun stream => { s with stream }) ∧
      s.receive signal = (s.stream.receive false).map id fun stream => { s with stream }) ∧
    .cancelled s.cancellations.create.1 ∉ events ∧
    (∀ signal, (s.receive signal).1 = .ready (.ok none) → s.stream.queue = [] ∧
      (.closed ∈ events ∨ ∀ n, MadeIn events n → .senderDropped n ∈ events)) := by
  have haccounts := accounts_of_history h
  have hmarks := marks_of_history h
  refine ⟨haccounts.order, haccounts.bounded, fun signal a hanswer => ?_,
    fun signal hanswer => ?_, fun handle hcancelled => ?_, fun signal hother => ?_, fun hfresh => ?_,
    fun signal => ended_of_receive h⟩
  · rcases s.send_cases signal a with ⟨-, hsame⟩ | ⟨-, hsent⟩
    · exact hsame
    · exact absurd (congrArg Prod.fst hsent) hanswer
  · rcases s.receive_cases signal with ⟨-, hsame⟩ | ⟨a, rest, -, hreceived⟩
    · exact hsame
    · exact absurd (congrArg Prod.fst hreceived) (hanswer a)
  · have hfires := (fires_iff hmarks).mpr ⟨handle, hcancelled, rfl⟩
    exact ⟨fun a => send_of_fires hfires, receive_of_fires hfires⟩
  · have hsilent : s.cancellations.fires signal = false := by
      by_contra hfires
      obtain ⟨handle, hcancelled, hsame⟩ := (fires_iff hmarks).mp (Bool.of_not_eq_false hfires)
      exact hother handle hcancelled hsame
    exact ⟨fun a => by rw [send, hsilent], by rw [receive, hsilent]⟩
  · -- the cell of a new handle is the first that there was not
    have hcell := hmarks.cells _ ((hmarks.cancelled _).mpr hfresh)
    exact Nat.lt_irrefl _ hcell

end

/-- A full stream of one place, whose only user was cancelled while waiting to send once more. -/
def cancelledOnFull : Channel where
  stream := { AddressStream.make 1 with queue := [.derive .raw []] }
  cancellations := ⟨1, [0]⟩

theorem history_cancelledOnFull : History 1
    [.handleMade ⟨0⟩, .sent ⟨some 0⟩ (.derive .raw []) (.ready (.ok ())),
      .sent ⟨some 0⟩ (.derive .node []) .pending, .cancelled ⟨0⟩] cancelledOnFull := by
  have hhandle := (@History.start 1).step .makeHandle
  have hsent := hhandle.step (@Step.send _ 0 rfl ⟨some 0⟩ (.derive .raw []))
  have hwaiting := hsent.step (@Step.send _ 0 rfl ⟨some 0⟩ (.derive .node []))
  exact hwaiting.step (@Step.cancel _ ⟨0⟩ Nat.one_pos)

theorem cancellation_keeps_the_queue_when_full : ∃ events, History 1 events cancelledOnFull ∧
    receivedIn events ++ [.derive .raw []] = sentIn events ∧
    cancelledOnFull.receive (CancelHandle.signal ⟨0⟩) =
      (.ready (.error .cancelled), cancelledOnFull) := by
  obtain ⟨horder, -, -, -, hcancelled, -⟩ := cancellation_keeps_the_queue history_cancelledOnFull
  exact ⟨_, history_cancelledOnFull, horder, (hcancelled ⟨0⟩ (by simp)).2⟩

end Channel

end ContentGraph
