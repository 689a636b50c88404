import ContentGraph.Converter
import ContentGraph.Proofs.PutSequences
import ContentGraph.Store.Faulty
import Mathlib.Logic.Relation

/-! What happens to a memory store: objects are put, contexts are published, and documents are encoded,
each as a whole or up to any of its puts. Whatever it is, a store goes on to hold what it held. -/

namespace ContentGraph

open Xml (Element)

def PutCall.object? : PutCall → Option Object
  | .stored o => some o
  | .refused _ _ => none

namespace MemoryStore

/-- The later store has every entry of the first one, with the same bytes. -/
def Within (m later : MemoryStore) : Prop :=
  ∀ key data, m.table.get? key = some data → later.table.get? key = some data

theorem Within.refl (m : MemoryStore) : m.Within m := fun _ _ h => h

theorem Within.trans {m middle later : MemoryStore} (h : m.Within middle)
    (hlater : middle.Within later) : m.Within later :=
  fun key data hdata => hlater key data (h key data hdata)

theorem Within.contains {m later : MemoryStore} (h : m.Within later) {key : String}
    (hkey : m.table.contains key = true) : later.table.contains key = true := by
  obtain ⟨data, hdata⟩ := Option.isSome_iff_exists.mp hkey
  exact Option.isSome_iff_exists.mpr ⟨data, h key data hdata⟩

theorem within_putAll (objects : List Object) (m : MemoryStore) :
    m.Within (Store.putAll objects m).2 := by
  obtain ⟨last, hputAll, hreplay⟩ := Store.exists_replays_putAll objects m
  rw [hputAll]
  exact fun _ _ => get?_of_replays hreplay

theorem contains_of_replays {m last : MemoryStore} {objects : List Object}
    (h : Replays Store.put m (objects.map .stored) last) {o : Object} (ho : o ∈ objects) :
    last.table.contains o.address.text = true := by
  induction objects generalizing m with
  | nil => cases ho
  | cons first rest ih =>
    cases h with
    | stored hput hrest =>
      rcases List.mem_cons.mp ho with rfl | ho
      · obtain ⟨rfl, -⟩ := put_eq hput
        obtain ⟨data, hdata⟩ :
            ∃ data, (m.write o.address.text o.data).table.get? o.address.text = some data := by
          rw [get?_write, if_pos rfl]
          cases m.table.get? o.address.text with
          | none => exact ⟨_, rfl⟩
          | some old => exact ⟨old, rfl⟩
        exact Option.isSome_iff_exists.mpr ⟨data, get?_of_replays hrest hdata⟩
      · exact ih hrest ho

/-- A document is encoded by a run of the encoder, in which siblings may take turns, up to any of its
calls. What is refused is not put. -/
inductive Step (m : MemoryStore) : MemoryStore → Prop
  | put (o : Object) : Step m (Store.put o m).2
  | publish {context : Context} {o : Object} (hobject : context.toObject = .ok o) :
    Step m (Store.put o m).2
  | encode {c : Encoder} {root : Element} {calls : List PutCall}
    {outcome : Except EncodeError Address} (hrun : c.ElementRun 1 root calls outcome) (n : Nat) :
    Step m (Store.putAll ((calls.take n).filterMap PutCall.object?) m).2

abbrev Steps : MemoryStore → MemoryStore → Prop :=
  Relation.ReflTransGen Step

theorem Step.within {m later : MemoryStore} (h : Step m later) : m.Within later := by
  cases h with
  | put o => exact fun _ _ hdata => Store.get?_put hdata o
  | publish _ => exact fun _ _ hdata => Store.get?_put hdata _
  | encode _ n => exact within_putAll _ m

theorem within_of_steps {m later : MemoryStore} (h : Steps m later) : m.Within later := by
  induction h with
  | refl => exact .refl m
  | tail _ hstep ih => exact ih.trans hstep.within

/-- The put stores in the memory store that its state shows, or fails and leaves that store alone. -/
structure Fills {σ : Type} (put : Put σ) (shown : σ → MemoryStore) : Prop where
  stored : ∀ {o : Object} {s next : σ}, put o s = (.ok (), next) →
    shown next = (Store.put o (shown s)).2
  refused : ∀ {o : Object} {cause : StoreError} {s next : σ}, put o s = (.error cause, next) →
    shown next = shown s

theorem fills_put : Fills Store.put (id : MemoryStore → MemoryStore) where
  stored h := (congrArg Prod.snd h).symm
  refused h := absurd (congrArg Prod.fst h) nofun

theorem fills_faulty : Fills Store.put (Faulty.inner : Faulty MemoryStore → MemoryStore) where
  stored {o s next} h := by
    obtain ⟨inner, readFault, writeFault⟩ := s
    rcases writeFault with _ | ⟨message, _ | remaining⟩
    · exact congrArg Faulty.inner (congrArg Prod.snd h).symm
    · exact absurd (congrArg Prod.fst h) nofun
    · exact congrArg Faulty.inner (congrArg Prod.snd h).symm
  refused {o cause s next} h := by
    obtain ⟨inner, readFault, writeFault⟩ := s
    rcases writeFault with _ | ⟨message, _ | remaining⟩
    · exact absurd (congrArg Prod.fst h) nofun
    · exact congrArg Faulty.inner (congrArg Prod.snd h).symm
    · exact absurd (congrArg Prod.fst h) nofun

namespace Fills

variable {σ : Type} {put : Put σ} {shown : σ → MemoryStore}

theorem putAll_of_replays (h : Fills put shown) {s last : σ} {calls : List PutCall}
    (hreplay : Replays put s calls last) :
    shown last = (Store.putAll (calls.filterMap PutCall.object?) (shown s)).2 := by
  induction hreplay with
  | nil => rfl
  | @stored s next last o rest hput _ ih =>
    have hok : Store.put o (shown s) = (.ok (), shown next) := by
      rw [h.stored hput]
      rfl
    have hfirst : Store.putAll (o :: rest.filterMap PutCall.object?) (shown s) =
        Store.putAll (rest.filterMap PutCall.object?) (shown next) := Stateful.bind_of_ok hok
    exact ih.trans (congrArg Prod.snd hfirst.symm)
  | refused hput _ ih => rw [ih, h.refused hput]; rfl

/-- Whatever the encoder does, with a put that fails as well, is done to the store. -/
theorem steps_encode (h : Fills put shown) (c : Encoder) (root : Element) (s : σ) :
    Steps (shown s) (shown (c.encode put root s).2) := by
  obtain ⟨calls, hrun, hreplay⟩ := Encoder.exists_elementRun put c 1 root s
  have hstep := Step.encode (m := shown s) hrun calls.length
  rw [List.take_length, ← h.putAll_of_replays hreplay] at hstep
  exact .single hstep

theorem steps_encodeDocument (h : Fills put shown) (c : Encoder) (document : Bytes) (s : σ) :
    Steps (shown s) (shown (c.encodeDocument put document s).2) := by
  unfold Encoder.encodeDocument
  cases Xml.parseDocument c.config.maxDepth document with
  | error cause => exact .refl
  | ok root => exact h.steps_encode c root s

end Fills

theorem steps_convert (c : Converter) (document : Bytes) (m : MemoryStore) :
    Steps m (c.convert document m).2 := by
  have hsteps := fills_put.steps_encodeDocument c.encoder document m
  unfold Converter.convert
  cases hencode : c.encoder.encodeDocument Store.put document m with
  | mk result last =>
    rw [hencode] at hsteps
    cases result <;> exact hsteps

end MemoryStore

end ContentGraph
