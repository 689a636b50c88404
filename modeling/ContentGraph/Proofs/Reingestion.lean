import ContentGraph.Proofs.ContextPublication
import ContentGraph.Proofs.PutThenGet
import ContentGraph.Proofs.StableAnswers

/-! A document that has been taken in once is taken in again without any effect, at any later time: its
contexts are still there and read alike, and every object that it is stored as is there already. -/

namespace ContentGraph

namespace MemoryStore

variable {m last : MemoryStore} {objects : List Object}

/-- What finds entries under all its addresses changes nothing. -/
theorem eq_of_replays_of_contains (h : Replays Store.put m (objects.map .stored) last)
    (hheld : ∀ o ∈ objects, m.table.contains o.address.text = true) : last = m := by
  induction objects with
  | nil =>
    cases h with
    | nil => rfl
  | cons o rest ih =>
    cases h with
    | stored hput hrest =>
      obtain ⟨rfl, -⟩ := put_eq hput
      have hsame : m.write o.address.text o.data = m := if_pos (hheld o List.mem_cons_self)
      rw [hsame] at hrest
      exact ih hrest fun o ho => hheld o (List.mem_cons_of_mem _ ho)

end MemoryStore

open MemoryStore (Steps)

section

variable {σ : Type} [Backend σ] {state later : σ}
  (h : ∀ a o, Store.get state a = .ok o → Store.get later a = .ok o)
include h

theorem Context.load_of_get {a : Address} {context : Context} (hload : load state a = .ok context) :
    load later a = .ok context := by
  unfold load at hload ⊢
  cases hget : Store.get state a with
  | error cause => simp [hget] at hload
  | ok o =>
    rw [hget] at hload
    rw [h a o hget]
    exact hload

theorem Context.loadAll_of_get {addresses : List Address} {contexts : List Context}
    (hload : loadAll state addresses = .ok contexts) : loadAll later addresses = .ok contexts := by
  induction addresses generalizing contexts with
  | nil => exact hload
  | cons a rest ih =>
    obtain ⟨context, hcontext, hrest⟩ := bind_eq_ok_iff.mp hload
    obtain ⟨others, hothers, hcontexts⟩ := bind_eq_ok_iff.mp hrest
    exact bind_eq_ok_iff.mpr ⟨context, load_of_get h hcontext,
      bind_eq_ok_iff.mpr ⟨others, ih hothers, hcontexts⟩⟩

/-- Contexts are loaded again as long as the objects are there. -/
theorem Converter.load_of_get {contexts : List Address} {c : Converter}
    (hload : load state contexts = .ok c) : load later contexts = .ok c := by
  unfold load at hload ⊢
  cases hall : Context.loadAll state contexts with
  | error cause => simp [hall] at hload
  | ok found =>
    rw [hall] at hload
    rw [Context.loadAll_of_get h hall]
    exact hload

end

/-- Stores that give the same objects give the same contexts. -/
theorem Converter.load_congr {σ τ : Type} [Backend σ] [Backend τ] {s : σ} {t : τ}
    (h : ∀ a, Store.get s a = Store.get t a) (contexts : List Address) :
    load s contexts = load t contexts := by
  have hall : Context.loadAll s contexts = Context.loadAll t contexts := by
    induction contexts with
    | nil => rfl
    | cons a rest ih => simp only [Context.loadAll, Context.load, h, ih]
  rw [load, load, hall]

namespace Converter

theorem load_of_within {m later : MemoryStore} (h : m.Within later) {contexts : List Address}
    {c : Converter} (hload : load m contexts = .ok c) : load later contexts = .ok c := by
  refine load_of_get (fun a o hget => ?_) hload
  rw [Store.get_of_within h (by simp [hget]), hget]

/-- Every run of a document that can be converted answers alike and hands over the same objects. -/
theorem Run.agrees {c : Converter} {document : Bytes} {objects others : List Object}
    {first result : Except IngestError Address} {r : Address} (h : c.Run document objects first)
    (hr : first = .ok r) (hother : c.Run document others result) :
    result = .ok r ∧ others.Perm objects := by
  cases h with
  | unread => cases hr
  | @encoded root _ outcome hparse hrun =>
    obtain rfl : outcome = .ok r := by
      cases outcome with
      | ok a => cases hr; rfl
      | error cause => cases hr
    cases hother with
    | unread hunread =>
      rw [hunread] at hparse
      cases hparse
    | encoded hparse' hrun' =>
      obtain rfl := Except.ok.inj (hparse'.symm.trans hparse)
      have hunrefused : Unrefused (others.map .stored) := by simp [Unrefused]
      obtain ⟨rfl, hperm⟩ := hrun.agrees r rfl _ _ hrun' hunrefused
      have hinjective : Function.Injective PutCall.stored := fun _ _ => PutCall.stored.inj
      exact ⟨rfl, (List.map_perm_map_iff hinjective).mp hperm⟩

/-- Loads contexts and converts a document under them. -/
def ingest (contexts : List Address) (config : EncoderConfig) (document : Bytes) :
    Stateful IngestError MemoryStore Address := fun m =>
  match load m contexts with
  | .ok c => ({ c with config } : Converter).convert document m
  | .error e => (.error e, m)

end Converter

/-- Loads contexts and encodes a document under them into the same store. -/
def Encoder.encodeUnder (contexts : List Address) (config : EncoderConfig) (document : Bytes) :
    Stateful EncodeError MemoryStore Address := fun m =>
  match Context.loadAll m contexts with
  | .ok contexts =>
    (⟨Context.resolveInOrder contexts, config⟩ : Encoder).encodeDocument Store.put document m
  | .error cause => (.error cause, m)

namespace Converter

variable {m stored later : MemoryStore} {contexts : List Address} {config : EncoderConfig}
  {document : Bytes} {r : Address}

theorem ingest_eq : ingest contexts config document m =
    ((Encoder.encodeUnder contexts config document m).1.mapError .encode,
      (Encoder.encodeUnder contexts config document m).2) := by
  unfold ingest load Encoder.encodeUnder
  cases Context.loadAll m contexts with
  | error cause => rfl
  | ok found =>
    dsimp only [convert, encoder]
    cases Encoder.encodeDocument ⟨Context.resolveInOrder found, config⟩ Store.put document m with
    | mk result last => cases result <;> rfl

theorem ingest_eq_ok_iff : ingest contexts config document m = (.ok r, stored) ↔
    Encoder.encodeUnder contexts config document m = (.ok r, stored) := by
  rw [ingest_eq]
  cases Encoder.encodeUnder contexts config document m with
  | mk result last =>
    cases result with
    | ok a =>
      constructor <;>
      · intro h
        cases h
        rfl
    | error cause => exact ⟨nofun, nofun⟩

/-- The first conversion and the second one may each be any run, in a store that has grown. -/
theorem eq_of_run_again {c : Converter} {objects others : List Object}
    {result : Except IngestError Address} {last : MemoryStore}
    (hrun : c.Run document objects (.ok r))
    (hstored : Replays Store.put m (objects.map .stored) stored)
    (hwithin : stored.Within later) (hagain : c.Run document others result)
    (hlast : Replays Store.put later (others.map .stored) last) :
    result = .ok r ∧ last = later := by
  obtain ⟨hresult, hperm⟩ := hrun.agrees rfl hagain
  refine ⟨hresult, MemoryStore.eq_of_replays_of_contains hlast fun o ho => ?_⟩
  exact hwithin.contains (MemoryStore.contains_of_replays hstored (hperm.mem_iff.mp ho))

theorem ingest_again (h : ingest contexts config document m = (.ok r, stored))
    (hlater : Steps stored later) : ingest contexts config document later = (.ok r, later) := by
  unfold ingest at h ⊢
  cases hload : load m contexts with
  | error e =>
    rw [hload] at h
    cases h
  | ok c =>
    rw [hload] at h
    dsimp only at h
    have hwithin := MemoryStore.within_of_steps hlater
    have hfirst : m.Within stored := by
      have hsteps := MemoryStore.steps_convert { c with config } document m
      rw [h] at hsteps
      exact MemoryStore.within_of_steps hsteps
    obtain ⟨objects, hrun, hreplay⟩ := exists_run { c with config } document m
    obtain ⟨others, hagain, hlast⟩ := exists_run { c with config } document later
    rw [h] at hrun hreplay
    rw [load_of_within (hfirst.trans hwithin) hload]
    obtain ⟨hresult, hsame⟩ := eq_of_run_again hrun hreplay hwithin hagain hlast
    exact Prod.ext hresult hsame

/-- A document that has been converted is converted again with the same root and no effect on the
store, whatever has happened to the store in between and whatever turns siblings take each time. -/
theorem reingestion_is_no_op (m : MemoryStore) (contexts : List Address) (config : EncoderConfig)
    (document : Bytes) :
    (∀ r stored, ingest contexts config document m = (.ok r, stored) →
      ∀ later, Steps stored later → ingest contexts config document later = (.ok r, later)) ∧
    (∀ r stored, Encoder.encodeUnder contexts config document m = (.ok r, stored) →
      ∀ later, Steps stored later →
        Encoder.encodeUnder contexts config document later = (.ok r, later)) ∧
    ∀ (c : Converter) objects r stored, load m contexts = .ok c →
      ({ c with config } : Converter).Run document objects (.ok r) →
      Replays Store.put m (objects.map .stored) stored → ∀ later, Steps stored later →
        load later contexts = .ok c ∧ ∀ others result last,
          ({ c with config } : Converter).Run document others result →
          Replays Store.put later (others.map .stored) last → result = .ok r ∧ last = later := by
  refine ⟨fun r stored h later => ingest_again h, fun r stored h later hlater => ?_, ?_⟩
  · exact ingest_eq_ok_iff.mp (ingest_again (ingest_eq_ok_iff.mpr h) hlater)
  · intro c objects r stored hload hrun hstored later hlater
    have hwithin := MemoryStore.within_of_steps hlater
    have hfirst : m.Within stored := fun _ _ => MemoryStore.get?_of_replays hstored
    exact ⟨load_of_within (hfirst.trans hwithin) hload, fun others result last hagain hlast =>
      eq_of_run_again hrun hstored hwithin hagain hlast⟩

end Converter

theorem get_contextStore :
    Store.get contextStore smallContextObject.address = .ok smallContextObject := by
  have hsized : smallContextObject.tree.Sized := Node.sized_of_length_encode_lt (by decide +kernel)
  have hshallow : smallContextObject.tree.nesting ≤ Node.maxDepth := by decide +kernel
  exact Store.get_put_of_shallow smallContext.ordered_toNode hsized hshallow rfl

theorem load_contextStore :
    Converter.load contextStore [smallContextObject.address] = .ok smallConverter := by
  have hcontext : Context.ofObject smallContextObject = .ok smallContext := rfl
  have hload : Context.load contextStore smallContextObject.address = .ok smallContext := by
    rw [Context.load, get_contextStore]
    exact hcontext
  have hall : Context.loadAll contextStore [smallContextObject.address] = .ok [smallContext] := by
    rw [Context.loadAll, hload]
    rfl
  rw [Converter.load, hall]
  rfl

open Encoder (otherLeafObject siblings_run) in
theorem reingestion_is_no_op_in_small_document :
    ∃ stored later, Converter.ingest [smallContextObject.address] {} smallBytes contextStore =
        (.ok parsedObject.address, stored) ∧
      Steps stored later ∧ later.table.contains otherLeafObject.address.text = true ∧
      Converter.ingest [smallContextObject.address] {} smallBytes later =
        (.ok parsedObject.address, later) := by
  obtain ⟨objects, hrun, -⟩ := smallConverter.exists_run smallBytes contextStore
  obtain ⟨hanswer, -⟩ := smallBytes_run.agrees rfl hrun
  have hfirst : Converter.ingest [smallContextObject.address] {} smallBytes contextStore =
      (.ok parsedObject.address, (smallConverter.convert smallBytes contextStore).2) := by
    rw [Converter.ingest, load_contextStore]
    exact Prod.ext hanswer rfl
  generalize (smallConverter.convert smallBytes contextStore).2 = stored at hfirst
  -- another document is begun, and ends after its first object
  have hsteps : Steps stored (Store.putAll [otherLeafObject] stored).2 :=
    .single (.encode siblings_run 1)
  obtain ⟨last, hputAll, hreplay⟩ := Store.exists_replays_putAll [otherLeafObject] stored
  rw [hputAll] at hsteps
  have hother := MemoryStore.contains_of_replays hreplay (List.mem_singleton_self _)
  exact ⟨stored, last, hfirst, hsteps, hother,
    (Converter.reingestion_is_no_op contextStore [smallContextObject.address] {} smallBytes).1 _ _
      hfirst last hsteps⟩

end ContentGraph
