import ContentGraph.Proofs.Publication
import ContentGraph.Proofs.StoreHistory

/-! Answers do not change. What a store has once answered it answers again, whatever is put later, and
so does a path that is followed through its objects: only what was not found may be found later. -/

namespace ContentGraph

/-- What is found by the first is found by the other, and every failure but absence is the same. -/
def Fetch.Within (fetch later : Fetch) : Prop :=
  ∀ a, (∀ b, fetch a ≠ .error (.notFound b)) → later a = fetch a

theorem Store.get_of_within {m later : MemoryStore} (h : m.Within later) {a : Address}
    (hfound : get m a ≠ .error (.notFound a)) : get later a = get m a := by
  have hread (m : MemoryStore) : Backend.read m a.text = .ok (m.table.get? a.text) := rfl
  unfold get at hfound ⊢
  rw [hread] at hfound ⊢
  rw [hread]
  cases hentry : m.table.get? a.text with
  | none =>
    rw [hentry] at hfound
    exact absurd rfl hfound
  | some data => rw [h _ _ hentry]

theorem Store.fetch_within {m later : MemoryStore} (h : m.Within later) :
    Fetch.Within (get m) (get later) :=
  fun a hfound => get_of_within h (hfound a)

namespace Graph

variable {g later : Graph} {path : List String}

theorem follow_of_within (hfetch : Fetch.Within g.fetch later.fetch)
    (hconfig : later.config = g.config) {whole : List String} {hops : Nat} {tree : Node}
    (hfound : ∀ a, (g.follow whole hops tree path).result ≠ .error (.store (.notFound a))) :
    later.follow whole hops tree path = g.follow whole hops tree path := by
  induction hops generalizing tree path with
  | zero => rw [follow.eq_def, follow.eq_def g, hconfig]
  | succ hops ih =>
    rw [follow.eq_def, follow.eq_def g]
    rw [follow.eq_def] at hfound
    cases hdescend : tree.descend path with
    | none => rfl
    | some found =>
      obtain ⟨reached, _ | ⟨segment, rest⟩⟩ := found
      · rfl
      · cases reached with
        | link target =>
          simp only [hdescend] at hfound
          have htarget : later.fetch target = g.fetch target := by
            refine hfetch target fun b hb => ?_
            rw [hb] at hfound
            exact hfound b rfl
          dsimp only
          rw [htarget]
          cases ho : g.fetch target with
          | error cause => rfl
          | ok o =>
            simp only [ho] at hfound
            dsimp only
            rw [ih hfound]
        | _ => rfl

theorem traceGet_of_within (hfetch : Fetch.Within g.fetch later.fetch) (hroot : later.root = g.root)
    (hconfig : later.config = g.config)
    (hfound : ∀ a, g.get path ≠ .error (.store (.notFound a))) :
    later.traceGet path = g.traceGet path := by
  unfold get traceGet at hfound
  unfold traceGet
  by_cases hempty : isRootPath path = true
  · rw [if_pos hempty, if_pos hempty, hroot]
  · rw [if_neg hempty] at hfound
    have hfollow : ∀ a, (g.follow path g.config.maxHops g.root.tree path).result ≠
        .error (.store (.notFound a)) := by
      intro a ha
      refine hfound a ?_
      dsimp only
      rw [ha]
      rfl
    rw [if_neg hempty, if_neg hempty, hroot, hconfig, follow_of_within hfetch hconfig hfollow]

theorem traceObject_of_within (hfetch : Fetch.Within g.fetch later.fetch)
    (hroot : later.root = g.root) (hconfig : later.config = g.config)
    (hfound : ∀ a, g.getObject path ≠ .error (.store (.notFound a))) :
    later.traceObject path = g.traceObject path := by
  unfold getObject traceObject at hfound
  have hget : ∀ a, g.get path ≠ .error (.store (.notFound a)) := by
    intro a ha
    refine hfound a ?_
    have hresult : (g.traceGet path).result = .error (.store (.notFound a)) := ha
    dsimp only
    rw [hresult]
  unfold traceObject
  rw [traceGet_of_within hfetch hroot hconfig hget]
  dsimp only at hfound ⊢
  split
  · rfl
  · rfl
  · next target htarget =>
    rw [htarget] at hfound
    have hsame : later.fetch target = g.fetch target := by
      refine hfetch target fun b hb => ?_
      simp only [hb] at hfound
      exact hfound b rfl
    rw [hsame]
  · rfl

end Graph

namespace MemoryStore

/-- Every answer but absence is the same for ever: those of the store, and those of paths from any
object, under any limit. What the encoder does, with whatever becomes of its puts, is among what may
happen in between. -/
theorem answers_are_stable :
    (∀ m later : MemoryStore, Steps m later →
      (∀ a, Store.get m a ≠ .error (.notFound a) → Store.get later a = Store.get m a) ∧
      ∀ (root : Object) (config : GraphConfig) (path : List String),
        let g : Graph := ⟨Store.get m, root, config⟩
        let g' : Graph := ⟨Store.get later, root, config⟩
        ((∀ a, g.get path ≠ .error (.store (.notFound a))) → g'.get path = g.get path) ∧
        ((∀ a, g.getObject path ≠ .error (.store (.notFound a))) →
          g'.getObject path = g.getObject path)) ∧
    ∀ (σ : Type) (put : Put σ) (shown : σ → MemoryStore), Fills put shown → ∀ s,
      (∀ c root, Steps (shown s) (shown (Encoder.encode c put root s).2)) ∧
      ∀ c document, Steps (shown s) (shown (Encoder.encodeDocument c put document s).2) := by
  refine ⟨fun m later hsteps => ?_, fun σ put shown h s => ?_⟩
  · have hwithin := within_of_steps hsteps
    have hfetch := Store.fetch_within hwithin
    refine ⟨fun a => Store.get_of_within hwithin, fun root config path => ⟨fun h => ?_, fun h => ?_⟩⟩
    · exact congrArg Trace.result (Graph.traceGet_of_within hfetch rfl rfl h)
    · exact congrArg Trace.result (Graph.traceObject_of_within hfetch rfl rfl h)
  · exact ⟨fun c root => h.steps_encode c root s,
      fun c document => h.steps_encodeDocument c document s⟩

end MemoryStore

open Encoder in
theorem answers_are_stable_in_small_document :
    ∃ later, MemoryStore.Steps Graph.litteredStore later ∧
      later.table.contains otherLeafObject.address.text = true ∧
      Store.get later smallObject.address = .ok smallObject ∧
      (⟨Store.get later, smallObject, ⟨1⟩⟩ : Graph).get ["b", valueField] =
        .ok (.value (.string "x")) := by
  have hpublish : Context.toObject smallContext = .ok smallContextObject := rfl
  have hroot : Store.get Graph.litteredStore smallObject.address = .ok smallObject :=
    (Graph.get_litteredStore _).trans
      (Graph.get_smallStore (by simp [smallCalls]) (rfl : Object.ofNode smallShape.toNode = _))
  have hleaf : Store.get Graph.litteredStore smallLeafObject.address = .ok smallLeafObject :=
    (Graph.get_litteredStore _).trans
      (Graph.get_smallStore (by simp [smallCalls]) (rfl : Object.ofNode smallLeafShape.toNode = _))
  generalize Graph.litteredStore = m at hroot hleaf ⊢
  -- a context is published, and another document is encoded up to its first object
  have hpublished : MemoryStore.Steps m (Store.put smallContextObject m).2 :=
    .single (.publish hpublish)
  generalize (Store.put smallContextObject m).2 = published at hpublished
  have hsteps : MemoryStore.Steps m (Store.putAll [otherLeafObject] published).2 :=
    hpublished.tail (.encode siblings_run 1)
  obtain ⟨begun, hputAll, hreplay⟩ := Store.exists_replays_putAll [otherLeafObject] published
  rw [hputAll] at hsteps
  have hother := MemoryStore.contains_of_replays hreplay (List.mem_singleton_self _)
  -- and again, by a store that takes no more than one object
  let full : Faulty MemoryStore := ⟨begun, none, some ("full", 1)⟩
  have hfull : MemoryStore.Steps begun (smallEncoder.encode Store.put siblings full).2.inner :=
    (MemoryStore.answers_are_stable.2 _ _ _ MemoryStore.fills_faulty full).1 smallEncoder siblings
  generalize (smallEncoder.encode Store.put siblings full).2.inner = later at hfull
  replace hsteps : MemoryStore.Steps m later := hsteps.trans hfull
  replace hother := (MemoryStore.within_of_steps hfull).contains hother
  obtain ⟨hget, hpaths⟩ := MemoryStore.answers_are_stable.1 m later hsteps
  have hvalue : (⟨Store.get m, smallObject, ⟨1⟩⟩ : Graph).get ["b", valueField] =
      .ok (.value (.string "x")) := Graph.get_value_of_leaf rfl hleaf rfl
  refine ⟨later, hsteps, hother, ?_, ?_⟩
  · rw [hget _ (by simp [hroot]), hroot]
  · rw [(hpaths smallObject ⟨1⟩ ["b", valueField]).1 (by simp [hvalue]), hvalue]

end ContentGraph
