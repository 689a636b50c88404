import ContentGraph.Proofs.PutOrder
import ContentGraph.Proofs.Retrieval
import Mathlib.Data.List.Perm.Basic

/-! Schedules of the encoder. Siblings may be encoded in any order and their objects handed over in
any interleaving, and none of it shows: the root, the objects handed over and the store that they are
put into are those of the encoder by itself. -/

namespace ContentGraph

open Xml (Element)

theorem Shuffle.perm {α : Type} {xs ys zs : List α} (h : Shuffle xs ys zs) :
    zs.Perm (xs ++ ys) := by
  induction h with
  | nil => exact .nil
  | left _ ih => exact ih.cons _
  | right _ ih => exact (ih.cons _).trans List.perm_middle.symm

def Unrefused (calls : List PutCall) : Prop :=
  ∀ o cause, .refused o cause ∉ calls

theorem Unrefused.of_subset {calls some : List PutCall} (h : Unrefused calls)
    (hsome : ∀ call ∈ some, call ∈ calls) : Unrefused some :=
  fun o cause hcall => h o cause (hsome _ hcall)

def NeverFails {σ : Type} (put : Put σ) : Prop :=
  ∀ o s, (put o s).1 = .ok ()

theorem Replays.unrefused {σ : Type} {put : Put σ} (hput : NeverFails put) {s last : σ}
    {calls : List PutCall} (h : Replays put s calls last) : Unrefused calls := by
  induction h with
  | nil => exact fun _ _ => List.not_mem_nil
  | stored _ _ ih => exact fun o cause hcall => ih o cause (by simpa using hcall)
  | @refused s _ _ o _ _ h _ _ =>
    have hok := hput o s
    rw [h] at hok
    cases hok

theorem exists_stored_of_unrefused {calls : List PutCall} (h : Unrefused calls) :
    ∃ objects : List Object, calls = objects.map .stored := by
  induction calls with
  | nil => exact ⟨[], rfl⟩
  | cons call rest ih =>
    obtain ⟨objects, rfl⟩ := ih (h.of_subset fun _ => List.mem_cons_of_mem _)
    cases call with
    | stored o => exact ⟨o :: objects, rfl⟩
    | refused o cause => exact absurd List.mem_cons_self (h o cause)

namespace Encoder

/-! Two runs of one element at one depth, the first of them successful. -/

theorem ShapeRun.agrees {shape : Except EncodeError Shape} {own other : List PutCall} {a : Address}
    {outcome : Except EncodeError Address} (h : ShapeRun shape own (.ok a))
    (hother : ShapeRun shape other outcome) (hunrefused : Unrefused other) :
    outcome = .ok a ∧ other = own := by
  cases h with
  | stored hshape hobject =>
    cases hother with
    | conflict h => simp [h] at hshape
    | unbuilt h hunbuilt =>
      obtain rfl := Except.ok.inj (h.symm.trans hshape)
      simp [hunbuilt] at hobject
    | refused => exact absurd List.mem_cons_self (hunrefused _ _)
    | stored h hobject' =>
      obtain rfl := Except.ok.inj (h.symm.trans hshape)
      obtain rfl := Except.ok.inj (hobject'.symm.trans hobject)
      exact ⟨rfl, rfl⟩

mutual

theorem ElementRun.agrees {c : Encoder} {depth : Nat} {e : Element} {calls : List PutCall}
    {outcome : Except EncodeError Address} : ElementRun c depth e calls outcome →
      ∀ a, outcome = .ok a → ∀ others other, ElementRun c depth e others other → Unrefused others →
        other = .ok a ∧ others.Perm calls
  | .tooDeep _ => nofun
  | .untyped _ _ => nofun
  | .childFailed _ _ _ _ => nofun
  | .built hdepth htype hchildren hshape => by
    rintro a rfl others other hother hunrefused
    cases hother with
    | tooDeep h => exact absurd hdepth (Nat.not_le.mpr h)
    | untyped _ h => simp [htype] at h
    | childFailed _ _ hfailing hfailed =>
      -- a child that fails in one run fails in the other
      exact absurd hfailed ((hchildren.agree _ rfl _ _ hfailing hunrefused).1 _)
    | built _ htype' hchildren' hshape' =>
      obtain rfl := Except.ok.inj (htype'.symm.trans htype)
      have hbelow := hchildren.agree _ rfl _ _ hchildren'
        (hunrefused.of_subset fun _ => List.mem_append_left _)
      obtain ⟨rfl, hperm⟩ := hbelow.2 _ rfl
      obtain ⟨rfl, rfl⟩ := hshape.agrees hshape'
        (hunrefused.of_subset fun _ => List.mem_append_right _)
      exact ⟨rfl, hperm.append_right _⟩

theorem ChildrenRun.agree {c : Encoder} {depth : Nat} {children : List Element}
    {calls : List PutCall} {results : List (Option (Except EncodeError Address))} :
    ChildrenRun c depth children calls results →
      ∀ addresses : List Address, results = addresses.map (fun a => some (.ok a)) →
        ∀ others found, ChildrenRun c depth children others found → Unrefused others →
          (∀ cause, some (.error cause) ∉ found) ∧
            ∀ addresses' : List Address, found = addresses'.map (fun a => some (.ok a)) →
              addresses' = addresses ∧ others.Perm calls
  | .nil => by
    rintro addresses h others found hothers -
    cases hothers with
    | nil =>
      obtain rfl := List.map_eq_nil_iff.mp h.symm
      refine ⟨fun _ => List.not_mem_nil, fun addresses' h' => ?_⟩
      exact ⟨List.map_eq_nil_iff.mp h'.symm, .nil⟩
  | .run hchild hrest hshuffle => by
    intro addresses h others found hothers hunrefused
    obtain ⟨a, later, rfl, ha, hlater⟩ := List.map_eq_cons_iff.mp h.symm
    cases hothers with
    | run hchild' hrest' hshuffle' =>
      have hfirst := hchild.agrees a (Option.some.inj ha).symm _ _ hchild'
        (hunrefused.of_subset fun _ hcall => hshuffle'.mem_iff.mpr (.inl hcall))
      have hothers := hrest.agree later hlater.symm _ _ hrest'
        (hunrefused.of_subset fun _ hcall => hshuffle'.mem_iff.mpr (.inr hcall))
      obtain ⟨rfl, hperm⟩ := hfirst
      refine ⟨fun cause hcause => ?_, fun addresses' h' => ?_⟩
      · rcases List.mem_cons.mp hcause with hcause | hcause
        · cases hcause
        · exact hothers.1 cause hcause
      · obtain ⟨a', later', rfl, ha', hlater'⟩ := List.map_eq_cons_iff.mp h'.symm
        obtain ⟨rfl, hpermLater⟩ := hothers.2 later' hlater'.symm
        cases ha'
        have hall := hshuffle'.perm.trans ((hperm.append hpermLater).trans hshuffle.perm.symm)
        exact ⟨rfl, hall⟩
    | skipped hrest' =>
      have hothers := hrest.agree later hlater.symm _ _ hrest' hunrefused
      refine ⟨fun cause hcause => ?_, fun addresses' h' => ?_⟩
      · rcases List.mem_cons.mp hcause with hcause | hcause
        · cases hcause
        · exact hothers.1 cause hcause
      · obtain ⟨a', later', -, ha', -⟩ := List.map_eq_cons_iff.mp h'.symm
        cases ha'
  | .skipped _ => by
    intro addresses h
    obtain ⟨a, later, -, ha, -⟩ := List.map_eq_cons_iff.mp h.symm
    cases ha

end

section Mirrors

variable {ε σ τ α β : Type} {R : σ → τ → Prop}

/-- One computation does with its state what the other does with a state that is related to it. -/
def Mirrors (R : σ → τ → Prop) (x : Stateful ε σ α) (y : Stateful ε τ α) : Prop :=
  ∀ s t, R s t → (x s).1 = (y t).1 ∧ R (x s).2 (y t).2

theorem Mirrors.bind {x : Stateful ε σ α} {y : Stateful ε τ α} {f : α → Stateful ε σ β}
    {g : α → Stateful ε τ β} (h : Mirrors R x y) (hnext : ∀ a, Mirrors R (f a) (g a)) :
    Mirrors R (x >>= f) (y >>= g) := by
  intro s t hst
  obtain ⟨hresult, hstate⟩ := h s t hst
  cases hx : x s with
  | mk result s' =>
    cases hy : y t with
    | mk result' t' =>
      rw [hx, hy] at hresult hstate
      obtain rfl : result = result' := hresult
      cases result with
      | ok a =>
        rw [Stateful.bind_of_ok hx, Stateful.bind_of_ok hy]
        exact hnext a s' t' hstate
      | error e =>
        rw [Stateful.bind_of_error hx, Stateful.bind_of_error hy]
        exact ⟨rfl, hstate⟩

theorem Mirrors.lift (result : Except ε α) :
    Mirrors R (liftExcept result : Stateful ε σ α) (liftExcept result) := by
  intro s t hst
  cases result <;> exact ⟨rfl, hst⟩

variable {put : Put σ} {put' : Put τ}

theorem Mirrors.store (h : ∀ o, Mirrors R (put o) (put' o)) (o : Object) :
    Mirrors R (store put o) (store put' o) := by
  intro s t hst
  have hput := h o s t hst
  unfold Encoder.store
  cases hs : put o s with
  | mk result s' =>
    cases ht : put' o t with
    | mk result' t' =>
      rw [hs, ht] at hput
      obtain ⟨rfl, hstate⟩ := hput
      cases result <;> exact ⟨rfl, hstate⟩

theorem Mirrors.storeShape (h : ∀ o, Mirrors R (put o) (put' o)) (shape : Shape) :
    Mirrors R (storeShape put shape) (storeShape put' shape) := by
  unfold Encoder.storeShape
  cases Object.ofNode shape.toNode with
  | error cause => exact Mirrors.lift (.error (EncodeError.store cause))
  | ok o => exact (Mirrors.store h o).bind fun _ => Mirrors.lift (.ok o.address)

theorem Mirrors.encodeChildren {c : Encoder} {depth : Nat} {children : List Element}
    (h : ∀ child ∈ children,
      Mirrors R (encodeElement c put depth child) (encodeElement c put' depth child)) :
    Mirrors R (encodeChildren c put depth children) (encodeChildren c put' depth children) := by
  induction children with
  | nil => exact fun _ _ hst => ⟨rfl, hst⟩
  | cons child rest ih =>
    have hrest := ih fun child hchild => h child (List.mem_cons_of_mem _ hchild)
    rw [Encoder.encodeChildren, Encoder.encodeChildren]
    exact (h child List.mem_cons_self).bind fun address =>
      hrest.bind fun addresses => Mirrors.lift (.ok (address :: addresses))

/-- What the encoder answers and hands over does not depend on what becomes of the objects. -/
theorem Mirrors.encodeElement (h : ∀ o, Mirrors R (put o) (put' o)) (c : Encoder) (depth : Nat)
    (e : Element) : Mirrors R (encodeElement c put depth e) (encodeElement c put' depth e) := by
  induction e generalizing depth with
  | element e ih =>
    rw [encodeElement_eq, encodeElement_eq]
    by_cases hdepth : c.config.maxDepth < depth
    · rw [if_pos hdepth, if_pos hdepth]
      exact fun _ _ hst => ⟨rfl, hst⟩
    · have hchildren := Mirrors.encodeChildren fun child hchild => ih child hchild (depth + 1)
      rw [if_neg hdepth, if_neg hdepth]
      exact (Mirrors.lift _).bind fun type => hchildren.bind fun addresses =>
        (Mirrors.lift _).bind fun shape => Mirrors.storeShape h shape

end Mirrors

/-- Notes the objects that are handed over. -/
def noting : Put (List Object) := fun o noted => (.ok (), noted ++ [o])

/-- The objects that the encoder hands over by itself, in their order. -/
def handed (c : Encoder) (root : Element) : List Object :=
  (c.encode noting root []).2

theorem replays_noting {noted last : List Object} {calls : List PutCall}
    (h : Replays noting noted calls last) :
    ∃ objects : List Object, calls = objects.map .stored ∧ last = noted ++ objects := by
  induction h with
  | nil => exact ⟨[], rfl, (List.append_nil _).symm⟩
  | @stored noted next last o calls hput _ ih =>
    obtain ⟨objects, rfl, rfl⟩ := ih
    cases hput
    exact ⟨o :: objects, rfl, by rw [List.append_assoc, List.singleton_append]⟩
  | refused hput _ _ => cases hput

section

variable {σ : Type} {put : Put σ}

theorem run_handed (hput : NeverFails put) (c : Encoder) (root : Element) (s : σ) :
    c.ElementRun 1 root ((c.handed root).map .stored) (c.encode put root s).1 ∧
      Replays put s ((c.handed root).map .stored) (c.encode put root s).2 := by
  -- the state of the put is always what comes of the objects noted so far
  have hmirrors : ∀ o, Mirrors (fun last noted => Replays put s (List.map .stored noted) last)
      (put o) (noting o) := by
    intro o last noted hreplay
    have hok : put o last = (.ok (), (put o last).2) := Prod.ext (hput o last) rfl
    refine ⟨hput o last, ?_⟩
    have hall := hreplay.append (.stored hok .nil)
    simpa [noting] using hall
  obtain ⟨hanswer, hreplay⟩ := Mirrors.encodeElement hmirrors c 1 root s [] .nil
  obtain ⟨calls, hrun, hnoted⟩ := exists_elementRun noting c 1 root []
  obtain ⟨objects, rfl, hobjects⟩ := replays_noting hnoted
  have hhanded : c.handed root = objects := hobjects
  refine ⟨?_, hreplay⟩
  rw [hhanded, encode, hanswer]
  exact hrun

/-- Whatever the schedule, the root, the objects handed over and the store are the same, and what
fails by itself fails by every schedule. -/
theorem every_schedule_agrees (hput : NeverFails put) (c : Encoder) (root : Element) (s : σ) :
    (c.ElementRun 1 root ((c.handed root).map .stored) (c.encode put root s).1 ∧
      Replays put s ((c.handed root).map .stored) (c.encode put root s).2) ∧
    (∀ calls outcome last, c.ElementRun 1 root calls outcome → Replays put s calls last →
      (∀ r, (c.encode put root s).1 = .ok r → outcome = .ok r ∧
        ∃ objects : List Object, calls = objects.map .stored ∧ objects.Perm (c.handed root)) ∧
      ∀ cause, (c.encode put root s).1 = .error cause → ∃ other, outcome = .error other) ∧
    ∀ (store last : MemoryStore) calls outcome r, (c.encode put root s).1 = .ok r →
      c.ElementRun 1 root calls outcome → Replays Store.put store calls last →
      (Separates fun data => ∃ o ∈ c.handed root, o.data = data) →
      c.encode Store.put root store = (outcome, last) := by
  have hstore : NeverFails (Store.put : Put MemoryStore) := fun _ _ => rfl
  have hagree {calls : List PutCall} {outcome : Except EncodeError Address} {r : Address}
      (hr : (c.encode put root s).1 = .ok r) (hrun : c.ElementRun 1 root calls outcome)
      (hunrefused : Unrefused calls) : outcome = .ok r ∧
        ∃ objects : List Object, calls = objects.map .stored ∧ objects.Perm (c.handed root) := by
    obtain ⟨hanswer, hperm⟩ := (run_handed hput c root s).1.agrees r hr _ _ hrun hunrefused
    obtain ⟨objects, rfl⟩ := exists_stored_of_unrefused hunrefused
    have hinjective : Function.Injective PutCall.stored := fun _ _ => PutCall.stored.inj
    exact ⟨hanswer, objects, rfl, (List.map_perm_map_iff hinjective).mp hperm⟩
  refine ⟨run_handed hput c root s, ?_, ?_⟩
  · intro calls outcome last hrun hreplay
    refine ⟨fun r hr => hagree hr hrun (hreplay.unrefused hput), fun cause hcause => ?_⟩
    cases outcome with
    | error other => exact ⟨other, rfl⟩
    | ok r =>
      have hok := hrun.encodeElement_ok hput r rfl 1 (Nat.le_refl 1) s
      rw [encode, hok] at hcause
      cases hcause
  · intro store last calls outcome r hr hrun hreplay hseparates
    obtain ⟨rfl, objects, rfl, hperm⟩ := hagree hr hrun (hreplay.unrefused hstore)
    have hok := hrun.encodeElement_ok hstore r rfl 1 (Nat.le_refl 1) store
    have hlast := MemoryStore.eq_of_replays_perm hperm hreplay (run_handed hstore c root store).2
      hseparates
    exact Prod.ext hok hlast.symm

end

def otherLeaf : Element :=
  ⟨none, "c", [], [], ["y"]⟩

def siblings : Element :=
  ⟨none, "a", [], [smallLeaf, otherLeaf], ["", "", ""]⟩

def otherLeafShape : Shape :=
  .leaf "Title" "y" (attributesOf otherLeaf)

def otherLeafObject : Object :=
  ⟨Block.ofData .node otherLeafShape.toNode.encode, otherLeafShape.toNode, some "Title", rfl, rfl,
    rfl⟩

def siblingsShape : Shape :=
  .composite "Title" (attributesOf siblings)
    ((groupByField siblings [smallLeafObject.address, otherLeafObject.address]).mapValues
      fieldOf) []

def siblingsObject : Object :=
  ⟨Block.ofData .node siblingsShape.toNode.encode, siblingsShape.toNode, some "Title", rfl, rfl,
    rfl⟩

/-- The second sibling is stored before the first one. -/
def swappedCalls : List PutCall :=
  [.stored otherLeafObject, .stored smallLeafObject, .stored siblingsObject]

theorem siblings_run : smallEncoder.ElementRun 1 siblings swappedCalls
    (.ok siblingsObject.address) := by
  have hfirst : smallEncoder.ElementRun 2 smallLeaf [.stored smallLeafObject]
      (.ok smallLeafObject.address) :=
    @ElementRun.of_childless _ 2 smallLeaf "Title" smallLeafShape _ rfl (by decide) rfl rfl rfl
  have hsecond : smallEncoder.ElementRun 2 otherLeaf [.stored otherLeafObject]
      (.ok otherLeafObject.address) :=
    @ElementRun.of_childless _ 2 otherLeaf "Title" otherLeafShape _ rfl (by decide) rfl rfl rfl
  have hchildren := ChildrenRun.run hfirst (.run hsecond .nil (.left .nil)) (.right (.left .nil))
  exact @ElementRun.built _ 1 siblings "Title" [.stored otherLeafObject, .stored smallLeafObject] _
    [smallLeafObject.address, otherLeafObject.address] _ (by decide) rfl hchildren
    (@ShapeRun.stored _ siblingsShape _ rfl rfl)

theorem siblings_apart :
    ([otherLeafObject, smallLeafObject, siblingsObject].map Object.address).Nodup := by
  decide +kernel

theorem every_schedule_agrees_on_siblings :
    ∃ (objects : List Object) (last : MemoryStore), swappedCalls = objects.map .stored ∧
      objects.Perm (smallEncoder.handed siblings) ∧
      Replays Store.put MemoryStore.empty swappedCalls last ∧
      smallEncoder.encode Store.put siblings .empty = (.ok siblingsObject.address, last) := by
  have hnever : NeverFails noting := fun _ _ => rfl
  obtain ⟨last, hreplay⟩ : ∃ last, Replays Store.put MemoryStore.empty swappedCalls last :=
    ⟨_, .stored rfl (.stored rfl (.stored rfl .nil))⟩
  have hanswer : (smallEncoder.encode noting siblings []).1 = .ok siblingsObject.address :=
    siblings_run.encodeElement_ok hnever _ rfl 1 (Nat.le_refl 1) _
  obtain ⟨-, hagree, hstores⟩ := every_schedule_agrees hnever smallEncoder siblings []
  have hnoted : Replays noting [] swappedCalls [otherLeafObject, smallLeafObject, siblingsObject] :=
    .stored rfl (.stored rfl (.stored rfl .nil))
  obtain ⟨-, objects, hcalls, hperm⟩ := (hagree _ _ _ siblings_run hnoted).1 _ hanswer
  have hobjects : objects = [otherLeafObject, smallLeafObject, siblingsObject] := by
    have hinjective : Function.Injective PutCall.stored := fun _ _ => PutCall.stored.inj
    exact List.map_injective_iff.mpr hinjective hcalls.symm
  have hseparates : Separates fun data => ∃ o ∈ smallEncoder.handed siblings, o.data = data := by
    simpa only [← hperm.mem_iff, hobjects] using separates_of_nodup siblings_apart
  exact ⟨objects, last, hcalls, hperm, hreplay,
    hstores _ _ _ _ _ hanswer siblings_run hreplay hseparates⟩

end Encoder

end ContentGraph
