import ContentGraph.Proofs.Retrieval

/-! The address of a root stands for everything that is read through it. Whatever two backends hold,
two answers to the same question are the same one, or the two runs have been given different bytes
that hash to one address. -/

namespace ContentGraph

namespace Store

variable {σ τ : Type} [Backend σ] [Backend τ] {s : σ} {t : τ}

/-- Under an address that both runs fetch the backends hold different bytes, both of which hash to
it. -/
def Clash (s : σ) (t : τ) (fetched fetched' : List Address) : Prop :=
  ∃ a x y, a ∈ fetched ∧ a ∈ fetched' ∧ Backend.read s a.text = .ok (some x) ∧
    Backend.read t a.text = .ok (some y) ∧ x ≠ y ∧ Address.derive a.codec x = a ∧
    Address.derive a.codec y = a

theorem Clash.mono {fetched fetched' more more' : List Address} (h : Clash s t fetched fetched')
    (hmore : ∀ a ∈ fetched, a ∈ more) (hmore' : ∀ a ∈ fetched', a ∈ more') :
    Clash s t more more' := by
  obtain ⟨a, x, y, ha, ha', hrest⟩ := h
  exact ⟨a, x, y, hmore a ha, hmore' a ha', hrest⟩

theorem Clash.of_mem {a : Address} {fetched fetched' : List Address} (h : Clash s t [a] [a])
    (ha : a ∈ fetched) (ha' : a ∈ fetched') : Clash s t fetched fetched' :=
  h.mono (fun b hb => by rwa [List.mem_singleton.mp hb])
    fun b hb => by rwa [List.mem_singleton.mp hb]

theorem Clash.cons {a b : Address} {fetched fetched' : List Address}
    (h : Clash s t fetched fetched') : Clash s t (a :: fetched) (b :: fetched') :=
  h.mono (fun _ => List.mem_cons_of_mem _) fun _ => List.mem_cons_of_mem _

theorem get_eq_or_clash {a : Address} {o o' : Object} (ho : get s a = .ok o)
    (ho' : get t a = .ok o') : o = o' ∨ Clash s t [a] [a] := by
  obtain ⟨x, hread, hobject⟩ := get_eq_ok_iff.mp ho
  obtain ⟨y, hread', hobject'⟩ := get_eq_ok_iff.mp ho'
  by_cases hsame : x = y
  · subst hsame
    rw [hobject] at hobject'
    exact .inl (Except.ok.inj hobject')
  · have hx := (Object.read_eq_ok_iff.mp hobject).2.1
    have hy := (Object.read_eq_ok_iff.mp hobject').2.1
    exact .inr ⟨a, x, y, by simp, by simp, hread, hread', hsame, hx, hy⟩

end Store

namespace Graph

/-- A path that leads to a tree ends in the object it starts in, or goes on behind a link. -/
theorem follow_eq_ok {g : Graph} {whole path : List String} {hops : Nat} {tree n : Node}
    (h : (g.follow whole hops tree path).result = .ok n) :
    tree.descend path = some (n, []) ∨
      ∃ target o less segment rest, hops = less + 1 ∧
        tree.descend path = some (.link target, segment :: rest) ∧ g.fetch target = .ok o ∧
        (g.follow whole less o.tree (segment :: rest)).result = .ok n ∧
        (g.follow whole hops tree path).fetched =
          target :: (g.follow whole less o.tree (segment :: rest)).fetched := by
  rw [follow] at h
  split at h
  · cases h
  · next hdescend =>
    cases h
    exact .inl hdescend
  · next reached segment rest hdescend =>
    split at h
    · next target =>
      split at h
      · cases h
      · next less =>
        split at h
        · cases h
        · next o ho =>
          refine .inr ⟨target, o, less, segment, rest, rfl, hdescend, ho, h, ?_⟩
          rw [follow, hdescend]
          simp only [ho]
    · cases h

theorem traceObject_eq_ok {g : Graph} {path : List String} {o : Object}
    (h : (g.traceObject path).result = .ok o) :
    (g.get path = .ok (.object o) ∧ (g.traceObject path).fetched = (g.traceGet path).fetched) ∨
      ∃ target, g.get path = .ok (.value (.link target)) ∧ g.fetch target = .ok o ∧
        (g.traceObject path).fetched = (g.traceGet path).fetched ++ [target] := by
  simp only [traceObject] at h
  split at h
  · cases h
  · next root hroot =>
    cases h
    refine .inl ⟨hroot, ?_⟩
    simp only [traceObject, hroot]
  · next target htarget =>
    dsimp only at h
    split at h
    · next found hfound =>
      cases h
      refine .inr ⟨target, htarget, hfound, ?_⟩
      simp only [traceObject, htarget]
    · cases h
  · cases h

section

variable {σ τ : Type} [Backend σ] [Backend τ] {s : σ} {t : τ} {g g' : Graph}

theorem follow_eq_or_clash (hs : g.fetch = Store.get s) (ht : g'.fetch = Store.get t)
    {whole path : List String} {hops : Nat} {tree n n' : Node}
    (h : (g.follow whole hops tree path).result = .ok n)
    (h' : (g'.follow whole hops tree path).result = .ok n') :
    n = n' ∨ Store.Clash s t (g.follow whole hops tree path).fetched
      (g'.follow whole hops tree path).fetched := by
  -- both runs stand in the same tree, so they end there together or go on behind the same link
  induction hops generalizing tree path with
  | zero =>
    rcases follow_eq_ok h with hend | ⟨_, _, _, _, _, hhops, -⟩
    · rcases follow_eq_ok h' with hend' | ⟨_, _, _, _, _, hhops, -⟩
      · rw [hend] at hend'
        cases hend'
        exact .inl rfl
      · cases hhops
    · cases hhops
  | succ hops ih =>
    rcases follow_eq_ok h with hend | ⟨a, o, less, segment, rest, hless, hlink, ho, hn, hfetched⟩
    · rcases follow_eq_ok h' with hend' | ⟨_, _, _, _, _, -, hlink', -⟩
      · rw [hend] at hend'
        cases hend'
        exact .inl rfl
      · rw [hend] at hlink'
        cases hlink'
    · rcases follow_eq_ok h' with hend' | ⟨b, o', _, _, _, hless', hlink', ho', hn', hfetched'⟩
      · rw [hlink] at hend'
        cases hend'
      · rw [hlink] at hlink'
        cases hlink'
        cases hless
        cases hless'
        rw [hs] at ho
        rw [ht] at ho'
        rw [hfetched, hfetched']
        rcases Store.get_eq_or_clash ho ho' with rfl | hclash
        · rcases ih hn hn' with hsame | hclash
          · exact .inl hsame
          · exact .inr hclash.cons
        · exact .inr (hclash.of_mem List.mem_cons_self List.mem_cons_self)

theorem get_eq_or_clash (hs : g.fetch = Store.get s) (ht : g'.fetch = Store.get t)
    (hroot : g.root = g'.root) (hconfig : g.config = g'.config) {path : List String}
    {x y : Resolved} (h : g.get path = .ok x) (h' : g'.get path = .ok y) :
    x = y ∨ Store.Clash s t (g.traceGet path).fetched (g'.traceGet path).fetched := by
  unfold get traceGet at h h'
  unfold traceGet
  by_cases hempty : isRootPath path = true
  · rw [if_pos hempty] at h h'
    cases h
    cases h'
    rw [hroot]
    exact .inl rfl
  · rw [if_neg hempty] at h h' ⊢
    rw [if_neg hempty]
    obtain ⟨n, hn, rfl⟩ := map_eq_ok_iff.mp h
    obtain ⟨n', hn', rfl⟩ := map_eq_ok_iff.mp h'
    rw [hroot, hconfig] at hn ⊢
    rcases follow_eq_or_clash hs ht hn hn' with rfl | hclash
    · exact .inl rfl
    · exact .inr hclash

theorem getObject_eq_or_clash (hs : g.fetch = Store.get s) (ht : g'.fetch = Store.get t)
    (hroot : g.root = g'.root) (hconfig : g.config = g'.config) {path : List String}
    {o o' : Object} (h : g.getObject path = .ok o) (h' : g'.getObject path = .ok o') :
    o = o' ∨ Store.Clash s t (g.traceObject path).fetched (g'.traceObject path).fetched := by
  have hsame {x y : Resolved} (hx : g.get path = .ok x) (hy : g'.get path = .ok y) :=
    get_eq_or_clash hs ht hroot hconfig hx hy
  rcases traceObject_eq_ok h with ⟨hget, hfetched⟩ | ⟨a, hget, ho, hfetched⟩
  · rcases traceObject_eq_ok h' with ⟨hget', hfetched'⟩ | ⟨b, hget', ho', hfetched'⟩
    · rw [hfetched, hfetched']
      exact (hsame hget hget').imp_left Resolved.object.inj
    · rcases hsame hget hget' with heq | hclash
      · cases heq
      · rw [hfetched, hfetched']
        exact .inr (hclash.mono (fun _ ha => ha) fun _ => List.mem_append_left _)
  · rcases traceObject_eq_ok h' with ⟨hget', hfetched'⟩ | ⟨b, hget', ho', hfetched'⟩
    · rcases hsame hget hget' with heq | hclash
      · cases heq
      · rw [hfetched, hfetched']
        exact .inr (hclash.mono (fun _ => List.mem_append_left _) fun _ ha => ha)
    · rw [hfetched, hfetched']
      rcases hsame hget hget' with heq | hclash
      · cases heq
        rw [hs] at ho
        rw [ht] at ho'
        have hlast (fetched : List Address) : a ∈ fetched ++ [a] := by simp
        exact (Store.get_eq_or_clash ho ho').imp_right fun h => h.of_mem (hlast _) (hlast _)
      · exact .inr (hclash.mono (fun _ => List.mem_append_left _) fun _ => List.mem_append_left _)

theorem open_eq_ok {fetch : Fetch} {r : Address} (h : Graph.open fetch r = .ok g) :
    fetch r = .ok g.root ∧ g.fetch = fetch := by
  unfold Graph.open at h
  split at h
  · next root hroot =>
    cases h
    exact ⟨hroot, rfl⟩
  · cases h

def limitedTo (g : Graph) (limits : GraphConfig) : Graph :=
  { g with config := limits }

/-- A root address authenticates every answer read through it, a tree or an object. -/
theorem root_authenticates (s : σ) (t : τ) (r : Address) (g g' : Graph)
    (hg : Graph.open (Store.get s) r = .ok g) (hg' : Graph.open (Store.get t) r = .ok g')
    (limits : GraphConfig) (path : List String) :
    (∀ x y, (g.limitedTo limits).get path = .ok x →
      (g'.limitedTo limits).get path = .ok y → x = y ∨
        Store.Clash s t (r :: ((g.limitedTo limits).traceGet path).fetched)
          (r :: ((g'.limitedTo limits).traceGet path).fetched)) ∧
    ∀ o o', (g.limitedTo limits).getObject path = .ok o →
      (g'.limitedTo limits).getObject path = .ok o' → o = o' ∨
        Store.Clash s t (r :: ((g.limitedTo limits).traceObject path).fetched)
          (r :: ((g'.limitedTo limits).traceObject path).fetched) := by
  obtain ⟨hroot, hs⟩ := open_eq_ok hg
  obtain ⟨hroot', ht⟩ := open_eq_ok hg'
  have hfetch : (g.limitedTo limits).fetch = Store.get s := hs
  have hfetch' : (g'.limitedTo limits).fetch = Store.get t := ht
  rcases Store.get_eq_or_clash hroot hroot' with hsame | hclash
  · refine ⟨fun x y hx hy => ?_, fun o o' ho ho' => ?_⟩
    · have h := get_eq_or_clash hfetch hfetch' hsame rfl hx hy
      exact h.imp_right fun hclash => hclash.cons
    · have h := getObject_eq_or_clash hfetch hfetch' hsame rfl ho ho'
      exact h.imp_right fun hclash => hclash.cons
  · have hfirst (fetched fetched' : List Address) :
        Store.Clash s t (r :: fetched) (r :: fetched') :=
      hclash.of_mem List.mem_cons_self List.mem_cons_self
    exact ⟨fun _ _ _ _ => .inr (hfirst _ _), fun _ _ _ _ => .inr (hfirst _ _)⟩

end

open Encoder

/-- A document of two objects. -/
def smallStore : MemoryStore :=
  (Store.put smallObject (Store.put smallLeafObject MemoryStore.empty).2).2

/-- The same document in a store that holds junk beside it. -/
def litteredStore : MemoryStore :=
  smallStore.corrupt "junk" [0]

theorem get_smallStore {o : Object} (ho : .stored o ∈ smallCalls) {shape : Shape}
    (hobject : Object.ofNode shape.toNode = .ok o) : Store.get smallStore o.address = .ok o := by
  have hput (o : Object) (m : MemoryStore) : Store.put o m = (.ok (), (Store.put o m).2) := rfl
  have hreplay : Replays Store.put MemoryStore.empty smallCalls smallStore :=
    .stored (hput _ _) (.stored (hput _ _) .nil)
  have hcanonical := canonical_of_shape hobject (smallCalls_short ho)
  exact MemoryStore.get_of_stored hreplay (fun _ _ h => nomatch h) smallCalls_separate ho hcanonical

theorem get_smallLeafObject : Store.get smallStore smallLeafObject.address = .ok smallLeafObject :=
  get_smallStore (by simp [smallCalls]) (rfl : Object.ofNode smallLeafShape.toNode = _)

theorem get_litteredStore (a : Address) : Store.get litteredStore a = Store.get smallStore a := by
  have hkey : a.text ≠ "junk" := fun h =>
    absurd (List.cons.inj (String.ofList_injective h)).1 (by decide)
  have hentry : litteredStore.table.get? a.text = smallStore.table.get? a.text := by
    rw [litteredStore, MemoryStore.corrupt, Table.get?_insert, if_neg hkey]
  have hread : Backend.read litteredStore a.text = Backend.read smallStore a.text :=
    congrArg Except.ok hentry
  rw [Store.get, hread, Store.get]

theorem get_value_of_leaf {g : Graph} (hroot : g.root = smallObject)
    (hleaf : g.fetch smallLeafObject.address = .ok smallLeafObject) (hhops : g.config = ⟨1⟩) :
    g.get ["b", valueField] = .ok (.value (.string "x")) := by
  have hlink : smallObject.tree.descend ["b", valueField] =
      some (.link smallLeafObject.address, [valueField]) := rfl
  have hvalue : smallLeafObject.tree.descend [valueField] = some (.string "x", []) := rfl
  rw [get_eq (by simp) (by simp), hroot, hhops, follow_link hlink hleaf, follow_end hvalue]
  rfl

theorem exists_open_of_document {fetch : Fetch}
    (hroot : fetch smallObject.address = .ok smallObject)
    (hleaf : fetch smallLeafObject.address = .ok smallLeafObject) :
    ∃ g, Graph.open fetch smallObject.address = .ok g ∧
      (g.limitedTo ⟨1⟩).get ["b", valueField] = .ok (.value (.string "x")) := by
  obtain ⟨g, hopen⟩ : ∃ g, Graph.open fetch smallObject.address = .ok g := by
    simp only [Graph.open, hroot, Except.ok.injEq, exists_eq']
  obtain ⟨hfetched, hfetch⟩ := open_eq_ok hopen
  have hsame : g.root = smallObject := Except.ok.inj (hfetched.symm.trans hroot)
  rw [← hfetch] at hleaf
  exact ⟨g, hopen, get_value_of_leaf hsame hleaf rfl⟩

theorem root_authenticates_small_document :
    ∃ g g' x y, Graph.open (Store.get smallStore) smallObject.address = .ok g ∧
      Graph.open (Store.get litteredStore) smallObject.address = .ok g' ∧
      (g.limitedTo ⟨1⟩).get ["b", valueField] = .ok x ∧
      (g'.limitedTo ⟨1⟩).get ["b", valueField] = .ok y ∧ (x = y ∨
        Store.Clash smallStore litteredStore
          (smallObject.address :: ((g.limitedTo ⟨1⟩).traceGet ["b", valueField]).fetched)
          (smallObject.address :: ((g'.limitedTo ⟨1⟩).traceGet ["b", valueField]).fetched)) := by
  have hleaf : Store.get smallStore smallLeafObject.address = .ok smallLeafObject :=
    get_smallStore (by simp [smallCalls]) (rfl : Object.ofNode smallLeafShape.toNode = _)
  have hroot : Store.get smallStore smallObject.address = .ok smallObject :=
    get_smallStore (by simp [smallCalls]) (rfl : Object.ofNode smallShape.toNode = _)
  obtain ⟨g, hopen, hx⟩ := exists_open_of_document hroot hleaf
  obtain ⟨g', hopen', hy⟩ := exists_open_of_document ((get_litteredStore _).trans hroot)
    ((get_litteredStore _).trans hleaf)
  have hsame := (root_authenticates smallStore litteredStore smallObject.address g g' hopen hopen'
    ⟨1⟩ ["b", valueField]).1 _ _ hx hy
  exact ⟨g, g', _, _, hopen, hopen', hx, hy, hsame⟩

end Graph

end ContentGraph
