import ContentGraph.Proofs.Publication
import ContentGraph.Proofs.PutSequences

/-! Contexts that are published are the contexts that are loaded again, in the order in which they
are asked for. An object is read as a context by what it holds as its context and by nothing else, so
the terms come back as they were. -/

namespace ContentGraph

theorem Node.Ordered.child? {n m : Node} {segment : String} (h : n.Ordered)
    (hm : n.child? segment = some m) : m.Ordered := by
  cases n with
  | list items =>
    obtain ⟨i, -, hi⟩ := Option.bind_eq_some_iff.mp hm
    exact orderedItems_iff.mp h m (List.mem_of_getElem? hi)
  | map entries => exact orderedEntries_iff.mp h.2 _ (Entries.mem_of_get? hm)
  | _ => cases hm

namespace Context

variable {c : Context} {o : Object}

theorem child?_toNode (c : Context) (key : String) :
    c.toNode.child? key =
      if key = contextField then some (.map (Entries.mapValues .string c.terms.entries))
      else if key = typeField then some (.string contextType)
      else none := by
  show Entries.get? (Entries.ofList _) key = _
  rw [Entries.get?_ofList]
  simp only [List.reverse_cons, List.reverse_nil, List.nil_append, List.cons_append,
    Entries.get?_cons, Entries.get?_nil]

theorem ordered_toNode (c : Context) : c.toNode.Ordered := by
  refine ⟨Entries.sorted_ofList _, Node.orderedEntries_iff.mpr fun e he => ?_⟩
  rcases List.mem_cons.mp (Entries.mem_of_mem_ofList he) with rfl | he
  · trivial
  · obtain rfl := List.mem_singleton.mp he
    refine ⟨c.terms.sorted.mapValues _, Node.orderedEntries_iff.mpr fun e he => ?_⟩
    obtain ⟨term, -, rfl⟩ := List.mem_map.mp he
    trivial

theorem nesting_toNode_le (c : Context) : c.toNode.nesting ≤ 2 := by
  refine Node.nestingOfEntries_le_iff.mpr fun e he => Nat.lt_succ_of_le ?_
  rcases List.mem_cons.mp (Entries.mem_of_mem_ofList he) with rfl | he
  · exact Nat.zero_le 1
  · obtain rfl := List.mem_singleton.mp he
    refine Node.nestingOfEntries_le_iff.mpr fun e he => ?_
    obtain ⟨term, -, rfl⟩ := List.mem_map.mp he
    exact Nat.one_pos

theorem exists_toObject (c : Context) : ∃ o, c.toObject = .ok o := by
  have htype : c.toNode.declaredType = .ok (some contextType) := by
    rw [Node.declaredType_eq_ok_iff, child?_toNode]
    rfl
  obtain ⟨o, ho, -⟩ := Object.exists_ofNode htype
  exact ⟨o, ho⟩

theorem termsOf_eq_ok_iff {entries : List (String × Node)} {terms : List (String × String)} :
    termsOf entries = .ok terms ↔ entries = Entries.mapValues .string terms := by
  induction entries generalizing terms with
  | nil => cases terms <;> simp [termsOf, Entries.mapValues]
  | cons e rest ih =>
    obtain ⟨name, value⟩ := e
    cases value with
    | string type =>
      simp only [termsOf, bind_eq_ok_iff, pure_eq_ok_iff, ih]
      constructor
      · rintro ⟨others, rfl, rfl⟩
        rfl
      · intro h
        obtain ⟨term, others, rfl, hfirst, hothers⟩ := List.map_eq_cons_iff.mp h.symm
        cases hfirst
        exact ⟨others, hothers.symm, rfl⟩
    | _ => cases terms <;> simp [termsOf, Entries.mapValues]

theorem exists_mapValues_iff {entries : List (String × Node)} :
    (∃ terms, entries = Entries.mapValues .string terms) ↔
      ∀ e ∈ entries, ∃ type, e.2 = .string type := by
  constructor
  · rintro ⟨terms, rfl⟩ e he
    obtain ⟨term, -, rfl⟩ := List.mem_map.mp he
    exact ⟨term.2, rfl⟩
  · intro h
    induction entries with
    | nil => exact ⟨[], rfl⟩
    | cons e rest ih =>
      obtain ⟨name, value⟩ := e
      obtain ⟨⟨type, rfl⟩, hrest⟩ := List.forall_mem_cons.mp h
      obtain ⟨terms, rfl⟩ := ih hrest
      exact ⟨(name, type) :: terms, rfl⟩

theorem ofNode_eq_ok_iff {n : Node} :
    ofNode n = .ok c ↔ ∃ terms,
      n.child? contextField = some (.map (Entries.mapValues .string terms)) ∧
        ofTerms terms = c := by
  unfold ofNode
  cases n.child? contextField with
  | none => simp
  | some value =>
    cases value with
    | map entries =>
      simp only [map_eq_ok_iff, termsOf_eq_ok_iff, Option.some.injEq, Node.map.injEq]
    | _ => simp

theorem ofObject_eq_ok_iff_ofNode : ofObject o = .ok c ↔ ofNode o.tree = .ok c := by
  unfold ofObject
  cases ofNode o.tree <;> simp

theorem exists_ofObject_iff : (∃ c, ofObject o = .ok c) ↔
    ∃ entries, o.tree.child? contextField = some (.map entries) ∧
      ∀ e ∈ entries, ∃ type, e.2 = .string type := by
  simp only [ofObject_eq_ok_iff_ofNode, ofNode_eq_ok_iff, ← exists_mapValues_iff]
  constructor
  · rintro ⟨c, terms, hchild, -⟩
    exact ⟨_, hchild, terms, rfl⟩
  · rintro ⟨_, hchild, terms, rfl⟩
    exact ⟨ofTerms terms, terms, hchild, rfl⟩

theorem ofObject_eq_ok_iff (h : o.tree.Ordered) :
    ofObject o = .ok c ↔
      o.tree.child? contextField = some (.map (Entries.mapValues .string c.terms.entries)) := by
  rw [ofObject_eq_ok_iff_ofNode, ofNode_eq_ok_iff]
  constructor
  · rintro ⟨terms, hchild, rfl⟩
    have hsorted : Entries.Sorted terms := Entries.sorted_mapValues_iff.mp (h.child? hchild).1
    have hterms : (ofTerms terms).terms.entries = terms := Entries.ofList_of_sorted hsorted
    rw [hterms, hchild]
  · intro hchild
    exact ⟨c.terms.entries, hchild, congrArg Context.mk (Table.ofList_entries c.terms)⟩

theorem ofObject_toObject (h : c.toObject = .ok o) : ofObject o = .ok c := by
  have htree := (Object.tree_of_ofNode h).1
  rw [ofObject_eq_ok_iff (htree ▸ c.ordered_toNode), htree, child?_toNode, if_pos rfl]

theorem canonical_of_toObject (h : c.toObject = .ok o) (hsized : c.toNode.Sized) :
    Node.Canonical o.data o.tree := by
  have htree := (Object.tree_of_ofNode h).1
  have hshallow : c.toNode.nesting ≤ Node.maxDepth := Nat.le_trans c.nesting_toNode_le (by decide)
  exact ⟨o.encoded.symm, htree ▸ c.ordered_toNode, htree ▸ hsized, htree ▸ hshallow⟩

theorem load_of_stored {m last : MemoryStore} {calls : List PutCall}
    (hreplay : Replays Store.put m calls last) (hmatches : m.Matches)
    (hseparates : Separates (m.Involved calls)) (h : c.toObject = .ok o)
    (hsized : c.toNode.Sized) (ho : .stored o ∈ calls) : load last o.address = .ok c := by
  have hget := MemoryStore.get_of_stored hreplay hmatches hseparates ho
    (canonical_of_toObject h hsized)
  rw [load, hget]
  exact ofObject_toObject h

theorem exists_objects (contexts : List Context) :
    ∃ objects, contexts.mapM toObject = .ok objects := by
  induction contexts with
  | nil => exact ⟨[], rfl⟩
  | cons c rest ih =>
    obtain ⟨o, ho⟩ := c.exists_toObject
    obtain ⟨objects, hobjects⟩ := ih
    exact ⟨o :: objects, mapM_cons_eq_ok_iff.mpr ⟨o, objects, ho, hobjects, rfl⟩⟩

theorem loadAll_of_load {σ : Type} [Backend σ] {state : σ} {contexts : List Context}
    {objects : List Object} (hobjects : contexts.mapM toObject = .ok objects)
    (hload : ∀ c ∈ contexts, ∀ o ∈ objects, c.toObject = .ok o → load state o.address = .ok c) :
    loadAll state (objects.map Object.address) = .ok contexts := by
  induction contexts generalizing objects with
  | nil =>
    cases hobjects
    rfl
  | cons c rest ih =>
    obtain ⟨o, others, ho, hothers, rfl⟩ := mapM_cons_eq_ok_iff.mp hobjects
    have hfirst := hload c List.mem_cons_self o List.mem_cons_self ho
    have hrest := ih hothers fun c hc o ho =>
      hload c (List.mem_cons_of_mem _ hc) o (List.mem_cons_of_mem _ ho)
    rw [List.map_cons, loadAll, hfirst, hrest]
    rfl

/-- An object is a context exactly if it holds a map of texts as one, and the terms are that map.
Contexts that are published, in any order and any number of times, are loaded as they were. That no
two of the byte strings share an address is what the hash function is trusted with, and that lengths
fit their prefixes is what memory sees to. -/
theorem contexts_survive_publication :
    (∀ o : Object, o.tree.Ordered →
      ((∃ c, ofObject o = .ok c) ↔ ∃ entries, o.tree.child? contextField = some (.map entries) ∧
        ∀ e ∈ entries, ∃ type, e.2 = .string type) ∧
      ∀ c, ofObject o = .ok c ↔
        o.tree.child? contextField = some (.map (Entries.mapValues .string c.terms.entries))) ∧
    ∀ (m : MemoryStore) (contexts : List Context), m.Matches → (∀ c ∈ contexts, c.toNode.Sized) →
      (Separates fun data =>
        (∃ key, m.table.get? key = some data) ∨ ∃ c ∈ contexts, c.toNode.encode = data) →
      ∃ objects last loaded, contexts.mapM toObject = .ok objects ∧
        Store.putAll objects m = (.ok (), last) ∧
        loadAll last (objects.map Object.address) = .ok loaded ∧ loaded = contexts ∧
        ∀ uri name, resolveInOrder loaded uri name = resolveInOrder contexts uri name := by
  refine ⟨fun o h => ⟨exists_ofObject_iff, fun c => ofObject_eq_ok_iff h⟩, ?_⟩
  intro m contexts hmatches hsized hseparates
  obtain ⟨objects, hobjects⟩ := exists_objects contexts
  obtain ⟨last, hput, hreplay⟩ := Store.exists_replays_putAll objects m
  have hinvolved : Separates (m.Involved (objects.map .stored)) := by
    refine hseparates.of_imp fun data hdata => hdata.imp_right ?_
    rintro ⟨o, ho, rfl⟩
    obtain ⟨_, hmem, heq⟩ := List.mem_map.mp ho
    obtain rfl := PutCall.stored.inj heq
    obtain ⟨c, hc, hco⟩ := exists_of_mem_mapM hobjects hmem
    exact ⟨c, hc, (Object.tree_of_ofNode hco).2.2.symm⟩
  -- A context may be published twice: its object is looked for among all puts, not at its place.
  have hload : loadAll last (objects.map Object.address) = .ok contexts :=
    loadAll_of_load hobjects fun c hc o ho hco =>
      load_of_stored hreplay hmatches hinvolved hco (hsized c hc) (List.mem_map_of_mem ho)
  exact ⟨objects, last, contexts, hobjects, hput, hload, rfl, fun _ _ => rfl⟩

end Context

def laterContext : Context :=
  .ofTerms [("a", "Other"), ("u:a", "Qualified")]

def laterContextObject : Object :=
  ⟨Block.ofData .node laterContext.toNode.encode, laterContext.toNode, some contextType, rfl, rfl,
    rfl⟩

theorem contextObjects_apart :
    ([smallContextObject, laterContextObject].map Object.address).Nodup := by
  decide +kernel

theorem contexts_survive_publication_with_repeats :
    (∃ c, Context.ofObject smallContextObject = .ok c) ∧
      ∃ objects last,
        [laterContext, smallContext, laterContext].mapM Context.toObject = .ok objects ∧
        Store.putAll objects contextStore = (.ok (), last) ∧
        Context.loadAll last (objects.map Object.address) =
          .ok [laterContext, smallContext, laterContext] := by
  obtain ⟨hread, hpublish⟩ := Context.contexts_survive_publication
  have hcontext : smallContextObject.tree.child? contextField = some
      (.map (Entries.mapValues .string smallContext.terms.entries)) := rfl
  have hsized : ∀ c ∈ [laterContext, smallContext, laterContext], c.toNode.Sized := by
    have hlater : laterContext.toNode.Sized := Node.sized_of_length_encode_lt (by decide +kernel)
    have hsmall : smallContext.toNode.Sized := Node.sized_of_length_encode_lt (by decide +kernel)
    simp [hlater, hsmall]
  have hseparates : Separates fun data => (∃ key, contextStore.table.get? key = some data) ∨
      ∃ c ∈ [laterContext, smallContext, laterContext], c.toNode.encode = data := by
    refine (separates_of_nodup contextObjects_apart).of_imp fun data hdata => ?_
    rcases hdata with ⟨key, hkey⟩ | ⟨c, hc, rfl⟩
    · exact ⟨smallContextObject, by simp, (contextStore_entry hkey).2⟩
    · have hc : c = laterContext ∨ c = smallContext := by simpa [or_comm] using hc
      rcases hc with rfl | rfl
      · exact ⟨laterContextObject, by simp, rfl⟩
      · exact ⟨smallContextObject, by simp, rfl⟩
  obtain ⟨objects, last, loaded, hobjects, hput, hload, rfl, -⟩ :=
    hpublish contextStore _ contextStore_holdsOnlyContexts.matches hsized hseparates
  exact ⟨⟨smallContext, ((hread _ smallContext.ordered_toNode).2 _).mpr hcontext⟩, objects, last,
    hobjects, hput, hload⟩

end ContentGraph
