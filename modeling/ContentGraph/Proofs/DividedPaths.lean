import ContentGraph.Proofs.LinkCrossing

/-! Paths that are resolved in two parts. Where the first part leads to an object, the second part is
resolved from there, with the hops that are left: the object was fetched over the link at the end of
the first part, which only then counts as one of the links on the way. -/

namespace ContentGraph

namespace Node

theorem descend_append_of_end {n reached : Node} {path : List String}
    (h : n.descend path = some (reached, [])) (later : List String) :
    n.descend (path ++ later) = reached.descend later := by
  induction path generalizing n with
  | nil =>
    rw [descend] at h
    cases h
    rw [List.nil_append]
  | cons segment path ih =>
    rw [descend] at h
    rw [List.cons_append, descend]
    by_cases hterminal : n.isTerminal = true
    · rw [if_pos hterminal] at h
      cases h
    · rw [if_neg hterminal] at h ⊢
      obtain ⟨child, hchild, hdescend⟩ := Option.bind_eq_some_iff.mp h
      rw [hchild, Option.bind_some]
      exact ih hdescend

theorem descend_append_of_left {n reached : Node} {path rest : List String}
    (h : n.descend path = some (reached, rest)) (hrest : rest ≠ []) (later : List String) :
    n.descend (path ++ later) = some (reached, rest ++ later) := by
  induction path generalizing n with
  | nil =>
    rw [descend] at h
    cases h
    exact absurd rfl hrest
  | cons segment path ih =>
    rw [descend] at h
    rw [List.cons_append, descend]
    by_cases hterminal : n.isTerminal = true
    · rw [if_pos hterminal] at h ⊢
      cases h
      rfl
    · rw [if_neg hterminal] at h ⊢
      obtain ⟨child, hchild, hdescend⟩ := Option.bind_eq_some_iff.mp h
      rw [hchild, Option.bind_some]
      exact ih hdescend

theorem linkAhead?_append {n : Node} {path rest : List String} {target : Address}
    (h : n.linkAhead? path = some (target, rest)) (later : List String) :
    n.linkAhead? (path ++ later) = some (target, rest ++ later) := by
  obtain ⟨hdescend, hrest⟩ := linkAhead?_eq_some_iff.mp h
  exact linkAhead?_eq_some_iff.mpr ⟨descend_append_of_left hdescend hrest later,
    List.append_ne_nil_of_left_ne_nil hrest later⟩

end Node

/-- The same error of a resolution of the whole path under the limit. -/
def GraphError.reportedFor (whole : List String) (limit : Nat) : GraphError → GraphError
  | .pathNotFound _ => .pathNotFound whole
  | .depthExceeded _ => .depthExceeded limit
  | other => other

namespace Graph

/-- A graph over the same store. -/
def rootedAt (g : Graph) (o : Object) (maxHops : Nat) : Graph :=
  ⟨g.fetch, o, ⟨maxHops⟩⟩

/-- How many links are crossed on the way into the object behind a path. -/
def hopsInto (g : Graph) (path : List String) : Nat :=
  if path = [] then 0 else (g.traceGet path).fetched.length + 1

variable {g g' : Graph} {whole whole' path : List String} {hops : Nat} {n reached : Node}
  {targets : List Address}

theorem Crosses.append {fetch : Fetch} {last : Node} {left : List String}
    (h : Crosses fetch n path targets last left) (later : List String) :
    Crosses fetch n (path ++ later) targets last (left ++ later) := by
  induction h with
  | none => exact .none
  | link hlink ho _ ih => exact .link (Node.linkAhead?_append hlink later) ho ih

theorem follow_of_descend_eq {m : Node} {path' : List String}
    (h : n.descend path = m.descend path') :
    g.follow whole hops n path = g.follow whole hops m path' := by
  rw [follow.eq_def, follow.eq_def g whole hops m path', h]

/-- Behind a first part that leads to a tree, the second part goes on from this tree. -/
theorem follow_append (hfetch : g'.fetch = g.fetch)
    (h : g.follow whole hops n path = ⟨targets, .ok reached⟩) (later : List String) :
    g'.follow whole' hops n (path ++ later) =
      ⟨targets ++ (g'.follow whole' (hops - targets.length) reached later).fetched,
        (g'.follow whole' (hops - targets.length) reached later).result⟩ := by
  have hreads := follow_readsLinks g whole hops n path
  generalize hfound : g.follow whole hops n path = found at hreads
  rw [h] at hfound
  cases hreads with
  | @ended last left _ hcrosses hhops hend =>
    obtain ⟨rfl, hwithin⟩ := Trace.mk.inj hfound
    have hdescend := Node.descend_append_of_end (foundWithin_eq_ok_iff.mp hwithin.symm) later
    rw [← hfetch] at hcrosses
    rw [(hcrosses.append later).follow_eq hhops, follow_of_descend_eq hdescend]
  | failed => cases hfound
  | exceeded => cases hfound

theorem mapError_foundWithin (limit : Nat) (last : Node) (left : List String) :
    (foundWithin whole' last left).mapError (.reportedFor whole limit) =
      foundWithin whole last left := by
  unfold foundWithin
  split <;> rfl

/-- Which path is reported as absent, and which limit as exceeded, is all that a resolution takes from
the whole path and the configuration. -/
theorem follow_reportedFor (hfetch : g'.fetch = g.fetch) :
    g'.follow whole hops n path = ⟨(g.follow whole' hops n path).fetched,
      (g.follow whole' hops n path).result.mapError (.reportedFor whole g'.config.maxHops)⟩ := by
  have hreads := follow_readsLinks g whole' hops n path
  generalize g.follow whole' hops n path = found at hreads
  cases hreads with
  | ended hcrosses hhops hend =>
    rw [← hfetch] at hcrosses
    rw [hcrosses.follow_eq hhops, follow_of_no_link hend, List.append_nil, mapError_foundWithin]
  | @failed last left rest targets target cause hcrosses hhops hlink hcause =>
    rw [← hfetch] at hcrosses hcause
    obtain ⟨less, hless⟩ : ∃ less, hops - targets.length = less + 1 :=
      ⟨hops - targets.length - 1, by omega⟩
    rw [hcrosses.follow_eq (Nat.le_of_lt hhops), hless, follow_link_error hlink hcause]
    rfl
  | exceeded hcrosses hhops hlink =>
    obtain ⟨link, hlink⟩ := Option.isSome_iff_exists.mp hlink
    rw [← hfetch] at hcrosses
    rw [hcrosses.follow_eq (Nat.le_of_eq hhops), hhops, Nat.sub_self, follow_link_zero hlink,
      List.append_nil]
    rfl

theorem isRootPath_eq_false_iff : isRootPath path = false ↔ path ≠ [] ∧ path ≠ [""] := by
  simp [isRootPath]

theorem isRootPath_append {later : List String} (hpath : path ≠ [""]) (hlater : later ≠ [])
    (hempty : later ≠ [""]) : isRootPath (path ++ later) = false := by
  refine isRootPath_eq_false_iff.mpr ⟨List.append_ne_nil_of_right_ne_nil path hlater, ?_⟩
  rw [ne_eq, List.append_eq_singleton_iff]
  rintro (⟨-, h⟩ | ⟨h, -⟩)
  · exact hempty h
  · exact hpath h

theorem map_value_mapError (x : Except GraphError Node) (f : GraphError → GraphError) :
    Resolved.value <$> x.mapError f = (Resolved.value <$> x).mapError f := by
  cases x <;> rfl

/-- In the object behind the first part, the second part is resolved as it is in a graph of its own. -/
theorem follow_rootedAt {later : List String} (o : Object) (hlater : isRootPath later = false) :
    (g.follow whole hops o.tree later).fetched = ((g.rootedAt o hops).traceGet later).fetched ∧
      .value <$> (g.follow whole hops o.tree later).result =
        ((g.rootedAt o hops).traceGet later).result.mapError
          (.reportedFor whole g.config.maxHops) := by
  have hsame : (g.rootedAt o hops).fetch = g.fetch := rfl
  rw [traceGet_of_not_root hlater, ← map_value_mapError, follow_reportedFor hsame.symm]
  exact ⟨rfl, rfl⟩

theorem exists_follow_of_get_link {target : Address}
    (h : g.get path = .ok (.value (.link target))) :
    path ≠ [] ∧ g.follow path g.config.maxHops g.root.tree path =
      ⟨(g.traceGet path).fetched, .ok (.link target)⟩ := by
  rw [get] at h
  cases hpath : isRootPath path with
  | true =>
    rw [traceGet_of_root hpath] at h
    cases h
  | false =>
    rw [traceGet_of_not_root hpath] at h ⊢
    obtain ⟨n, hresult, hn⟩ := map_eq_ok_iff.mp h
    cases hn
    rw [← hresult]
    exact ⟨(isRootPath_eq_false_iff.mp hpath).1, rfl⟩

theorem root_of_get_object {o : Object} (h : g.get path = .ok (.object o)) :
    isRootPath path = true ∧ o = g.root := by
  rw [get] at h
  cases hpath : isRootPath path with
  | true =>
    rw [traceGet_of_root hpath] at h
    cases h
    exact ⟨rfl, rfl⟩
  | false =>
    rw [traceGet_of_not_root hpath] at h
    obtain ⟨n, -, hn⟩ := map_eq_ok_iff.mp h
    cases hn

section

variable {later : List String} {o : Object}

theorem linkAhead?_link (target : Address) (hlater : later ≠ []) :
    (Node.link target).linkAhead? later = some (target, later) :=
  Node.linkAhead?_eq_some_iff.mpr ⟨Node.descend_link target later, hlater⟩

theorem length_fetched_le (hpath : g.follow path g.config.maxHops n path = ⟨targets, .ok reached⟩) :
    targets.length ≤ g.config.maxHops := by
  have hreads := follow_readsLinks g path g.config.maxHops n path
  rw [hpath] at hreads
  exact hreads.length_le

/-- Where hops are left for the link at the end of the first part, the trace of the whole path is that
of the first part with its object, and behind it that of the second part. -/
theorem traceGet_append (hpath : path ≠ [""]) (hlater : isRootPath later = false)
    (ho : g.getObject path = .ok o) (hhops : g.hopsInto path ≤ g.config.maxHops) :
    g.traceGet (path ++ later) =
      ⟨(g.traceObject path).fetched ++
          ((g.rootedAt o (g.config.maxHops - g.hopsInto path)).traceGet later).fetched,
        ((g.rootedAt o (g.config.maxHops - g.hopsInto path)).traceGet later).result.mapError
          (.reportedFor (path ++ later) g.config.maxHops)⟩ := by
  obtain ⟨hnil, hempty⟩ := isRootPath_eq_false_iff.mp hlater
  have hwhole := isRootPath_append hpath hnil hempty
  obtain ⟨hreads, hresult⟩ := @follow_rootedAt g (path ++ later)
    (g.config.maxHops - g.hopsInto path) later o hlater
  rw [traceGet_of_not_root hwhole]
  rcases traceObject_eq_ok ho with ⟨hroot, hfetched⟩ | ⟨target, hlink, htarget, hfetched⟩
  · obtain ⟨hpathRoot, rfl⟩ := root_of_get_object hroot
    have hfirst : path = [] := by
      by_contra hne
      rw [isRootPath_eq_false_iff.mpr ⟨hne, hpath⟩] at hpathRoot
      cases hpathRoot
    subst hfirst
    have hnone : g.hopsInto [] = 0 := rfl
    rw [hnone, Nat.sub_zero] at hreads hresult
    rw [hfetched, traceGet_of_root hpathRoot, hnone, Nat.sub_zero, ← hreads, ← hresult]
    rfl
  · obtain ⟨hne, hfollow⟩ := exists_follow_of_get_link hlink
    rw [hopsInto, if_neg hne] at hhops
    have hcount : g.hopsInto path = (g.traceGet path).fetched.length + 1 := if_neg hne
    have hleft : g.config.maxHops - (g.traceGet path).fetched.length =
        g.config.maxHops - g.hopsInto path + 1 := by omega
    rw [follow_append rfl hfollow, hleft, follow_link_ok (linkAhead?_link target hnil) htarget,
      hfetched, ← hresult, ← hreads, List.append_assoc, List.singleton_append]

/-- Without a hop left for the link at the end of the first part, the whole path gets no further. -/
theorem traceGet_append_of_exceeded (hpath : path ≠ [""]) (hlater : isRootPath later = false)
    (ho : g.getObject path = .ok o) (hhops : g.config.maxHops < g.hopsInto path) :
    g.traceGet (path ++ later) =
      ⟨(g.traceGet path).fetched, .error (.depthExceeded g.config.maxHops)⟩ := by
  obtain ⟨hnil, hempty⟩ := isRootPath_eq_false_iff.mp hlater
  have hne : path ≠ [] := by
    rintro rfl
    exact Nat.not_lt_zero _ hhops
  rw [hopsInto, if_neg hne] at hhops
  rcases traceObject_eq_ok ho with ⟨hroot, -⟩ | ⟨target, hlink, -, -⟩
  · have hnot := isRootPath_eq_false_iff.mpr ⟨hne, hpath⟩
    rw [(root_of_get_object hroot).1] at hnot
    cases hnot
  · obtain ⟨-, hfollow⟩ := exists_follow_of_get_link hlink
    have hbound := length_fetched_le hfollow
    have hleft : g.config.maxHops - (g.traceGet path).fetched.length = 0 := by omega
    rw [traceGet_of_not_root (isRootPath_append hpath hnil hempty), follow_append rfl hfollow, hleft,
      follow_link_zero (linkAhead?_link target hnil), List.append_nil]
    rfl

end

/-- Resolution composes where objects meet. If the first part of a path leads to an object, the whole
path leads to what the second part leads to in this object, with as many hops as are left, and an
error names the whole path and the whole limit. And if there is no hop left for the link to the
object, the whole path exceeds the limit. -/
theorem resolution_composes (g : Graph) (path later : List String) (o : Object)
    (hpath : path ≠ [""]) (hlater : later ≠ []) (hempty : later ≠ [""])
    (ho : g.getObject path = .ok o) :
    (g.hopsInto path ≤ g.config.maxHops →
      g.get (path ++ later) =
        ((g.rootedAt o (g.config.maxHops - g.hopsInto path)).get later).mapError
          (.reportedFor (path ++ later) g.config.maxHops)) ∧
    (g.config.maxHops < g.hopsInto path →
      g.get (path ++ later) = .error (.depthExceeded g.config.maxHops)) := by
  have hnot := isRootPath_eq_false_iff.mpr ⟨hlater, hempty⟩
  constructor
  · intro hhops
    exact congrArg Trace.result (traceGet_append hpath hnot ho hhops)
  · intro hhops
    exact congrArg Trace.result (traceGet_append_of_exceeded hpath hnot ho hhops)

theorem getObject_of_get_link {target : Address} {o : Object}
    (h : g.get path = .ok (.value (.link target))) (ho : g.fetch target = .ok o) :
    g.getObject path = .ok o := by
  rw [get] at h
  rw [getObject, traceObject]
  simp only [h, ho]

theorem getObject_smallGraph (maxHops : Nat) :
    (smallGraph.limitedTo ⟨maxHops⟩).getObject ["b"] = .ok Encoder.smallLeafObject := by
  have hlink : (smallGraph.limitedTo ⟨maxHops⟩).get ["b"] =
      .ok (.value (.link Encoder.smallLeafObject.address)) := by
    have hdescend : (smallGraph.limitedTo ⟨maxHops⟩).root.tree.descend ["b"] =
        some (.link Encoder.smallLeafObject.address, []) := rfl
    rw [get_eq (by simp) (by simp), follow_end hdescend]
    rfl
  have hfetch : (smallGraph.limitedTo ⟨maxHops⟩).fetch = Store.get smallStore := by
    rw [limitedTo, fetch_smallGraph]
  have hleaf : (smallGraph.limitedTo ⟨maxHops⟩).fetch Encoder.smallLeafObject.address =
      .ok Encoder.smallLeafObject := by
    rw [hfetch]
    exact get_smallLeafObject
  exact getObject_of_get_link hlink hleaf

theorem resolution_composes_in_small_document :
    (smallGraph.limitedTo ⟨1⟩).get ["b", "c"] = .error (.pathNotFound ["b", "c"]) ∧
      (smallGraph.limitedTo ⟨0⟩).get ["b", "c"] = .error (.depthExceeded 0) := by
  have hfirst (maxHops : Nat) := resolution_composes (smallGraph.limitedTo ⟨maxHops⟩) ["b"] ["c"]
    Encoder.smallLeafObject (by decide) (by decide) (by decide) (getObject_smallGraph maxHops)
  exact ⟨(hfirst 1).1 (Nat.le_refl 1), (hfirst 0).2 Nat.one_pos⟩

end Graph

end ContentGraph
