import ContentGraph.Proofs.PathWalk
import Mathlib.Logic.Function.Iterate

/-! How a graph reads its store. A path is resolved in rounds, each of which goes down in one object,
and another object is read only where the path goes on behind a link. The links of a store may run in
a circle and a path need not get shorter from one object to the next, so it is only the limit on the
links that brings the rounds to an end. -/

namespace ContentGraph

namespace Node

/-- The link behind which a path goes on, and the rest of the path. The link at the end of a path is
not one of these. -/
def linkAhead? (n : Node) (path : List String) : Option (Address × List String) :=
  match n.descend path with
  | some (.link target, segment :: rest) => some (target, segment :: rest)
  | _ => none

theorem linkAhead?_eq_some_iff {n : Node} {path rest : List String} {target : Address} :
    n.linkAhead? path = some (target, rest) ↔
      n.descend path = some (.link target, rest) ∧ rest ≠ [] := by
  unfold linkAhead?
  split
  · next a segment more hdescend =>
    rw [hdescend]
    constructor
    · intro h
      cases h
      exact ⟨rfl, List.cons_ne_nil _ _⟩
    · rintro ⟨h, -⟩
      cases h
      rfl
  · next hother =>
    refine ⟨nofun, fun ⟨hdescend, hrest⟩ => ?_⟩
    obtain ⟨segment, more, rfl⟩ := List.exists_cons_of_ne_nil hrest
    exact absurd hdescend (hother target segment more)

end Node

namespace Graph

/-- What a path comes to in an object where it does not go on behind a link. -/
def foundWithin (whole : List String) (n : Node) (path : List String) : Except GraphError Node :=
  match n.descend path with
  | none => .error (.pathNotFound whole)
  | some (reached, []) => .ok reached
  | some (reached, segment :: _) => .error (.expectedLink segment reached.kind)

theorem foundWithin_eq_ok_iff {whole path : List String} {n reached : Node} :
    foundWithin whole n path = .ok reached ↔ n.descend path = some (reached, []) := by
  unfold foundWithin
  split <;> simp_all

theorem foundWithin_ne_depthExceeded (whole path : List String) (n : Node) (limit : Nat) :
    foundWithin whole n path ≠ .error (.depthExceeded limit) := by
  unfold foundWithin
  split <;> simp

/-- Where the resolution of a path stands: in the tree of an object with the rest of the path before
it, or at its end. -/
inductive Stage
  | within (tree : Node) (rest : List String) (hops : Nat) (fetched : List Address)
  | ended (found : Trace Node)

/-- One round. Links are counted before they are fetched. -/
def advance (g : Graph) (whole : List String) : Stage → Stage
  | .ended found => .ended found
  | .within tree path hops fetched =>
    match tree.linkAhead? path with
    | none => .ended ⟨fetched, foundWithin whole tree path⟩
    | some (target, rest) =>
      if g.config.maxHops < hops + 1 then
        .ended ⟨fetched, .error (.depthExceeded g.config.maxHops)⟩
      else
        match g.fetch target with
        | .error cause => .ended ⟨fetched ++ [target], .error (.store cause)⟩
        | .ok o => .within o.tree rest (hops + 1) (fetched ++ [target])

/-- From a tree and a path over links to `targets` into the tree behind the last of them, with the
rest of the path. Nothing is counted here, so a circle of links is crossed as often as one likes. -/
inductive Crosses (fetch : Fetch) :
    Node → List String → List Address → Node → List String → Prop
  | none {n : Node} {path : List String} : Crosses fetch n path [] n path
  | link {n last : Node} {path rest left : List String} {target : Address} {o : Object}
    {targets : List Address} (hlink : n.linkAhead? path = some (target, rest))
    (ho : fetch target = .ok o) (hlater : Crosses fetch o.tree rest targets last left) :
    Crosses fetch n path (target :: targets) last left

/-- A trace that reads the store for the links it crosses and for nothing else: up to where no link
is ahead, up to a link that cannot be fetched, or up to the last of its hops with a link still
ahead. -/
inductive ReadsLinks (g : Graph) (whole : List String) (hops : Nat) (n : Node) (path : List String) :
    Trace Node → Prop
  | ended {last : Node} {left : List String} {targets : List Address}
    (hcrosses : Crosses g.fetch n path targets last left) (hhops : targets.length ≤ hops)
    (hend : last.linkAhead? left = none) :
    ReadsLinks g whole hops n path ⟨targets, foundWithin whole last left⟩
  | failed {last : Node} {left rest : List String} {targets : List Address} {target : Address}
    {cause : StoreError} (hcrosses : Crosses g.fetch n path targets last left)
    (hhops : targets.length < hops) (hlink : last.linkAhead? left = some (target, rest))
    (hcause : g.fetch target = .error cause) :
    ReadsLinks g whole hops n path ⟨targets ++ [target], .error (.store cause)⟩
  | exceeded {last : Node} {left : List String} {targets : List Address}
    (hcrosses : Crosses g.fetch n path targets last left) (hhops : targets.length = hops)
    (hlink : (last.linkAhead? left).isSome = true) :
    ReadsLinks g whole hops n path ⟨targets, .error (.depthExceeded g.config.maxHops)⟩

variable {g g' : Graph} {whole path : List String} {hops more : Nat} {n : Node}
  {targets : List Address}

section

variable {rest : List String} {target : Address}

theorem follow_of_no_link (h : n.linkAhead? path = none) :
    g.follow whole hops n path = ⟨[], foundWithin whole n path⟩ := by
  unfold Node.linkAhead? at h
  unfold foundWithin
  rw [follow.eq_def]
  cases hdescend : n.descend path with
  | none => rfl
  | some found =>
    rw [hdescend] at h
    obtain ⟨reached, _ | ⟨segment, rest⟩⟩ := found
    · rfl
    · cases reached with
      | link target => cases h
      | _ => rfl

theorem follow_link_zero (h : n.linkAhead? path = some (target, rest)) :
    g.follow whole 0 n path = ⟨[], .error (.depthExceeded g.config.maxHops)⟩ := by
  obtain ⟨hdescend, hrest⟩ := Node.linkAhead?_eq_some_iff.mp h
  obtain ⟨segment, more, rfl⟩ := List.exists_cons_of_ne_nil hrest
  rw [follow, hdescend]

theorem follow_link_error {cause : StoreError} (h : n.linkAhead? path = some (target, rest))
    (hcause : g.fetch target = .error cause) :
    g.follow whole (hops + 1) n path = ⟨[target], .error (.store cause)⟩ := by
  obtain ⟨hdescend, hrest⟩ := Node.linkAhead?_eq_some_iff.mp h
  obtain ⟨segment, more, rfl⟩ := List.exists_cons_of_ne_nil hrest
  rw [follow, hdescend]
  simp only [hcause]

theorem follow_link_ok {o : Object} (h : n.linkAhead? path = some (target, rest))
    (ho : g.fetch target = .ok o) :
    g.follow whole (hops + 1) n path =
      ⟨target :: (g.follow whole hops o.tree rest).fetched,
        (g.follow whole hops o.tree rest).result⟩ := by
  obtain ⟨hdescend, hrest⟩ := Node.linkAhead?_eq_some_iff.mp h
  obtain ⟨segment, more, rfl⟩ := List.exists_cons_of_ne_nil hrest
  rw [follow, hdescend]
  simp only [ho]

end

/-- What is followed goes over all links that are crossed, and on from behind the last of them. -/
theorem Crosses.follow_eq {last : Node} {left : List String}
    (h : Crosses g.fetch n path targets last left) (hhops : targets.length ≤ hops) :
    g.follow whole hops n path =
      ⟨targets ++ (g.follow whole (hops - targets.length) last left).fetched,
        (g.follow whole (hops - targets.length) last left).result⟩ := by
  induction h generalizing hops with
  | none => simp
  | @link n last path rest left target o targets hlink ho hlater ih =>
    rw [List.length_cons] at hhops
    obtain ⟨less, rfl⟩ : ∃ less, hops = less + 1 := ⟨hops - 1, by omega⟩
    have hless : less + 1 - (target :: targets).length = less - targets.length := by simp
    rw [follow_link_ok hlink ho, ih (by omega), hless, List.cons_append]

theorem Crosses.of_fetch_eq {fetch fetch' : Fetch} {last : Node} {left : List String}
    (h : Crosses fetch n path targets last left) (hfetch : ∀ a ∈ targets, fetch' a = fetch a) :
    Crosses fetch' n path targets last left := by
  induction h with
  | none => exact .none
  | link hlink ho _ ih =>
    obtain ⟨hfirst, hlater⟩ := List.forall_mem_cons.mp hfetch
    exact .link hlink (hfirst.trans ho) (ih hlater)

theorem ReadsLinks.behind {rest : List String} {target : Address} {o : Object} {later : Trace Node}
    (hlink : n.linkAhead? path = some (target, rest)) (ho : g.fetch target = .ok o)
    (h : g.ReadsLinks whole hops o.tree rest later) :
    g.ReadsLinks whole (hops + 1) n path ⟨target :: later.fetched, later.result⟩ := by
  cases h with
  | ended hcrosses hhops hend =>
    exact .ended (.link hlink ho hcrosses) (Nat.succ_le_succ hhops) hend
  | failed hcrosses hhops hlast hcause =>
    exact .failed (.link hlink ho hcrosses) (Nat.succ_lt_succ hhops) hlast hcause
  | exceeded hcrosses hhops hlast =>
    exact .exceeded (.link hlink ho hcrosses) (congrArg Nat.succ hhops) hlast

theorem follow_readsLinks (g : Graph) (whole : List String) (hops : Nat) (n : Node)
    (path : List String) : g.ReadsLinks whole hops n path (g.follow whole hops n path) := by
  induction hops generalizing n path with
  | zero =>
    cases hahead : n.linkAhead? path with
    | none =>
      rw [follow_of_no_link hahead]
      exact .ended .none (Nat.le_refl 0) hahead
    | some link =>
      have hsome : (n.linkAhead? path).isSome = true := by rw [hahead]; rfl
      rw [follow_link_zero hahead]
      exact .exceeded .none rfl hsome
  | succ hops ih =>
    cases hahead : n.linkAhead? path with
    | none =>
      rw [follow_of_no_link hahead]
      exact .ended .none (Nat.zero_le _) hahead
    | some link =>
      obtain ⟨target, rest⟩ := link
      cases hfetch : g.fetch target with
      | error cause =>
        rw [follow_link_error hahead hfetch]
        exact .failed .none (Nat.succ_pos hops) hahead hfetch
      | ok o =>
        rw [follow_link_ok hahead hfetch]
        exact (ih o.tree rest).behind hahead hfetch

theorem ReadsLinks.length_le {found : Trace Node} (h : g.ReadsLinks whole hops n path found) :
    found.fetched.length ≤ hops := by
  cases h with
  | ended _ hhops _ => exact hhops
  | failed _ hhops _ _ =>
    rw [List.length_append, List.length_singleton]
    exact hhops
  | exceeded _ hhops _ => exact Nat.le_of_eq hhops

/-- A graph whose store has the same objects where the trace reads gives the same trace, also with
more hops if these have not run out. -/
theorem ReadsLinks.follow_eq {found : Trace Node} (h : g.ReadsLinks whole hops n path found)
    (hfetch : ∀ a ∈ found.fetched, g'.fetch a = g.fetch a) (hmore : hops ≤ more)
    (hlimit : (∀ limit, found.result ≠ .error (.depthExceeded limit)) ∨
      more = hops ∧ g'.config = g.config) :
    g'.follow whole more n path = found := by
  cases h with
  | ended hcrosses hhops hend =>
    rw [(hcrosses.of_fetch_eq hfetch).follow_eq (Nat.le_trans hhops hmore), follow_of_no_link hend,
      List.append_nil]
  | @failed last left rest targets target cause hcrosses hhops hlink hcause =>
    have hbefore : ∀ a ∈ targets, g'.fetch a = g.fetch a := fun a ha =>
      hfetch a (List.mem_append_left _ ha)
    have hlast : g'.fetch target = .error cause := by
      rw [hfetch target (List.mem_append_right _ (List.mem_singleton_self target)), hcause]
    obtain ⟨left, hleft⟩ : ∃ left, more - targets.length = left + 1 :=
      ⟨more - targets.length - 1, by omega⟩
    rw [(hcrosses.of_fetch_eq hbefore).follow_eq (by omega), hleft, follow_link_error hlink hlast]
  | @exceeded last left targets hcrosses hhops hlink =>
    obtain ⟨link, hlink⟩ := Option.isSome_iff_exists.mp hlink
    rcases hlimit with hnever | ⟨rfl, hconfig⟩
    · exact absurd rfl (hnever _)
    · rw [(hcrosses.of_fetch_eq hfetch).follow_eq (Nat.le_of_eq hhops), hhops, Nat.sub_self,
        follow_link_zero hlink, List.append_nil, hconfig]

/-- The hops left are those that the rounds have not counted yet. -/
theorem iterate_advance {counted : Nat} (fetched : List Address)
    (hcounted : counted + hops = g.config.maxHops) :
    (g.advance whole)^[hops + 1] (.within n path counted fetched) =
      .ended ⟨fetched ++ (g.follow whole hops n path).fetched,
        (g.follow whole hops n path).result⟩ := by
  have hended (rounds : Nat) (found : Trace Node) :
      (g.advance whole)^[rounds] (.ended found) = .ended found :=
    Function.iterate_fixed rfl rounds
  induction hops generalizing n path counted fetched with
  | zero =>
    rw [Function.iterate_succ_apply, Function.iterate_zero_apply, advance]
    cases hahead : n.linkAhead? path with
    | none => rw [follow_of_no_link hahead, List.append_nil]
    | some link =>
      have hlast : g.config.maxHops < counted + 1 := by omega
      rw [follow_link_zero hahead, List.append_nil]
      exact if_pos hlast
  | succ hops ih =>
    rw [Function.iterate_succ_apply, advance]
    cases hahead : n.linkAhead? path with
    | none => rw [hended, follow_of_no_link hahead, List.append_nil]
    | some link =>
      obtain ⟨target, rest⟩ := link
      have hleft : ¬g.config.maxHops < counted + 1 := by omega
      dsimp only
      rw [if_neg hleft]
      cases hfetch : g.fetch target with
      | error cause => rw [hended, follow_link_error hahead hfetch]
      | ok o =>
        rw [ih (fetched ++ [target]) (by omega), follow_link_ok hahead hfetch, List.append_assoc,
          List.singleton_append]

theorem traceGet_of_root (h : isRootPath path = true) :
    g.traceGet path = ⟨[], .ok (.object g.root)⟩ := by
  rw [traceGet, if_pos h]

theorem traceGet_of_not_root (h : isRootPath path = false) :
    g.traceGet path = ⟨(g.follow path g.config.maxHops g.root.tree path).fetched,
      .value <$> (g.follow path g.config.maxHops g.root.tree path).result⟩ := by
  rw [traceGet, h]
  rfl

theorem traceGet_eq_depthExceeded_iff {limit : Nat} :
    g.traceGet path = ⟨targets, .error (.depthExceeded limit)⟩ ↔
      isRootPath path = false ∧ limit = g.config.maxHops ∧ targets.length = limit ∧
        ∃ last left, Crosses g.fetch g.root.tree path targets last left ∧
          (last.linkAhead? left).isSome = true := by
  cases hroot : isRootPath path with
  | true => simp [traceGet_of_root hroot]
  | false =>
    rw [traceGet_of_not_root hroot, Trace.mk.injEq, map_value_eq_error_iff]
    constructor
    · rintro ⟨rfl, hresult⟩
      have hreads := follow_readsLinks g path g.config.maxHops g.root.tree path
      generalize g.follow path g.config.maxHops g.root.tree path = found at hreads hresult ⊢
      cases hreads with
      | ended => exact absurd hresult (foundWithin_ne_depthExceeded _ _ _ _)
      | failed => cases hresult
      | exceeded hcrosses hhops hlink =>
        cases hresult
        exact ⟨rfl, rfl, hhops, _, _, hcrosses, hlink⟩
    · rintro ⟨-, rfl, hlength, last, left, hcrosses, hlink⟩
      obtain ⟨link, hlink⟩ := Option.isSome_iff_exists.mp hlink
      rw [hcrosses.follow_eq (Nat.le_of_eq hlength), hlength, Nat.sub_self, follow_link_zero hlink]
      exact ⟨List.append_nil _, rfl⟩

theorem crosses_of_get_link {target : Address} (h : g.get path = .ok (.value (.link target))) :
    ∃ last left, Crosses g.fetch g.root.tree path (g.traceGet path).fetched last left ∧
      last.descend left = some (.link target, []) := by
  rw [get] at h
  cases hroot : isRootPath path with
  | true =>
    rw [traceGet_of_root hroot] at h
    cases h
  | false =>
    rw [traceGet_of_not_root hroot] at h ⊢
    obtain ⟨n, hresult, hn⟩ := map_eq_ok_iff.mp h
    cases hn
    have hreads := follow_readsLinks g path g.config.maxHops g.root.tree path
    generalize g.follow path g.config.maxHops g.root.tree path = found at hreads hresult ⊢
    cases hreads with
    | ended hcrosses _ _ => exact ⟨_, _, hcrosses, foundWithin_eq_ok_iff.mp hresult⟩
    | failed => cases hresult
    | exceeded => cases hresult

theorem traceGet_of_reads_eq (hroot : g'.root = g.root)
    (hfetch : ∀ a ∈ (g.traceGet path).fetched, g'.fetch a = g.fetch a)
    (hmore : g.config.maxHops ≤ g'.config.maxHops)
    (hlimit : (∀ limit, g.get path ≠ .error (.depthExceeded limit)) ∨ g'.config = g.config) :
    g'.traceGet path = g.traceGet path := by
  cases hpath : isRootPath path with
  | true => rw [traceGet_of_root hpath, traceGet_of_root hpath, hroot]
  | false =>
    rw [get, traceGet_of_not_root hpath] at hlimit
    rw [traceGet_of_not_root hpath] at hfetch
    have hreads := follow_readsLinks g path g.config.maxHops g.root.tree path
    have hsame := hreads.follow_eq hfetch hmore <| hlimit.imp
      (fun h limit hresult => h limit (map_value_eq_error_iff.mpr hresult))
      fun h => ⟨congrArg GraphConfig.maxHops h, h⟩
    rw [traceGet_of_not_root hpath, traceGet_of_not_root hpath, hroot, hsame]

/-- A path is resolved in at most one round more than there are hops, on any store. The store is read
once for each link that is crossed, in the order of the path and for nothing else, so that a link at
the end of the path is not fetched. The limit is exceeded exactly if as many links have been crossed
as it allows and one more is ahead, and a higher limit makes a difference only then. -/
theorem resolution_is_lazy_and_bounded (g : Graph) (path : List String) :
    (isRootPath path = true → g.traceGet path = ⟨[], .ok (.object g.root)⟩) ∧
    (isRootPath path = false → ∃ found : Trace Node,
      g.traceGet path = ⟨found.fetched, .value <$> found.result⟩ ∧
      (g.advance path)^[g.config.maxHops + 1] (.within g.root.tree path 0 []) = .ended found ∧
      g.ReadsLinks path g.config.maxHops g.root.tree path found) ∧
    (g.traceGet path).fetched.length ≤ g.config.maxHops ∧
    (∀ fetch : Fetch, (∀ a ∈ (g.traceGet path).fetched, fetch a = g.fetch a) →
      Graph.traceGet ⟨fetch, g.root, g.config⟩ path = g.traceGet path) ∧
    (∀ target, g.get path = .ok (.value (.link target)) →
      ∃ last left, Crosses g.fetch g.root.tree path (g.traceGet path).fetched last left ∧
        last.descend left = some (.link target, [])) ∧
    (∀ targets limit, g.traceGet path = ⟨targets, .error (.depthExceeded limit)⟩ ↔
      isRootPath path = false ∧ limit = g.config.maxHops ∧ targets.length = limit ∧
        ∃ last left, Crosses g.fetch g.root.tree path targets last left ∧
          (last.linkAhead? left).isSome = true) ∧
    ∀ more ≥ g.config.maxHops, (∀ limit, g.get path ≠ .error (.depthExceeded limit)) →
      (g.limitedTo ⟨more⟩).traceGet path = g.traceGet path := by
  have hreads := follow_readsLinks g path g.config.maxHops g.root.tree path
  have hrounds := @iterate_advance g path path g.config.maxHops g.root.tree 0 [] (Nat.zero_add _)
  have hbound : (g.traceGet path).fetched.length ≤ g.config.maxHops := by
    cases hroot : isRootPath path with
    | true => simp [traceGet_of_root hroot]
    | false => simpa [traceGet_of_not_root hroot] using hreads.length_le
  refine ⟨traceGet_of_root, fun hroot => ⟨_, traceGet_of_not_root hroot, hrounds, hreads⟩, hbound,
    fun fetch hfetch => ?_, fun target => crosses_of_get_link,
    fun targets limit => traceGet_eq_depthExceeded_iff, fun more hmore hlimit => ?_⟩
  · exact traceGet_of_reads_eq rfl hfetch (Nat.le_refl _) (.inr rfl)
  · exact traceGet_of_reads_eq rfl (fun _ _ => rfl) hmore (.inl hlimit)

/-- An object that is nothing but a link. -/
def linkObject : Object :=
  let tree : Node := .link (Address.derive .node [])
  ⟨Block.ofData .node tree.encode, tree, none, rfl, rfl, rfl⟩

/-- Every link leads to the object that it stands in. -/
def circle : Graph :=
  ⟨fun _ => .ok linkObject, linkObject, ⟨3⟩⟩

theorem resolution_is_lazy_and_bounded_on_circle :
    (∃ found, (circle.advance ["x"])^[4] (.within linkObject.tree ["x"] 0 []) = .ended found) ∧
      circle.traceGet ["x"] =
        ⟨List.replicate 3 (Address.derive .node []), .error (.depthExceeded 3)⟩ ∧
      (smallGraph.limitedTo ⟨5⟩).traceGet ["b"] = smallGraph.traceGet ["b"] := by
  have hahead : linkObject.tree.linkAhead? ["x"] = some (Address.derive .node [], ["x"]) := rfl
  have hlink : smallGraph.get ["b"] = .ok (.value (.link Encoder.smallLeafObject.address)) := rfl
  obtain ⟨-, hstops, -, -, -, hexceeded, -⟩ := resolution_is_lazy_and_bounded circle ["x"]
  obtain ⟨found, -, hrounds, -⟩ := hstops rfl
  obtain ⟨-, -, -, -, -, -, hraised⟩ := resolution_is_lazy_and_bounded smallGraph ["b"]
  have hcrosses : Crosses circle.fetch circle.root.tree ["x"]
      (List.replicate 3 (Address.derive .node [])) linkObject.tree ["x"] :=
    .link hahead rfl (.link hahead rfl (.link hahead rfl .none))
  have hsome : (linkObject.tree.linkAhead? ["x"]).isSome = true := rfl
  refine ⟨⟨found, hrounds⟩, (hexceeded _ 3).mpr ⟨rfl, rfl, rfl, _, _, hcrosses, hsome⟩,
    hraised 5 (by decide) ?_⟩
  rw [hlink]
  exact fun limit => nofun

end Graph

end ContentGraph
