import ContentGraph.Proofs.Authentication

/-! Linked objects read as one tree. A path is followed one segment at a time, and behind a link it
goes on in the tree of the object that the link leads to, as long as there are hops left. This is
what a graph answers, and what it calls absent is a child that a map or a list on the way does not
have. -/

namespace ContentGraph

namespace Store

variable {σ : Type} [Backend σ]

/-- A store reports paths that lead nowhere to nobody: it does not know of paths. -/
theorem get_ne_pathNotFound (state : σ) (a : Address) (path : List String) :
    get state a ≠ .error (.pathNotFound path) := by
  intro h
  rcases get_eq_error_iff.mp h with ⟨cause, -, hcause⟩ | ⟨held, -, gate, -, hreport⟩
  · cases hcause
  · cases gate with
    | present => cases hreport
    | version => cases hreport
    | address =>
      obtain ⟨_, -, hreport⟩ := hreport
      cases hreport
    | codec => cases hreport
    | content =>
      obtain ⟨_, _, -, -, hreport⟩ := hreport
      cases hreport
    | type =>
      obtain ⟨_, _, _, -, -, -, hreport⟩ := hreport
      cases hreport

end Store

namespace Node

theorem isTerminal_of_descend {n reached : Node} {path rest : List String} {segment : String}
    (h : n.descend path = some (reached, segment :: rest)) : reached.isTerminal = true := by
  induction path generalizing n with
  | nil => cases h
  | cons first path ih =>
    rw [descend] at h
    split at h
    · next hterminal =>
      cases h
      exact hterminal
    · obtain ⟨child, -, hchild⟩ := Option.bind_eq_some_iff.mp h
      exact ih hchild

end Node

namespace Graph

/-- What is found from a tree on with a number of hops left. A segment that is missing is reported
with the `whole` path. -/
def walk (g : Graph) (whole : List String) (hops : Nat) (n : Node) (path : List String) :
    Except GraphError Node :=
  match path with
  | [] => .ok n
  | segment :: rest =>
    match n with
    | .map entries =>
      match Entries.get? entries segment with
      | some child => walk g whole hops child rest
      | none => .error (.pathNotFound whole)
    | .list items =>
      match (indexOfSegment? segment).bind (items[·]?) with
      | some child => walk g whole hops child rest
      | none => .error (.pathNotFound whole)
    | .link target =>
      match hops with
      | 0 => .error (.depthExceeded g.config.maxHops)
      | hops + 1 =>
        match g.fetch target with
        | .ok o => walk g whole hops o.tree (segment :: rest)
        | .error cause => .error (.store cause)
    | other => .error (.expectedLink segment other.kind)
termination_by (hops, path.length)

/-- The path comes to a map or a list that has no child under the next segment. -/
inductive LacksChild (g : Graph) : Nat → Node → List String → Prop
  | key {hops : Nat} {entries : Entries Node} {segment : String} {rest : List String}
    (h : Entries.get? entries segment = none) : LacksChild g hops (.map entries) (segment :: rest)
  | index {hops : Nat} {items : List Node} {segment : String} {rest : List String}
    (h : (indexOfSegment? segment).bind (items[·]?) = none) :
    LacksChild g hops (.list items) (segment :: rest)
  | inMap {hops : Nat} {entries : Entries Node} {child : Node} {segment : String}
    {rest : List String} (hchild : Entries.get? entries segment = some child)
    (h : LacksChild g hops child rest) : LacksChild g hops (.map entries) (segment :: rest)
  | inList {hops : Nat} {items : List Node} {child : Node} {segment : String} {rest : List String}
    (hchild : (indexOfSegment? segment).bind (items[·]?) = some child)
    (h : LacksChild g hops child rest) : LacksChild g hops (.list items) (segment :: rest)
  | behindLink {hops : Nat} {target : Address} {o : Object} {segment : String} {rest : List String}
    (ho : g.fetch target = .ok o) (h : LacksChild g hops o.tree (segment :: rest)) :
    LacksChild g (hops + 1) (.link target) (segment :: rest)

variable {g : Graph} {whole : List String}

theorem walk_nil (hops : Nat) (n : Node) : g.walk whole hops n [] = .ok n := by
  rw [walk]

theorem walk_map (hops : Nat) (entries : Entries Node) (segment : String) (rest : List String) :
    g.walk whole hops (.map entries) (segment :: rest) =
      match Entries.get? entries segment with
      | some child => g.walk whole hops child rest
      | none => .error (.pathNotFound whole) := by
  rw [walk]

theorem walk_list (hops : Nat) (items : List Node) (segment : String) (rest : List String) :
    g.walk whole hops (.list items) (segment :: rest) =
      match (indexOfSegment? segment).bind (items[·]?) with
      | some child => g.walk whole hops child rest
      | none => .error (.pathNotFound whole) := by
  rw [walk]

/-- Where the descent stops at what is not a link, the rest of the path leads nowhere. -/
theorem walk_of_descend {n reached : Node} {path rest : List String} {segment : String}
    (hdescend : n.descend path = some (reached, segment :: rest))
    (hlink : ∀ target, reached = .link target → False) (hops : Nat) :
    g.walk whole hops reached (segment :: rest) = .error (.expectedLink segment reached.kind) := by
  have hterminal := Node.isTerminal_of_descend hdescend
  rw [walk.eq_def]
  cases reached with
  | map _ => cases hterminal
  | list _ => cases hterminal
  | link target => exact absurd rfl (hlink target)
  | _ => rfl

/-- The descent inside an object is a part of the walk. -/
theorem walk_eq_descend (hops : Nat) (n : Node) (path : List String) :
    g.walk whole hops n path =
      match n.descend path with
      | some (reached, rest) => g.walk whole hops reached rest
      | none => .error (.pathNotFound whole) := by
  induction path generalizing n with
  | nil => rw [Node.descend]
  | cons segment rest ih =>
    cases n with
    | map entries =>
      rw [walk_map, Node.descend, Node.isTerminal, if_neg Bool.false_ne_true, Node.child?]
      cases Entries.get? entries segment with
      | some child => exact ih child
      | none => rfl
    | list items =>
      rw [walk_list, Node.descend, Node.isTerminal, if_neg Bool.false_ne_true, Node.child?]
      cases (indexOfSegment? segment).bind (items[·]?) with
      | some child => exact ih child
      | none => rfl
    | _ => rfl

theorem walk_link_zero (target : Address) (segment : String) (rest : List String) :
    g.walk whole 0 (.link target) (segment :: rest) =
      .error (.depthExceeded g.config.maxHops) := by
  rw [walk]

theorem walk_link_succ (hops : Nat) (target : Address) (segment : String) (rest : List String) :
    g.walk whole (hops + 1) (.link target) (segment :: rest) =
      match g.fetch target with
      | .ok o => g.walk whole hops o.tree (segment :: rest)
      | .error cause => .error (.store cause) := by
  rw [walk]

theorem follow_eq_walk_of_links {hops : Nat} {n : Node} {path : List String}
    (h : ∀ target segment rest, n.descend path = some (.link target, segment :: rest) →
      (g.follow whole hops n path).result = g.walk whole hops (.link target) (segment :: rest)) :
    (g.follow whole hops n path).result = g.walk whole hops n path := by
  rw [walk_eq_descend]
  cases hdescend : n.descend path with
  | none => rw [follow.eq_def, hdescend]
  | some found =>
    obtain ⟨reached, _ | ⟨segment, rest⟩⟩ := found
    · rw [follow.eq_def, hdescend]
      exact (walk_nil hops reached).symm
    · cases reached with
      | link target => exact h target segment rest hdescend
      | _ =>
        rw [follow.eq_def, hdescend]
        exact (walk_of_descend hdescend (by simp) hops).symm

/-- Following a path link by link is walking it segment by segment. -/
theorem follow_eq_walk (hops : Nat) (n : Node) (path : List String) :
    (g.follow whole hops n path).result = g.walk whole hops n path := by
  induction hops generalizing n path with
  | zero =>
    refine follow_eq_walk_of_links fun target segment rest hdescend => ?_
    rw [follow.eq_def, hdescend]
    exact (walk_link_zero target segment rest).symm
  | succ hops ih =>
    refine follow_eq_walk_of_links fun target segment rest hdescend => ?_
    rw [follow.eq_def, hdescend, walk_link_succ]
    dsimp only
    cases g.fetch target with
    | error cause => rfl
    | ok o => exact ih o.tree (segment :: rest)

theorem LacksChild.walk_eq {hops : Nat} {n : Node} {path : List String}
    (h : g.LacksChild hops n path) : g.walk whole hops n path = .error (.pathNotFound whole) := by
  induction h with
  | key h => rw [walk_map, h]
  | index h => rw [walk_list, h]
  | inMap hchild _ ih => rw [walk_map, hchild]; exact ih
  | inList hchild _ ih => rw [walk_list, hchild]; exact ih
  | behindLink ho _ ih => rw [walk_link_succ, ho]; exact ih

theorem not_lacksChild_nil {hops : Nat} {n : Node} : ¬g.LacksChild hops n [] :=
  nofun

theorem lacksChild_of_walk (hfetch : ∀ a path, g.fetch a ≠ .error (.pathNotFound path)) {hops : Nat}
    {n : Node} {path : List String} {e : GraphError} (h : g.walk whole hops n path = .error e)
    (he : e.isAbsence = true) : g.LacksChild hops n path := by
  fun_induction g.walk whole hops n path with
  | case1 => cases h
  | case2 hops segment rest entries child hchild ih => exact .inMap hchild (ih h)
  | case3 hops segment rest entries hchild => exact .key hchild
  | case4 hops segment rest items child hchild ih => exact .inList hchild (ih h)
  | case5 hops segment rest items hchild => exact .index hchild
  | case6 => cases h; cases he
  | case7 segment rest target hops o ho ih => exact .behindLink ho (ih h)
  | case8 segment rest target hops cause hcause =>
    cases h
    cases cause with
    | pathNotFound path => exact absurd hcause (hfetch target path)
    | _ => cases he
  | case9 => cases h; cases he

theorem walk_isAbsence_iff (hfetch : ∀ a path, g.fetch a ≠ .error (.pathNotFound path)) {hops : Nat}
    {n : Node} {path : List String} :
    (∃ e, g.walk whole hops n path = .error e ∧ e.isAbsence = true) ↔ g.LacksChild hops n path := by
  constructor
  · rintro ⟨e, h, he⟩
    exact lacksChild_of_walk hfetch h he
  · intro h
    exact ⟨_, h.walk_eq, rfl⟩

theorem get_of_root {path : List String} (h : path = [] ∨ path = [""]) :
    g.get path = .ok (.object g.root) := by
  have hroot : isRootPath path = true := decide_eq_true h
  rw [get, traceGet, if_pos hroot]

theorem map_value_eq_error_iff {x : Except GraphError Node} {e : GraphError} :
    Resolved.value <$> x = .error e ↔ x = .error e := by
  cases x <;> simp [Functor.map, Except.map]

/-- Whatever objects stand behind links, and as long as fetching one is never answered with an
absent path, a graph answers what the walk over the one tree finds, and calls absent nothing but a
missing child. -/
theorem get_eq_walk (g : Graph) (hfetch : ∀ a path, g.fetch a ≠ .error (.pathNotFound path))
    (path : List String) :
    (path = [] ∨ path = [""] → g.get path = .ok (.object g.root)) ∧
      (path ≠ [] → path ≠ [""] →
        g.get path = .value <$> g.walk path g.config.maxHops g.root.tree path) ∧
      ((∃ e, g.get path = .error e ∧ e.isAbsence = true) ↔
        path ≠ [""] ∧ g.LacksChild g.config.maxHops g.root.tree path) := by
  have hwalk (hnil : path ≠ []) (hempty : path ≠ [""]) :
      g.get path = .value <$> g.walk path g.config.maxHops g.root.tree path := by
    rw [get_eq hnil hempty, follow_eq_walk]
  refine ⟨get_of_root, hwalk, ?_⟩
  by_cases hnil : path = []
  · subst hnil
    constructor
    · rintro ⟨e, he, -⟩
      cases he
    · exact fun h => absurd h.2 not_lacksChild_nil
  by_cases hempty : path = [""]
  · rw [get_of_root (.inr hempty)]
    constructor
    · rintro ⟨e, he, -⟩
      cases he
    · exact fun h => absurd hempty h.1
  · rw [hwalk hnil hempty]
    simp only [map_value_eq_error_iff, walk_isAbsence_iff hfetch, ne_eq, hempty, not_false_eq_true,
      true_and]

/-- The small document with room for the one hop that it needs. -/
def smallGraph : Graph :=
  ⟨Store.get smallStore, Encoder.smallObject, ⟨1⟩⟩

theorem fetch_smallGraph : smallGraph.fetch = Store.get smallStore := by
  rw [smallGraph]

theorem smallGraph_lacksChild :
    smallGraph.LacksChild smallGraph.config.maxHops smallGraph.root.tree ["b", "c"] := by
  have hleaf : smallGraph.fetch Encoder.smallLeafObject.address = .ok Encoder.smallLeafObject := by
    rw [fetch_smallGraph]
    exact get_smallLeafObject
  have hlink : Entries.get? (Entries.ofList Encoder.smallShape.storedEntries) "b" =
      some (.link Encoder.smallLeafObject.address) := rfl
  have hmissing : Entries.get? (Entries.ofList Encoder.smallLeafShape.storedEntries) "c" = none :=
    rfl
  exact .inMap hlink (.behindLink hleaf (.key hmissing))

theorem get_eq_walk_in_small_document :
    (∀ a path, smallGraph.fetch a ≠ .error (.pathNotFound path)) ∧
      smallGraph.get ["b", valueField] = .value <$>
        smallGraph.walk ["b", valueField] 1 smallGraph.root.tree ["b", valueField] ∧
      ∃ e, smallGraph.get ["b", "c"] = .error e ∧ e.isAbsence = true := by
  have hfetch : ∀ a path, smallGraph.fetch a ≠ .error (.pathNotFound path) := by
    rw [fetch_smallGraph]
    exact Store.get_ne_pathNotFound smallStore
  exact ⟨hfetch, (get_eq_walk smallGraph hfetch ["b", valueField]).2.1 (by simp) (by simp),
    (get_eq_walk smallGraph hfetch ["b", "c"]).2.2.mpr ⟨by simp, smallGraph_lacksChild⟩⟩

end Graph

end ContentGraph
