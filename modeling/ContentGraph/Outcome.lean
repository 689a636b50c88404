/-! Computations that may fail: when a sequence of them succeeds, and when it fails. -/

namespace ContentGraph

/-- A computation that may fail and goes on with the state it left in either case. -/
abbrev Stateful (ε σ α : Type) := ExceptT ε (StateM σ) α

variable {ε α β : Type _}

theorem bind_eq_ok_iff {x : Except ε α} {f : α → Except ε β} {b : β} :
    (x >>= f) = .ok b ↔ ∃ a, x = .ok a ∧ f a = .ok b := by
  cases x <;> simp [bind, Except.bind]

theorem bind_eq_error_iff {x : Except ε α} {f : α → Except ε β} {e : ε} :
    (x >>= f) = .error e ↔ x = .error e ∨ ∃ a, x = .ok a ∧ f a = .error e := by
  cases x <;> simp [bind, Except.bind]

theorem pure_eq_ok_iff {a b : α} : (pure a : Except ε α) = .ok b ↔ a = b := by
  simp [pure, Except.pure]

theorem map_eq_ok_iff {f : α → β} {x : Except ε α} {b : β} :
    f <$> x = .ok b ↔ ∃ a, x = .ok a ∧ f a = b := by
  cases x <;> simp [Functor.map, Except.map]

theorem map_eq_error_iff {f : α → β} {x : Except ε α} {e : ε} :
    f <$> x = .error e ↔ x = .error e := by
  cases x <;> simp [Functor.map, Except.map]

namespace Stateful

variable {ε σ α β : Type} {x : Stateful ε σ α} {f : α → Stateful ε σ β} {s s' : σ}

theorem bind_of_ok {a : α} (h : x s = (.ok a, s')) : (x >>= f) s = f a s' := by
  show ExceptT.bindCont f (x s).1 (x s).2 = _
  rw [h]
  rfl

theorem bind_of_error {e : ε} (h : x s = (.error e, s')) : (x >>= f) s = (.error e, s') := by
  show ExceptT.bindCont f (x s).1 (x s).2 = _
  rw [h]
  rfl

theorem bind_of_fst_ok {a : α} (h : (x s).1 = .ok a) : (x >>= f) s = f a (x s).2 :=
  bind_of_ok (Prod.ext h rfl)

theorem exists_of_bind_eq_ok {b : β} (h : (x >>= f) s = (.ok b, s')) :
    ∃ a next, x s = (.ok a, next) ∧ f a next = (.ok b, s') := by
  cases hx : x s with
  | mk result next =>
    cases result with
    | ok a => exact ⟨a, next, rfl, (bind_of_ok hx).symm.trans h⟩
    | error e =>
      rw [bind_of_error hx] at h
      cases h

theorem tryCatch_eq (x : Stateful ε σ α) (handle : ε → Stateful ε σ α) (s : σ) :
    tryCatch x handle s =
      match x s with
      | (.ok a, s') => (.ok a, s')
      | (.error e, s') => handle e s' := by
  show (match (x s).1 with
      | .ok a => _
      | .error e => _ : StateM σ (Except ε α)) (x s).2 = _
  rcases x s with ⟨_ | _, _⟩ <;> rfl

end Stateful

theorem mapM_cons_eq_ok_iff {f : α → Except ε β} {x : α} {xs : List α} {ys : List β} :
    (x :: xs).mapM f = .ok ys ↔ ∃ y rest, f x = .ok y ∧ xs.mapM f = .ok rest ∧ ys = y :: rest := by
  simp only [List.mapM_cons, bind_eq_ok_iff, pure_eq_ok_iff, exists_and_left, eq_comm (b := ys)]

theorem mapM_eq_ok_map {f : α → Except ε β} {g : α → β} {xs : List α}
    (h : ∀ x ∈ xs, f x = .ok (g x)) : xs.mapM f = .ok (xs.map g) := by
  induction xs with
  | nil => rfl
  | cons x xs ih =>
    exact mapM_cons_eq_ok_iff.mpr ⟨g x, xs.map g, h x List.mem_cons_self,
      ih fun y hy => h y (List.mem_cons_of_mem _ hy), rfl⟩

theorem exists_of_mapM_eq_error {f : α → Except ε β} {xs : List α} {e : ε}
    (h : xs.mapM f = .error e) : ∃ x ∈ xs, f x = .error e := by
  induction xs with
  | nil => cases h
  | cons x xs ih =>
    rw [List.mapM_cons] at h
    rcases bind_eq_error_iff.mp h with hx | ⟨_, -, h⟩
    · exact ⟨x, List.mem_cons_self, hx⟩
    · rcases bind_eq_error_iff.mp h with hrest | ⟨_, -, h⟩
      · obtain ⟨x', hx', hfx⟩ := ih hrest
        exact ⟨x', List.mem_cons_of_mem _ hx', hfx⟩
      · cases h

theorem length_eq_of_mapM {f : α → Except ε β} {xs : List α} {ys : List β}
    (h : xs.mapM f = .ok ys) : ys.length = xs.length := by
  induction xs generalizing ys with
  | nil => cases h; rfl
  | cons x xs ih =>
    obtain ⟨y, rest, -, hrest, rfl⟩ := mapM_cons_eq_ok_iff.mp h
    rw [List.length_cons, List.length_cons, ih hrest]

theorem exists_of_mem_mapM {f : α → Except ε β} {xs : List α} {ys : List β}
    (h : xs.mapM f = .ok ys) {y : β} (hy : y ∈ ys) : ∃ x ∈ xs, f x = .ok y := by
  induction xs generalizing ys with
  | nil => cases h; cases hy
  | cons x xs ih =>
    obtain ⟨y', rest, hx, hrest, rfl⟩ := mapM_cons_eq_ok_iff.mp h
    rcases List.mem_cons.mp hy with rfl | hy
    · exact ⟨x, List.mem_cons_self, hx⟩
    · obtain ⟨x', hx', hfx⟩ := ih hrest hy
      exact ⟨x', List.mem_cons_of_mem _ hx', hfx⟩

end ContentGraph
