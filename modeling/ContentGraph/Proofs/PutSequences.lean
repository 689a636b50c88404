import ContentGraph.Proofs.Authentication
import ContentGraph.Proofs.PutOrder

/-! Puts in any order and any number. As long as the entries of a memory store match their keys, and
no two of the byte strings involved share an address, all sequences that put the same objects end in
the same store: what was there, and each object's bytes under its address. -/

namespace ContentGraph

theorem Object.block_eq (o : Object) : o.block = Block.ofData .node o.tree.encode := by
  obtain ⟨⟨address, data, hderived⟩, tree, type, hnode, hencoded, htype⟩ := o
  obtain rfl : tree.encode = data := hencoded
  obtain rfl : Address.derive .node tree.encode = address := by
    rw [← show address.codec = .node from hnode, hderived]
  rfl

/-- Every object is the one that is made of its tree, so what holds of all objects holds of those
that are made, in this way or by reading bytes. -/
theorem Object.ofNode_tree (o : Object) : ofNode o.tree = .ok o := by
  unfold ofNode
  split
  · next htype =>
    rw [o.declared] at htype
    cases htype
  · exact congrArg _ (eq_of_block_of_tree o.block_eq.symm rfl)

namespace Store

/-- Puts objects one after the other, as long as none fails. -/
def putAll {σ : Type} [Backend σ] (objects : List Object) : Stateful StoreError σ Unit :=
  objects.forM put

theorem get?_put {m : MemoryStore} {key : String} {data : Bytes}
    (h : m.table.get? key = some data) (o : Object) :
    (put o m).2.table.get? key = some data := by
  show (m.write o.address.text o.data).table.get? key = some data
  rw [MemoryStore.get?_write, h, Option.some_or]

theorem exists_replays_putAll (objects : List Object) (m : MemoryStore) :
    ∃ last, putAll objects m = (.ok (), last) ∧ Replays put m (objects.map .stored) last := by
  induction objects generalizing m with
  | nil => exact ⟨m, rfl, .nil⟩
  | cons o rest ih =>
    have hput : put o m = (.ok (), (put o m).2) := rfl
    obtain ⟨last, hrest, hreplay⟩ := ih (put o m).2
    refine ⟨last, ?_, .stored hput hreplay⟩
    show (put o >>= fun _ => putAll rest) m = _
    rw [Stateful.bind_of_ok hput]
    exact hrest

end Store

namespace MemoryStore

theorem get?_of_putAll_iff {m last : MemoryStore} (hmatches : m.Matches) {objects : List Object}
    (hseparates : Separates fun data =>
      (∃ key, m.table.get? key = some data) ∨ ∃ o ∈ objects, o.data = data)
    (h : Replays Store.put m (objects.map .stored) last) {key : String} {data : Bytes} :
    last.table.get? key = some data ↔ m.table.get? key = some data ∨
      ∃ o ∈ objects, o.address.text = key ∧ o.data = data := by
  rw [get?_of_replays_iff h (hseparates.of_imp fun _ => .inr)]
  constructor
  · exact Or.imp_right And.right
  · rintro (hold | ⟨o, ho, rfl, rfl⟩)
    · exact .inl hold
    · -- what stands there already are the object's own bytes
      cases hold : m.table.get? o.address.text with
      | none => exact .inr ⟨rfl, o, ho, rfl, rfl⟩
      | some old =>
        have hdata := hmatches.data_eq hseparates (.inr ⟨o, ho, rfl⟩) hold (.inl ⟨_, hold⟩)
        exact .inl (congrArg some hdata)

end MemoryStore

namespace Store

/-- The store that puts end in depends on which objects are put and on nothing else, and an entry
that is there stays as it is. Calls that are made at the same time take their turns, so whatever
they are, they make one sequence. -/
theorem puts_commute (m : MemoryStore) (hmatches : m.Matches) (objects : List Object)
    (hseparates : Separates fun data =>
      (∃ key, m.table.get? key = some data) ∨ ∃ o ∈ objects, o.data = data) :
    ∃ last : MemoryStore,
      (∀ key data, last.table.get? key = some data ↔ m.table.get? key = some data ∨
        ∃ o ∈ objects, o.address.text = key ∧ o.data = data) ∧
      (∀ puts : List Object, (∀ o, o ∈ puts ↔ o ∈ objects) → putAll puts m = (.ok (), last)) ∧
      ∀ (n : MemoryStore) (o : Object) (key : String) (data : Bytes),
        n.table.get? key = some data → (put o n).2.table.get? key = some data := by
  obtain ⟨last, -, hreplay⟩ := exists_replays_putAll objects m
  have hlast (key : String) (data : Bytes) :
      last.table.get? key = some data ↔ m.table.get? key = some data ∨
        ∃ o ∈ objects, o.address.text = key ∧ o.data = data :=
    MemoryStore.get?_of_putAll_iff hmatches hseparates hreplay
  refine ⟨last, hlast, fun puts hputs => ?_, fun _ o _ _ h => get?_put h o⟩
  obtain ⟨final, hputAll, hreplay'⟩ := exists_replays_putAll puts m
  have hseparates' : Separates fun data =>
      (∃ key, m.table.get? key = some data) ∨ ∃ o ∈ puts, o.data = data := by
    simpa only [hputs] using hseparates
  have hsame : final = last := by
    refine MemoryStore.eq_of_get?_eq fun key => Option.ext fun data => ?_
    rw [MemoryStore.get?_of_putAll_iff hmatches hseparates' hreplay', hlast]
    simp only [hputs]
  rw [hputAll, hsame]

open Encoder (smallObject smallLeafObject smallCalls)

/-- A store that holds the leaf of the small document already. -/
def leafStore : MemoryStore :=
  (put smallLeafObject MemoryStore.empty).2

theorem leafStore_matches : leafStore.Matches := by
  have hempty : MemoryStore.empty.Matches := fun _ _ h => nomatch h
  exact hempty.write smallLeafObject

theorem leafStore_separates : Separates fun data =>
    (∃ key, leafStore.table.get? key = some data) ∨
      ∃ o ∈ [smallObject, smallLeafObject], o.data = data := by
  refine Encoder.smallCalls_separate.of_imp fun data hdata => .inr ?_
  rcases hdata with ⟨key, hkey⟩ | ⟨o, ho, hdata⟩
  · rw [leafStore] at hkey
    have hinvolved := @MemoryStore.involved_write MemoryStore.empty smallLeafObject [] data
      (.inl ⟨key, hkey⟩)
    rcases hinvolved with ⟨_, hempty⟩ | ⟨o, ho, hdata⟩
    · cases hempty
    · cases List.mem_singleton.mp ho
      exact ⟨smallLeafObject, by simp [smallCalls], hdata⟩
  · refine ⟨o, ?_, hdata⟩
    rcases List.mem_cons.mp ho with rfl | ho
    · simp [smallCalls]
    · cases List.mem_singleton.mp ho
      simp [smallCalls]

theorem puts_commute_in_small_document :
    ∃ last : MemoryStore,
      last.table.get? smallObject.address.text = some smallObject.data ∧
        putAll [smallObject, smallLeafObject] leafStore = (.ok (), last) ∧
          putAll [smallLeafObject, smallObject, smallLeafObject, smallObject] leafStore =
            (.ok (), last) := by
  obtain ⟨last, hentries, hlast, -⟩ := puts_commute leafStore leafStore_matches
    [smallObject, smallLeafObject] leafStore_separates
  have hmem (a b o : Object) : o ∈ [b, a, b, a] ↔ o ∈ [a, b] := by
    simp only [List.mem_cons, List.not_mem_nil, or_false]
    tauto
  have hroot := (hentries smallObject.address.text smallObject.data).mpr
    (.inr ⟨smallObject, List.mem_cons_self, rfl, rfl⟩)
  exact ⟨last, hroot, hlast _ fun _ => Iff.rfl, hlast _ (hmem smallObject smallLeafObject)⟩

end Store

end ContentGraph
