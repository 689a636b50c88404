import ContentGraph.Proofs.MatchingStore
import Mathlib.Data.List.Nodup

/-! Memory stores that are filled in one order or another. An entry that is there stays, and of what
is put under one address the first stays: as long as the objects put do not share an address without
sharing their bytes, nothing of the order is left in the store. -/

namespace ContentGraph

theorem Separates.data_eq {involved : Bytes → Prop} (h : Separates involved) {o o' : Object}
    (ho : involved o.data) (ho' : involved o'.data) (htext : o.address.text = o'.address.text) :
    o.data = o'.data := by
  have haddress := Address.text_injective htext
  rw [o.address_eq, o'.address_eq] at haddress
  exact h _ _ ho ho' haddress

theorem separates_of_nodup {objects : List Object} (h : (objects.map Object.address).Nodup) :
    Separates fun data => ∃ o ∈ objects, o.data = data := by
  rintro _ _ ⟨o, ho, rfl⟩ ⟨o', ho', rfl⟩ hsame
  have haddress : o.address = o'.address := by rw [o.address_eq, o'.address_eq, hsame]
  rw [List.inj_on_of_nodup_map h ho ho' haddress]

namespace MemoryStore

variable {m last : MemoryStore}

theorem eq_of_get?_eq {n : MemoryStore} (h : ∀ key, m.table.get? key = n.table.get? key) :
    m = n := by
  have htable : m.table = n.table := Table.eq_of_get?_eq h
  cases m
  cases n
  cases htable
  rfl

/-- What was there is extended with each object's bytes under its address. -/
theorem get?_of_replays_iff {objects : List Object}
    (h : Replays Store.put m (objects.map .stored) last)
    (hseparates : Separates fun data => ∃ o ∈ objects, o.data = data) {key : String} {data : Bytes} :
    last.table.get? key = some data ↔ m.table.get? key = some data ∨
      m.table.get? key = none ∧ ∃ o ∈ objects, o.address.text = key ∧ o.data = data := by
  induction objects generalizing m with
  | nil =>
    cases h with
    | nil => simp
  | cons o rest ih =>
    cases h with
    | stored hput hrest =>
      obtain ⟨rfl, -⟩ := put_eq hput
      have hlater : Separates fun data => ∃ o ∈ rest, o.data = data := by
        refine hseparates.of_imp fun data hdata => ?_
        obtain ⟨o', ho', hdata⟩ := hdata
        exact ⟨o', List.mem_cons_of_mem _ ho', hdata⟩
      rw [ih hrest hlater, get?_write]
      cases hold : m.table.get? key with
      | some old => simp
      | none =>
        by_cases hkey : key = o.address.text
        · -- a later object under the same address has the same bytes
          have hsame : ∀ o' ∈ rest, o'.address.text = key → o'.data = o.data := fun o' ho' htext =>
            hseparates.data_eq ⟨o', List.mem_cons_of_mem _ ho', rfl⟩ ⟨o, List.mem_cons_self, rfl⟩
              (htext.trans hkey)
          simp only [if_pos hkey, Option.none_or, Option.some.injEq, reduceCtorEq, false_and,
            or_false, false_or, true_and]
          constructor
          · intro hdata
            exact ⟨o, List.mem_cons_self, hkey.symm, hdata⟩
          · rintro ⟨o', ho', htext, hdata⟩
            rcases List.mem_cons.mp ho' with rfl | ho'
            · exact hdata
            · rw [← hsame o' ho' htext, hdata]
        · have hother : o.address.text ≠ key := Ne.symm hkey
          simp [hkey, hother]

theorem eq_of_replays_perm {last' : MemoryStore} {objects others : List Object}
    (hperm : objects.Perm others) (h : Replays Store.put m (objects.map .stored) last)
    (hothers : Replays Store.put m (others.map .stored) last')
    (hseparates : Separates fun data => ∃ o ∈ others, o.data = data) : last = last' := by
  have hsame : Separates fun data => ∃ o ∈ objects, o.data = data := by
    simpa only [hperm.mem_iff] using hseparates
  refine eq_of_get?_eq fun key => Option.ext fun data => ?_
  rw [get?_of_replays_iff h hsame, get?_of_replays_iff hothers hseparates]
  simp only [hperm.mem_iff]

end MemoryStore

end ContentGraph
