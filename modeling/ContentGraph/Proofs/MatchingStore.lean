import ContentGraph.Proofs.EncodingRuns
import ContentGraph.Proofs.StoreGates
import ContentGraph.Store.Memory

/-! Memory stores whose entries stand under the addresses of their bytes. As long as no two of the
byte strings involved share an address, each object handed over is found there from then on. -/

namespace ContentGraph

/-- Different byte strings among those in question have different addresses. -/
def Separates (involved : Bytes → Prop) : Prop :=
  ∀ x y, involved x → involved y → Address.derive .node x = Address.derive .node y → x = y

theorem Separates.of_imp {involved some : Bytes → Prop} (h : Separates involved)
    (hsome : ∀ data, some data → involved data) : Separates some :=
  fun x y hx hy => h x y (hsome x hx) (hsome y hy)

theorem Object.address_eq (o : Object) : o.address = Address.derive .node o.data := by
  have hderived := o.block.derived
  rw [o.isNode] at hderived
  exact hderived.symm

theorem Object.read_of_canonical {o : Object} (h : Node.Canonical o.data o.tree) :
    Object.read o.address o.data = .ok o := by
  refine Object.read_eq_ok_iff.mpr ⟨?_, o.block.derived, o.isNode, h, rfl, rfl⟩
  rw [o.address_eq]
  rfl

namespace MemoryStore

def Matches (m : MemoryStore) : Prop :=
  ∀ key data, m.table.get? key = some data → ∃ codec, key = (Address.derive codec data).text

/-- The byte strings in a store and those handed over to it. -/
def Involved (m : MemoryStore) (calls : List PutCall) (data : Bytes) : Prop :=
  (∃ key, m.table.get? key = some data) ∨ ∃ o, .stored o ∈ calls ∧ o.data = data

theorem get?_write (m : MemoryStore) (key : String) (value : Bytes) (k : String) :
    (m.write key value).table.get? k =
      (m.table.get? k).or (if k = key then some value else none) := by
  rw [write]
  by_cases hkey : m.table.contains key = true
  · rw [if_pos hkey]
    by_cases hsame : k = key
    · obtain ⟨old, hold⟩ := Option.isSome_iff_exists.mp hkey
      rw [hsame, hold, Option.some_or]
    · rw [if_neg hsame, Option.or_none]
  · rw [if_neg hkey, Table.get?_insert]
    by_cases hsame : k = key
    · have hnone : m.table.get? key = none := Option.not_isSome_iff_eq_none.mp hkey
      rw [if_pos hsame, if_pos hsame, hsame, hnone, Option.none_or]
    · rw [if_neg hsame, if_neg hsame, Option.or_none]

variable {m last : MemoryStore} {calls : List PutCall}

theorem put_eq {o : Object} {result : Except StoreError Unit} (h : Store.put o m = (result, last)) :
    last = m.write o.address.text o.data ∧ result = .ok () := by
  cases h
  exact ⟨rfl, rfl⟩

theorem get?_of_replays (h : Replays Store.put m calls last) {key : String} {data : Bytes}
    (hdata : m.table.get? key = some data) : last.table.get? key = some data := by
  induction h with
  | nil => exact hdata
  | stored hput _ ih =>
    obtain ⟨rfl, -⟩ := put_eq hput
    refine ih ?_
    rw [get?_write, hdata, Option.some_or]
  | refused hput _ _ => cases (put_eq hput).2

/-- Where an entry is, its bytes are those of any object under that address. -/
theorem Matches.data_eq (h : m.Matches) {involved : Bytes → Prop} (hseparates : Separates involved)
    {o : Object} (ho : involved o.data) {data : Bytes} (hdata : m.table.get? o.address.text = some data)
    (hinvolved : involved data) : data = o.data := by
  obtain ⟨codec, hkey⟩ := h _ _ hdata
  have haddress := Address.text_injective hkey
  rw [o.address_eq] at haddress
  obtain rfl : codec = .node := (congrArg Address.codec haddress).symm
  exact (hseparates _ _ ho hinvolved haddress).symm

theorem Matches.write (h : m.Matches) (o : Object) : (m.write o.address.text o.data).Matches := by
  intro key data hdata
  rw [get?_write] at hdata
  rcases Option.or_eq_some_iff.mp hdata with hold | ⟨-, hnew⟩
  · exact h key data hold
  · split at hnew
    · next hkey =>
      cases hnew
      exact ⟨.node, by rw [hkey, o.address_eq]⟩
    · cases hnew

theorem involved_write {o : Object} {rest : List PutCall} {data : Bytes}
    (h : Involved (m.write o.address.text o.data) rest data) :
    Involved m (.stored o :: rest) data := by
  rcases h with ⟨key, hkey⟩ | ⟨o', ho', hdata⟩
  · rw [get?_write] at hkey
    rcases Option.or_eq_some_iff.mp hkey with hold | ⟨-, hnew⟩
    · exact .inl ⟨key, hold⟩
    · split at hnew
      · cases hnew
        exact .inr ⟨o, List.mem_cons_self, rfl⟩
      · cases hnew
  · exact .inr ⟨o', List.mem_cons_of_mem _ ho', hdata⟩

theorem get?_of_stored (h : Replays Store.put m calls last) (hmatches : m.Matches)
    (hseparates : Separates (m.Involved calls)) {o : Object} (ho : .stored o ∈ calls) :
    last.table.get? o.address.text = some o.data := by
  induction h with
  | nil => cases ho
  | @stored m next last o' rest hput hrest ih =>
    obtain ⟨rfl, -⟩ := put_eq hput
    rcases List.mem_cons.mp ho with hsame | hlater
    · cases hsame
      refine get?_of_replays hrest ?_
      rw [get?_write, if_pos rfl]
      cases hold : m.table.get? o.address.text with
      | none => exact Option.none_or
      | some data =>
        have hdata := hmatches.data_eq hseparates (.inr ⟨o, ho, rfl⟩) hold (.inl ⟨_, hold⟩)
        rw [hdata, Option.some_or]
    · exact ih (hmatches.write o') (hseparates.of_imp fun _ => involved_write) hlater
  | refused hput _ _ => cases (put_eq hput).2

/-- What was handed over can be fetched, if it does not nest too deep to be read. -/
theorem get_of_stored (h : Replays Store.put m calls last) (hmatches : m.Matches)
    (hseparates : Separates (m.Involved calls)) {o : Object} (ho : .stored o ∈ calls)
    (hcanonical : Node.Canonical o.data o.tree) : Store.get last o.address = .ok o :=
  Store.get_eq_ok_iff.mpr ⟨o.data,
    congrArg Except.ok (get?_of_stored h hmatches hseparates ho), Object.read_of_canonical hcanonical⟩

end MemoryStore

end ContentGraph
