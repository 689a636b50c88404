/-! Finite maps keyed by text, as lists of entries in strictly increasing order of their keys. A map
has one such list, so maps that answer alike are equal. -/

namespace ContentGraph

abbrev Entries (α : Type u) := List (String × α)

namespace Entries

variable {α : Type u} {β : Type v}

def Sorted (entries : Entries α) : Prop :=
  entries.Pairwise fun a b => a.1 < b.1

instance (entries : Entries α) : Decidable (Sorted entries) :=
  inferInstanceAs (Decidable (entries.Pairwise _))

def get? (entries : Entries α) (key : String) : Option α :=
  entries.lookup key

/-- Gives `key` the value `value`, in place of any value it had. -/
def insert : Entries α → String → α → Entries α
  | [], key, value => [(key, value)]
  | (k, v) :: rest, key, value =>
    if key < k then (key, value) :: (k, v) :: rest
    else if key = k then (key, value) :: rest
    else (k, v) :: insert rest key value

/-- Of entries with the same key the last one counts. -/
def ofList (pairs : List (String × α)) : Entries α :=
  pairs.foldl (fun entries p => insert entries p.1 p.2) []

def mapValues (f : α → β) (entries : Entries α) : Entries β :=
  entries.map fun p => (p.1, f p.2)

theorem mem_insert {entries : Entries α} {key : String} {value : α} {p : String × α}
    (h : p ∈ insert entries key value) : p = (key, value) ∨ p ∈ entries := by
  induction entries with
  | nil => simpa [insert] using h
  | cons e rest ih =>
    simp only [insert] at h
    split at h
    · simpa using h
    · split at h <;> grind

theorem Sorted.insert {entries : Entries α} (h : Sorted entries) (key : String) (value : α) :
    Sorted (insert entries key value) := by
  induction entries with
  | nil => simp [Entries.insert, Sorted]
  | cons e rest ih =>
    obtain ⟨hhead, htail⟩ := List.pairwise_cons.mp h
    simp only [Entries.insert]
    split
    · next hlt =>
      refine List.pairwise_cons.mpr ⟨fun p hp => ?_, h⟩
      rcases List.mem_cons.mp hp with rfl | hp
      · exact hlt
      · exact String.lt_trans hlt (hhead p hp)
    · split
      · next heq => exact List.pairwise_cons.mpr ⟨fun p hp => heq ▸ hhead p hp, htail⟩
      · next hnlt hne =>
        refine List.pairwise_cons.mpr ⟨fun p hp => ?_, ih htail⟩
        rcases mem_insert hp with rfl | hp
        · rcases String.le_total key e.1 with hle | hle
          · exact absurd (String.le_antisymm hle (String.not_lt.mp hnlt)) hne
          · exact String.not_le.mp fun hge => hne (String.le_antisymm hge hle)
        · exact hhead p hp

theorem sorted_mapValues_iff {entries : Entries α} {f : α → β} :
    Sorted (mapValues f entries) ↔ Sorted entries :=
  List.pairwise_map

theorem Sorted.mapValues {entries : Entries α} (h : Sorted entries) (f : α → β) :
    Sorted (Entries.mapValues f entries) :=
  sorted_mapValues_iff.mpr h

theorem get?_insert (entries : Entries α) (key : String) (value : α) (k : String) :
    get? (insert entries key value) k = if k = key then some value else get? entries k := by
  induction entries with
  | nil => simp only [insert, get?, List.lookup_cons, List.lookup_nil]; grind
  | cons e rest ih =>
    simp only [get?] at ih
    simp only [insert, get?]
    split
    · simp only [List.lookup_cons]; grind
    · split
      · simp only [List.lookup_cons]; grind
      · simp only [List.lookup_cons, ih]; grind

theorem sorted_ofList (pairs : List (String × α)) : Sorted (ofList pairs) := by
  have general (entries : Entries α) (h : Sorted entries) :
      Sorted (pairs.foldl (fun entries p => insert entries p.1 p.2) entries) := by
    induction pairs generalizing entries with
    | nil => exact h
    | cons p rest ih => exact ih _ (h.insert p.1 p.2)
  exact general [] List.Pairwise.nil

theorem insert_of_forall_lt {entries : Entries α} {key : String} (value : α)
    (h : ∀ p ∈ entries, p.1 < key) : insert entries key value = entries ++ [(key, value)] := by
  induction entries with
  | nil => rfl
  | cons e rest ih =>
    have hlt := h e List.mem_cons_self
    have hne : key ≠ e.1 := fun heq => String.lt_irrefl _ (heq ▸ hlt)
    rw [insert, if_neg (String.lt_asymm hlt), if_neg hne,
      ih fun p hp => h p (List.mem_cons_of_mem _ hp)]
    rfl

theorem ofList_of_sorted {entries : Entries α} (h : Sorted entries) : ofList entries = entries := by
  have general (front back : Entries α) (h : Sorted (front ++ back)) :
      back.foldl (fun entries p => insert entries p.1 p.2) front = front ++ back := by
    induction back generalizing front with
    | nil => rw [List.append_nil, List.foldl_nil]
    | cons p rest ih =>
      have hlast : ∀ e ∈ front, e.1 < p.1 := fun e he =>
        (List.pairwise_append.mp h).2.2 e he p List.mem_cons_self
      rw [List.foldl_cons, insert_of_forall_lt p.2 hlast,
        ih (front ++ [p]) (by rwa [List.append_assoc])]
      exact List.append_assoc front [p] rest
  exact general [] entries h

theorem length_insert_le (entries : Entries α) (key : String) (value : α) :
    (insert entries key value).length ≤ entries.length + 1 := by
  induction entries with
  | nil => exact Nat.le_refl 1
  | cons e rest ih =>
    rw [insert]
    split
    · exact Nat.le_refl _
    · split
      · exact Nat.le_succ _
      · exact Nat.succ_le_succ ih

theorem length_ofList_le (pairs : List (String × α)) : (ofList pairs).length ≤ pairs.length := by
  have general (entries : Entries α) :
      (pairs.foldl (fun entries p => insert entries p.1 p.2) entries).length ≤
        entries.length + pairs.length := by
    induction pairs generalizing entries with
    | nil => exact Nat.le_refl _
    | cons p rest ih =>
      have hh := ih (insert entries p.1 p.2)
      have := length_insert_le entries p.1 p.2
      simp only [List.foldl_cons, List.length_cons]
      omega
  have hlength := general []
  rwa [List.length_nil, Nat.zero_add] at hlength

theorem mem_of_mem_ofList {pairs : List (String × α)} {p : String × α} (h : p ∈ ofList pairs) :
    p ∈ pairs := by
  have general (pairs : List (String × α)) (entries : Entries α) :
      p ∈ pairs.foldl (fun entries p => insert entries p.1 p.2) entries →
        p ∈ entries ∨ p ∈ pairs := by
    induction pairs generalizing entries with
    | nil => exact .inl
    | cons q rest ih =>
      intro hfold
      rcases ih _ hfold with hmem | hmem
      · rcases mem_insert hmem with rfl | hmem
        · exact .inr List.mem_cons_self
        · exact .inl hmem
      · exact .inr (List.mem_cons_of_mem _ hmem)
  exact (general pairs [] h).resolve_left List.not_mem_nil

theorem mem_of_get? {entries : Entries α} {key : String} {value : α}
    (h : get? entries key = some value) : (key, value) ∈ entries := by
  obtain ⟨front, back, rfl, -⟩ := List.lookup_eq_some_iff.mp h
  exact List.mem_append_right _ List.mem_cons_self

@[simp] theorem get?_nil (key : String) : get? ([] : Entries α) key = none := rfl

theorem get?_cons (e : String × α) (rest : Entries α) (key : String) :
    get? (e :: rest) key = if key = e.1 then some e.2 else get? rest key := by
  rw [get?, get?, List.lookup_cons]
  by_cases hkey : key = e.1
  · rw [if_pos hkey, beq_iff_eq.mpr hkey]
  · rw [if_neg hkey, beq_eq_false_iff_ne.mpr hkey]

theorem get?_eq_none_of_lt {entries : Entries α} {key : String} (h : ∀ p ∈ entries, key < p.1) :
    get? entries key = none := by
  refine List.lookup_eq_none_iff.mpr fun p hp => ?_
  have hne : key ≠ p.1 := fun heq => String.lt_irrefl _ (heq ▸ h p hp)
  simpa using hne

/-- The least key of one list cannot stand before all keys of another that answers alike. -/
theorem not_lt_of_get?_eq {e other : String × α} {rest more : Entries α}
    (hmore : Sorted (other :: more)) (hsame : get? (e :: rest) e.1 = get? (other :: more) e.1) :
    ¬e.1 < other.1 := by
  intro hlt
  have hall : ∀ p ∈ other :: more, e.1 < p.1 := by
    intro p hp
    rcases List.mem_cons.mp hp with rfl | hp
    · exact hlt
    · exact String.lt_trans hlt ((List.pairwise_cons.mp hmore).1 p hp)
  simp [get?_eq_none_of_lt hall, get?_cons] at hsame

theorem eq_of_get?_eq {entries others : Entries α} (h : Sorted entries) (hothers : Sorted others)
    (hsame : ∀ key, get? entries key = get? others key) : entries = others := by
  induction entries generalizing others with
  | nil =>
    cases others with
    | nil => rfl
    | cons other _ => simpa [get?_cons] using hsame other.1
  | cons e rest ih =>
    cases others with
    | nil => simpa [get?_cons] using hsame e.1
    | cons other more =>
      have hkey : e.1 = other.1 := String.le_antisymm
        (String.not_lt.mp (not_lt_of_get?_eq h (hsame other.1).symm))
        (String.not_lt.mp (not_lt_of_get?_eq hothers (hsame e.1)))
      have hvalue : e.2 = other.2 := by simpa [get?_cons, hkey] using hsame e.1
      obtain rfl : e = other := Prod.ext hkey hvalue
      obtain ⟨hfirst, hrest⟩ := List.pairwise_cons.mp h
      obtain ⟨hother, hmore⟩ := List.pairwise_cons.mp hothers
      have htail : rest = more := by
        refine ih hrest hmore fun key => ?_
        by_cases hhead : key = e.1
        · rw [hhead, get?_eq_none_of_lt hfirst, get?_eq_none_of_lt hother]
        · simpa [get?_cons, hhead] using hsame key
      rw [htail]

theorem get?_mapValues (f : α → β) (entries : Entries α) (key : String) :
    get? (mapValues f entries) key = (get? entries key).map f := by
  induction entries with
  | nil => rfl
  | cons e rest ih =>
    rw [mapValues] at ih
    rw [mapValues, List.map_cons, get?_cons, get?_cons, ih]
    split <;> rfl

theorem get?_append (front back : Entries α) (key : String) :
    get? (front ++ back) key = (get? front key).or (get? back key) :=
  List.lookup_append

theorem get?_ofList (pairs : List (String × α)) (key : String) :
    get? (ofList pairs) key = get? pairs.reverse key := by
  have general (entries : Entries α) :
      get? (pairs.foldl (fun entries p => insert entries p.1 p.2) entries) key =
        (get? pairs.reverse key).or (get? entries key) := by
    induction pairs generalizing entries with
    | nil => rfl
    | cons p rest ih =>
      rw [List.foldl_cons, ih, get?_insert, List.reverse_cons, get?_append, get?_cons, get?_nil,
        Option.or_assoc]
      by_cases hkey : key = p.1
      · rw [if_pos hkey, if_pos hkey, Option.some_or]
      · rw [if_neg hkey, if_neg hkey, Option.none_or]
  have hempty := general []
  rwa [get?_nil, Option.or_none] at hempty

/-- The later entries count first. -/
theorem get?_ofList_append (front back : List (String × α)) (key : String) :
    get? (ofList (front ++ back)) key =
      (get? (ofList back) key).or (get? (ofList front) key) := by
  rw [get?_ofList, get?_ofList, get?_ofList, List.reverse_append, get?_append]

theorem get?_ofList_eq_none_iff {pairs : List (String × α)} {key : String} :
    get? (ofList pairs) key = none ↔ ∀ p ∈ pairs, p.1 ≠ key := by
  rw [get?_ofList, get?, List.lookup_eq_none_iff]
  constructor
  · intro h p hp heq
    simpa [heq] using h p (List.mem_reverse.mpr hp)
  · intro h p hp
    simpa using (h p (List.mem_reverse.mp hp)).symm

/-- Of the entries with a key the last one counts. -/
theorem get?_ofList_map {β : Type u} (name : β → String) (value : β → α) (xs : List β) (key : String) :
    get? (ofList (xs.map fun x => (name x, value x))) key =
      (xs.reverse.find? fun x => name x = key).map value := by
  have general (xs : List β) : get? (xs.map fun x => (name x, value x)) key =
      (xs.find? fun x => name x = key).map value := by
    induction xs with
    | nil => rfl
    | cons x rest ih =>
      rw [List.map_cons, get?_cons, List.find?_cons, ih]
      by_cases hkey : name x = key
      · rw [if_pos hkey.symm, decide_eq_true hkey]
        rfl
      · rw [if_neg (Ne.symm hkey), decide_eq_false hkey]
  rw [get?_ofList, ← List.map_reverse, general]

theorem get?_ofList_eq_some_iff {pairs : List (String × α)} (h : (pairs.map Prod.fst).Nodup)
    {key : String} {value : α} : get? (ofList pairs) key = some value ↔ (key, value) ∈ pairs := by
  constructor
  · exact fun hfound => mem_of_mem_ofList (mem_of_get? hfound)
  · intro hmem
    obtain ⟨front, back, rfl⟩ := List.append_of_mem hmem
    have hdistinct := (List.pairwise_append.mp (List.pairwise_map.mp h)).2.1
    have hlater : get? (ofList back) key = none :=
      get?_ofList_eq_none_iff.mpr fun p hp => Ne.symm ((List.pairwise_cons.mp hdistinct).1 p hp)
    have hlast : get? (ofList ([(key, value)] ++ back)) key = some value := by
      rw [get?_ofList_append, hlater]
      simp [ofList, insert, get?_cons]
    rw [get?_ofList_append, ← List.singleton_append, hlast, Option.some_or]

theorem ofList_perm {pairs others : List (String × α)} (h : (pairs.map Prod.fst).Nodup)
    (hperm : pairs.Perm others) : ofList pairs = ofList others := by
  have h' : (others.map Prod.fst).Nodup := (hperm.map _).nodup h
  apply eq_of_get?_eq (sorted_ofList _) (sorted_ofList _)
  intro key
  apply Option.ext
  intro value
  rw [get?_ofList_eq_some_iff h, get?_ofList_eq_some_iff h', hperm.mem_iff]

theorem get?_filter_of_ne {entries : Entries α} {name key : String} (h : key ≠ name) :
    get? (entries.filter fun p => p.1 ≠ name) key = get? entries key := by
  induction entries with
  | nil => rfl
  | cons p rest ih =>
    by_cases hp : p.1 = name
    · have hkey : key ≠ p.1 := by simpa [hp] using h
      rw [List.filter_cons_of_neg (by simpa using hp), ih, get?_cons, if_neg hkey]
    · rw [List.filter_cons_of_pos (by simpa using hp), get?_cons, get?_cons, ih]

/-- What an entry overwrites need not be there. -/
theorem ofList_overwritten (front back : List (String × α)) (p : String × α) :
    ofList (front ++ p :: back) = ofList (front.filter (fun q => q.1 ≠ p.1) ++ p :: back) := by
  apply eq_of_get?_eq (sorted_ofList _) (sorted_ofList _)
  intro key
  rw [get?_ofList_append, get?_ofList_append]
  by_cases hkey : key = p.1
  · cases hlater : get? (ofList (p :: back)) key with
    | none => exact absurd hkey.symm (get?_ofList_eq_none_iff.mp hlater p List.mem_cons_self)
    | some _ => rfl
  · have hfront : get? (ofList (front.filter fun q => q.1 ≠ p.1)) key = get? (ofList front) key := by
      rw [get?_ofList, get?_ofList, ← List.filter_reverse, get?_filter_of_ne hkey]
    rw [hfront]

end Entries

/-- A finite map keyed by text. -/
structure Table (α : Type u) where
  entries : Entries α
  sorted : Entries.Sorted entries

namespace Table

variable {α : Type u}

def empty : Table α := ⟨[], List.Pairwise.nil⟩

instance : Inhabited (Table α) := ⟨empty⟩

def get? (t : Table α) (key : String) : Option α :=
  Entries.get? t.entries key

def contains (t : Table α) (key : String) : Bool :=
  (t.get? key).isSome

def insert (t : Table α) (key : String) (value : α) : Table α :=
  ⟨Entries.insert t.entries key value, t.sorted.insert key value⟩

def ofList (pairs : List (String × α)) : Table α :=
  ⟨Entries.ofList pairs, Entries.sorted_ofList pairs⟩

def keys (t : Table α) : List String :=
  t.entries.map (·.1)

def mapValues {β : Type v} (f : α → β) (t : Table α) : Table β :=
  ⟨Entries.mapValues f t.entries, t.sorted.mapValues f⟩

def size (t : Table α) : Nat :=
  t.entries.length

theorem ofList_entries (t : Table α) : ofList t.entries = t := by
  obtain ⟨entries, hsorted⟩ := t
  simp only [ofList, Entries.ofList_of_sorted hsorted]

theorem ofList_perm {pairs others : List (String × α)} (h : (pairs.map Prod.fst).Nodup)
    (hperm : pairs.Perm others) : ofList pairs = ofList others := by
  simp only [ofList, Entries.ofList_perm h hperm]

theorem get?_insert (t : Table α) (key : String) (value : α) (k : String) :
    (t.insert key value).get? k = if k = key then some value else t.get? k :=
  Entries.get?_insert t.entries key value k

theorem eq_of_get?_eq {t u : Table α} (h : ∀ key, t.get? key = u.get? key) : t = u := by
  have hentries := Entries.eq_of_get?_eq t.sorted u.sorted h
  cases t
  cases u
  cases hentries
  rfl

end Table

end ContentGraph
