import ContentGraph.Object
import Mathlib.Data.List.Forall2
import Mathlib.Data.List.Perm.Basic
import Mathlib.Data.Quot
import Mathlib.Logic.Relation

/-! Values whose maps have the same entries in different orders, or entries that later ones
overwrite. They are stored as the same object, or none of them is. -/

namespace ContentGraph

section

variable {ε α β : Type}

theorem mapM_eq_ok_iff_forall₂ {f : α → Except ε β} {xs : List α} {ys : List β} :
    xs.mapM f = .ok ys ↔ List.Forall₂ (fun x y => f x = .ok y) xs ys := by
  induction xs generalizing ys with
  | nil => simp [pure, Except.pure, eq_comm]
  | cons x xs ih =>
    rw [mapM_cons_eq_ok_iff, List.forall₂_cons_left_iff]
    simp only [ih]

theorem exists_mapM_of_perm {f : α → Except ε β} {xs others : List α} {ys : List β}
    (h : xs.mapM f = .ok ys) (hperm : xs.Perm others) :
    ∃ zs, others.mapM f = .ok zs ∧ ys.Perm zs := by
  have hpairs := mapM_eq_ok_iff_forall₂.mp h
  obtain ⟨zs, hzs, hys⟩ := List.perm_comp_forall₂ hperm.symm hpairs
  exact ⟨zs, mapM_eq_ok_iff_forall₂.mpr hzs, hys.symm⟩

theorem mapM_filter {f : α → Except ε β} {keep : α → Bool} {keep' : β → Bool} {xs : List α}
    {ys : List β} (h : xs.mapM f = .ok ys) (hkeep : ∀ x y, f x = .ok y → keep x = keep' y) :
    (xs.filter keep).mapM f = .ok (ys.filter keep') := by
  have hpairs := mapM_eq_ok_iff_forall₂.mp h
  apply mapM_eq_ok_iff_forall₂.mpr
  clear h
  induction hpairs with
  | nil => exact .nil
  | @cons x y xs ys hfirst _ ih =>
    have hsame := hkeep x y hfirst
    by_cases hx : keep x = true
    · rw [List.filter_cons_of_pos hx, List.filter_cons_of_pos (hsame ▸ hx)]
      exact .cons hfirst ih
    · rw [List.filter_cons_of_neg hx, List.filter_cons_of_neg (hsame ▸ hx)]
      exact ih

/-- Both computations give the same, or both fail, with errors that `E` relates. -/
inductive SameOutcome (E : ε → ε → Prop) : Except ε α → Except ε α → Prop
  | ok (a : α) : SameOutcome E (.ok a) (.ok a)
  | error {e e' : ε} (h : E e e') : SameOutcome E (.error e) (.error e')

namespace SameOutcome

variable {E : ε → ε → Prop} {x y : Except ε α}

theorem eq (h : SameOutcome Eq x y) : x = y := by
  cases h with
  | ok => rfl
  | error h => rw [h]

section

variable (hE : Equivalence E)
include hE

theorem refl (x : Except ε α) : SameOutcome E x x := by
  cases x with
  | ok a => exact .ok a
  | error e => exact .error (hE.refl e)

theorem trans {z : Except ε α} (h : SameOutcome E x y) (h' : SameOutcome E y z) :
    SameOutcome E x z := by
  cases h with
  | ok a => exact h'
  | error h =>
    cases h' with
    | error h' => exact .error (hE.trans h h')

theorem bind (h : SameOutcome E x y) (f : α → Except ε β) :
    SameOutcome E (x >>= f) (y >>= f) := by
  cases h with
  | ok a => exact refl hE (f a)
  | error h => exact .error h

theorem mapM_middle {f : α → Except ε β} {a b : α} (h : SameOutcome E (f a) (f b))
    (front back : List α) :
    SameOutcome E ((front ++ a :: back).mapM f) ((front ++ b :: back).mapM f) := by
  rw [List.mapM_append, List.mapM_append, List.mapM_cons, List.mapM_cons]
  cases front.mapM f with
  | ok first => exact bind hE (bind hE h _) _
  | error e => exact refl hE _

end

theorem map (h : SameOutcome E x y) (f : α → β) : SameOutcome E (f <$> x) (f <$> y) := by
  cases h with
  | ok a => exact .ok (f a)
  | error h => exact .error h

end SameOutcome

end

namespace Value

def render (entry : Value × Value) : Except ValueError (String × Json) := do
  let name ← keyText entry.1
  let json ← toJson entry.2
  return (name, json)

theorem jsonItems_eq (items : List Value) : jsonItems items = items.mapM toJson := by
  induction items with
  | nil => rfl
  | cons value rest ih =>
    rw [jsonItems, ih, List.mapM_cons]

theorem jsonMembers_eq (before : Entries Json) (entries : List (Value × Value)) :
    jsonMembers before entries = (fun members =>
      members.foldl (fun entries p => Entries.insert entries p.1 p.2) before) <$>
        entries.mapM render := by
  induction entries generalizing before with
  | nil => rfl
  | cons entry rest ih =>
    obtain ⟨key, value⟩ := entry
    rw [jsonMembers, List.mapM_cons, render]
    cases hkey : keyText key with
    | error e => rfl
    | ok name =>
      cases hvalue : toJson value with
      | error e => rfl
      | ok json =>
        show jsonMembers _ rest = _
        rw [ih]
        cases rest.mapM render <;> rfl

theorem toJson_map (entries : List (Value × Value)) :
    (Value.map entries).toJson =
      (fun members => .object (Entries.ofList members)) <$> entries.mapM render := by
  rw [toJson, jsonMembers_eq]
  cases entries.mapM render <;> rfl

/-- A change of the entries of one map, at any depth of a value. -/
inductive Change (R : List (Value × Value) → List (Value × Value) → Prop) : Value → Value → Prop
  | map {entries others : List (Value × Value)} (h : R entries others) :
    Change R (.map entries) (.map others)
  | some {v w : Value} (h : Change R v w) : Change R (.some v) (.some w)
  | variant (name : String) {v w : Value} (h : Change R v w) :
    Change R (.variant name v) (.variant name w)
  | item (front back : List Value) {v w : Value} (h : Change R v w) :
    Change R (.sequence (front ++ v :: back)) (.sequence (front ++ w :: back))
  | entry (front back : List (Value × Value)) (key : Value) {v w : Value} (h : Change R v w) :
    Change R (.map (front ++ (key, v) :: back)) (.map (front ++ (key, w) :: back))
  | key (front back : List (Value × Value)) (value : Value) {v w : Value} (h : Change R v w) :
    Change R (.map (front ++ (v, value) :: back)) (.map (front ++ (w, value) :: back))

/-- Any number of changes, of any of the maps. -/
abbrev Changes (R : List (Value × Value) → List (Value × Value) → Prop) :=
  Relation.ReflTransGen (Change R)

def keyTexts (entries : List (Value × Value)) : List String :=
  entries.filterMap fun entry => (keyText entry.1).toOption

/-- The same entries in another order. No two of their keys read alike. -/
def Shuffled (entries others : List (Value × Value)) : Prop :=
  (keyTexts entries).Nodup ∧ entries.Perm others

/-- The same entries without those that have the key of a later one. All have a JSON form. -/
inductive Settled : List (Value × Value) → List (Value × Value) → Prop
  | intro {front back : List (Value × Value)} {key value : Value} {name : String}
    (hkey : keyText key = .ok name) (hlast : name ∉ keyTexts back)
    (hserializes : ∀ entry ∈ front ++ (key, value) :: back, ∃ member, render entry = .ok member) :
    Settled (front ++ (key, value) :: back)
      (front.filter (fun entry => (keyText entry.1).toOption ≠ Option.some name) ++
        (key, value) :: back)

section

variable {R : List (Value × Value) → List (Value × Value) → Prop}
  {E : ValueError → ValueError → Prop} {v w : Value}

/-- Only texts, numbers and truth values can be keys. -/
theorem Change.keyText_eq (h : Change R v w) : keyText v = keyText w := by
  cases h <;> rfl

variable (hE : Equivalence E)
  (hmaps : ∀ entries others, R entries others →
    SameOutcome E (Value.map entries).toJson (Value.map others).toJson)
include hE hmaps

theorem Change.sameOutcome (h : Change R v w) : SameOutcome E v.toJson w.toJson := by
  induction h with
  | map h => exact hmaps _ _ h
  | some _ ih => exact ih
  | variant name _ ih => exact ih.map _
  | item front back _ ih =>
    rw [toJson, toJson, jsonItems_eq, jsonItems_eq]
    exact (ih.mapM_middle hE front back).map _
  | @entry front back key v w _ ih =>
    have hrender : SameOutcome E (render (key, v)) (render (key, w)) := by
      rw [render, render]
      cases keyText key with
      | ok name => exact ih.bind hE _
      | error e => exact .refl hE _
    rw [toJson_map, toJson_map]
    exact (hrender.mapM_middle hE front back).map _
  | @key front back value v w h _ =>
    have hrender : SameOutcome E (render (v, value)) (render (w, value)) := by
      rw [render, render, h.keyText_eq]
      exact .refl hE _
    rw [toJson_map, toJson_map]
    exact (hrender.mapM_middle hE front back).map _

theorem Changes.sameOutcome (h : Changes R v w) : SameOutcome E v.toJson w.toJson := by
  induction h with
  | refl => exact .refl hE _
  | tail _ hchange ih => exact ih.trans hE (hchange.sameOutcome hE hmaps)

end

theorem render_eq_ok_iff {entry : Value × Value} {member : String × Json} :
    render entry = .ok member ↔
      keyText entry.1 = .ok member.1 ∧ toJson entry.2 = .ok member.2 := by
  simp only [render, bind_eq_ok_iff, pure_eq_ok_iff]
  constructor
  · rintro ⟨name, hname, json, hjson, rfl⟩
    exact ⟨hname, hjson⟩
  · rintro ⟨hname, hjson⟩
    exact ⟨member.1, hname, member.2, hjson, rfl⟩

theorem names_eq_keyTexts {entries : List (Value × Value)} {members : List (String × Json)}
    (h : entries.mapM render = .ok members) : members.map Prod.fst = keyTexts entries := by
  have hpairs := mapM_eq_ok_iff_forall₂.mp h
  clear h
  induction hpairs with
  | nil => rfl
  | cons hfirst _ ih =>
    have hname := (render_eq_ok_iff.mp hfirst).1
    simp [keyTexts, hname, ih, Except.toOption]

theorem Shuffled.sameOutcome {entries others : List (Value × Value)} (h : Shuffled entries others) :
    SameOutcome (fun _ _ => True) (Value.map entries).toJson (Value.map others).toJson := by
  obtain ⟨hdistinct, hperm⟩ := h
  rw [toJson_map, toJson_map]
  cases hmembers : entries.mapM render with
  | ok members =>
    obtain ⟨members', hmembers', hsame⟩ := exists_mapM_of_perm hmembers hperm
    have hnames : (members.map Prod.fst).Nodup := names_eq_keyTexts hmembers ▸ hdistinct
    have hobject : Entries.ofList members = Entries.ofList members' :=
      Entries.ofList_perm hnames hsame
    rw [hmembers']
    simp only [Functor.map, Except.map, hobject]
    exact .ok _
  | error e =>
    cases hothers : others.mapM render with
    | ok members =>
      obtain ⟨_, hfound, -⟩ := exists_mapM_of_perm hothers hperm.symm
      rw [hfound] at hmembers
      cases hmembers
    | error e' => exact .error trivial

theorem exists_mapM_render {entries : List (Value × Value)}
    (h : ∀ entry ∈ entries, ∃ member, render entry = .ok member) :
    ∃ members, entries.mapM render = .ok members := by
  cases hmembers : entries.mapM render with
  | ok members => exact ⟨members, rfl⟩
  | error e =>
    obtain ⟨entry, hentry, hfails⟩ := exists_of_mapM_eq_error hmembers
    obtain ⟨member, hmember⟩ := h entry hentry
    rw [hmember] at hfails
    cases hfails

theorem Settled.toJson_eq {entries others : List (Value × Value)} (h : Settled entries others) :
    (Value.map entries).toJson = (Value.map others).toJson := by
  cases h with
  | @intro front back key value name hkey _ hserializes =>
    obtain ⟨members, hmembers⟩ := exists_mapM_render hserializes
    rw [List.mapM_append] at hmembers
    obtain ⟨first, hfirst, hrest⟩ := bind_eq_ok_iff.mp hmembers
    obtain ⟨rest, hrest, -⟩ := bind_eq_ok_iff.mp hrest
    obtain ⟨⟨name', json⟩, later, hmember, -, rfl⟩ := mapM_cons_eq_ok_iff.mp hrest
    obtain rfl : name = name' := by
      have hname := hkey.symm.trans (render_eq_ok_iff.mp hmember).1
      simpa using hname
    have hkept :
        (front.filter fun entry => (keyText entry.1).toOption ≠ Option.some name).mapM render =
          .ok (first.filter fun member => member.1 ≠ name) := by
      refine mapM_filter hfirst fun entry member hentry => ?_
      simp [(render_eq_ok_iff.mp hentry).1, Except.toOption]
    have hmembers : (front ++ (key, value) :: back).mapM render =
        .ok (first ++ (name, json) :: later) := by
      rw [List.mapM_append, hfirst, hrest]
      rfl
    have hothers : (front.filter (fun entry => (keyText entry.1).toOption ≠ Option.some name) ++
        (key, value) :: back).mapM render =
          .ok (first.filter (fun member => member.1 ≠ name) ++ (name, json) :: later) := by
      rw [List.mapM_append, hkept, hrest]
      rfl
    have hobject := Entries.ofList_overwritten first later (name, json)
    rw [toJson_map, toJson_map, hmembers, hothers]
    simp only [Functor.map, Except.map, hobject]

end Value

namespace Object

open Value

/-- The order of a map's entries says nothing to the object made from a value, if their keys read
differently, and neither does an entry before another one with its key, if all have a JSON form. -/
theorem map_order_immaterial :
    (∀ v w, Changes Shuffled v w →
      (∃ cause cause', ofValue v = .error cause ∧ ofValue w = .error cause') ∨
        ∃ o, ofValue v = .ok o ∧ ofValue w = .ok o) ∧
    ∀ v w, Changes Settled v w → ofValue v = ofValue w := by
  constructor
  · intro v w h
    have hsame : SameOutcome (fun _ _ => True) v.toJson w.toJson :=
      h.sameOutcome true_equivalence fun _ _ h => h.sameOutcome
    rw [ofValue, ofValue]
    generalize v.toJson = x at hsame
    generalize w.toJson = y at hsame
    cases hsame with
    | ok json =>
      cases hobject : ofNode (.ofJson json) with
      | ok o => exact .inr ⟨o, hobject, hobject⟩
      | error cause => exact .inl ⟨cause, cause, hobject, hobject⟩
    | error => exact .inl ⟨_, _, rfl, rfl⟩
  · intro v w h
    have hmaps (entries others : List (Value × Value)) (h : Settled entries others) :
        SameOutcome Eq (Value.map entries).toJson (Value.map others).toJson :=
      h.toJson_eq ▸ .refl eq_equivalence _
    rw [ofValue, ofValue, (h.sameOutcome eq_equivalence hmaps).eq]

/-- A list with one map of two entries, in a map with keys of two types. -/
def inOrder : Value :=
  .map [(.integer 1, .sequence [.map [(.text "x", .unit), (.bool true, .none)]]),
    (.text "y", .unit)]

def outOfOrder : Value :=
  .map [(.text "y", .unit),
    (.integer 1, .sequence [.map [(.bool true, .none), (.text "x", .unit)]])]

/-- A number and a text that read alike. -/
def repeated : Value :=
  .map [(.integer 1, .unit), (.text "2", .unit), (.text "1", .bool true)]

theorem changes_inOrder : Changes Shuffled inOrder outOfOrder := by
  have hinner : Change Shuffled (.map [(.text "x", .unit), (.bool true, .none)])
      (.map [(.bool true, .none), (.text "x", .unit)]) := .map ⟨by decide, .swap _ _ _⟩
  have hlist := Change.item [] [] hinner
  have hentry := Change.entry [] [(.text "y", .unit)] (.integer 1) hlist
  exact (Relation.ReflTransGen.single hentry).tail (.map ⟨by decide, .swap _ _ _⟩)

theorem changes_repeated :
    Changes Settled repeated (.map [(.text "2", .unit), (.text "1", .bool true)]) := by
  have hserializes : ∀ entry ∈ [(.integer 1, .unit), (.text "2", .unit), (.text "1", .bool true)],
      ∃ member, render entry = .ok member := by
    simp [render, keyText, toJson, bind, Except.bind, pure, Except.pure]
  exact .single (.map (@Settled.intro [(.integer 1, .unit), (.text "2", .unit)] [] (.text "1")
    (.bool true) "1" rfl (by decide) hserializes))

theorem map_order_immaterial_inOrder :
    (∃ o, ofValue inOrder = .ok o ∧ ofValue outOfOrder = .ok o) ∧
      ofValue repeated = ofValue (.map [(.text "2", .unit), (.text "1", .bool true)]) := by
  have hmade : (ofValue inOrder).isOk = true := by decide +kernel
  refine ⟨?_, map_order_immaterial.2 _ _ changes_repeated⟩
  rcases map_order_immaterial.1 _ _ changes_inOrder with ⟨cause, _, hfails, -⟩ | hsame
  · rw [hfails] at hmade
    cases hmade
  · exact hsame

end Object

end ContentGraph
