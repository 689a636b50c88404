import ContentGraph.Proofs.NearestDouble
import ContentGraph.Proofs.PutThenGet

/-! JSON that is stored as a value and rendered again. Nothing changes but the integers above 64 signed
bits, and JSON is no object only because of a type that is no text. -/

namespace ContentGraph

namespace Node

theorem jsonOfItems_eq (items : List Node) : jsonOfItems items = items.map toJson := by
  induction items with
  | nil => rfl
  | cons n rest ih => rw [jsonOfItems, ih, List.map_cons]

theorem jsonOfEntries_eq (entries : List (String × Node)) :
    jsonOfEntries entries = Entries.mapValues toJson entries := by
  induction entries with
  | nil => rfl
  | cons e rest ih => rw [jsonOfEntries, ih]; rfl

theorem toJson_ofJson_array (items : List Json) :
    (ofJson (.array items)).toJson = .array (items.map fun json => (ofJson json).toJson) := by
  rw [ofJson, toJson, ofJsonItems_eq, jsonOfItems_eq, List.map_map]
  rfl

theorem toJson_ofJson_object (members : List (String × Json)) :
    (ofJson (.object members)).toJson =
      .object (members.map fun m => (m.1, (ofJson m.2).toJson)) := by
  rw [ofJson, toJson, ofJsonMembers_eq, jsonOfEntries_eq, Entries.mapValues, Entries.mapValues,
    List.map_map]
  rfl

end Node

theorem eq_of_forall₂ {α : Type} {R : α → α → Prop} {xs ys : List α} (h : List.Forall₂ R xs ys)
    (heq : ∀ x ∈ xs, ∀ y, R x y → y = x) : ys = xs := by
  induction h with
  | nil => rfl
  | @cons x y xs ys hfirst _ ih =>
    rw [heq x List.mem_cons_self y hfirst, ih fun x hx => heq x (List.mem_cons_of_mem _ hx)]

namespace Json

@[elab_as_elim]
theorem tree_induction {motive : Json → Prop} (null : motive .null)
    (bool : ∀ value, motive (.bool value)) (integer : ∀ value, motive (.integer value))
    (float : ∀ bits, motive (.float bits)) (string : ∀ value, motive (.string value))
    (array : ∀ items, (∀ json ∈ items, motive json) → motive (.array items))
    (object : ∀ members, (∀ m ∈ members, motive m.2) → motive (.object members)) (json : Json) :
    motive json :=
  match json with
  | .null => null
  | .bool value => bool value
  | .integer value => integer value
  | .float bits => float bits
  | .string value => string value
  | .array items =>
    array items fun json _ => tree_induction null bool integer float string array object json
  | .object members =>
    object members fun m _ => tree_induction null bool integer float string array object m.2
decreasing_by
  · have := List.sizeOf_lt_of_mem ‹json ∈ items›
    simp only [Json.array.sizeOf_spec]
    omega
  · have := List.sizeOf_lt_of_mem ‹m ∈ members›
    obtain ⟨name, json⟩ := m
    simp only [Json.object.sizeOf_spec, Prod.mk.sizeOf_spec] at *
    omega

inductive Occurs (part : Json) : Json → Prop
  | here : Occurs part part
  | item {items : List Json} {json : Json} (hmem : json ∈ items) (h : Occurs part json) :
    Occurs part (.array items)
  | member {members : List (String × Json)} {m : String × Json} (hmem : m ∈ members)
    (h : Occurs part m.2) : Occurs part (.object members)

/-- What JSON itself demands of a value, apart from the values in it. -/
def Proper : Json → Prop
  | .integer value => Int64.minValue.toInt ≤ value ∧ value < UInt64.size
  | .float bits => Double.isFinite bits = true
  | .object members => Entries.Sorted members
  | _ => True

instance : DecidablePred Proper
  | .integer value =>
    inferInstanceAs (Decidable (Int64.minValue.toInt ≤ value ∧ value < UInt64.size))
  | .float bits => inferInstanceAs (Decidable (Double.isFinite bits = true))
  | .object members => inferInstanceAs (Decidable (Entries.Sorted members))
  | .null | .bool _ | .string _ | .array _ => isTrue trivial

def WellFormed (json : Json) : Prop :=
  ∀ part, Occurs part json → part.Proper

/-- Every integer has 64 signed bits. -/
def Short (json : Json) : Prop :=
  ∀ n, Occurs (.integer n) json → n ≤ Int64.maxValue.toInt

/-- The same but for integers of more than 64 signed bits, in place of which the nearest
floating-point numbers stand. -/
inductive RoundsTo : Json → Json → Prop
  | null : RoundsTo .null .null
  | bool (value : Bool) : RoundsTo (.bool value) (.bool value)
  | short {n : Int} (h : n ≤ Int64.maxValue.toInt) : RoundsTo (.integer n) (.integer n)
  | long {n : Int} {bits : UInt64} (h : Int64.maxValue.toInt < n)
    (hnearest : Double.IsNearest bits n) : RoundsTo (.integer n) (.float bits)
  | float (bits : UInt64) : RoundsTo (.float bits) (.float bits)
  | string (value : String) : RoundsTo (.string value) (.string value)
  | array {items others : List Json} (h : List.Forall₂ RoundsTo items others) :
    RoundsTo (.array items) (.array others)
  | object {members others : List (String × Json)}
    (hnames : members.map Prod.fst = others.map Prod.fst)
    (h : List.Forall₂ RoundsTo (members.map Prod.snd) (others.map Prod.snd)) :
    RoundsTo (.object members) (.object others)

mutual

/-- JSON as a value that is handed over to be stored. -/
def toValue : Json → Value
  | .null => .unit
  | .bool value => .bool value
  | .integer value => .integer value
  | .float bits => .float bits
  | .string value => .text value
  | .array items => .sequence (valuesOfItems items)
  | .object members => .map (entriesOfMembers members)

def valuesOfItems : List Json → List Value
  | [] => []
  | json :: rest => toValue json :: valuesOfItems rest

def entriesOfMembers : List (String × Json) → List (Value × Value)
  | [] => []
  | (name, json) :: rest => (.text name, toValue json) :: entriesOfMembers rest

end

/-- The member that says of what type an object is. -/
def typeMember? : Json → Option Json
  | .object members => Entries.get? members typeField
  | _ => none

section

variable {items : List Json} {members : List (String × Json)}

theorem WellFormed.of_mem_array (h : WellFormed (.array items)) :
    ∀ json ∈ items, json.WellFormed :=
  fun _ hmem part hpart => h part (.item hmem hpart)

theorem WellFormed.of_mem_object (h : WellFormed (.object members)) :
    ∀ m ∈ members, m.2.WellFormed :=
  fun _ hmem part hpart => h part (.member hmem hpart)

theorem Short.of_mem_array (h : Short (.array items)) : ∀ json ∈ items, json.Short :=
  fun _ hmem n hn => h n (.item hmem hn)

theorem Short.of_mem_object (h : Short (.object members)) : ∀ m ∈ members, m.2.Short :=
  fun _ hmem n hn => h n (.member hmem hn)

end

theorem jsonItems_valuesOfItems {items : List Json}
    (h : ∀ json ∈ items, json.toValue.toJson = .ok json) :
    Value.jsonItems (valuesOfItems items) = .ok items := by
  induction items with
  | nil => rfl
  | cons json rest ih =>
    have hrest := ih fun json hmem => h json (List.mem_cons_of_mem _ hmem)
    rw [valuesOfItems, Value.jsonItems, h json List.mem_cons_self, hrest]
    rfl

theorem jsonMembers_entriesOfMembers {members : List (String × Json)}
    (h : ∀ m ∈ members, m.2.toValue.toJson = .ok m.2) (before : Entries Json) :
    Value.jsonMembers before (entriesOfMembers members) =
      .ok (members.foldl (fun entries m => Entries.insert entries m.1 m.2) before) := by
  induction members generalizing before with
  | nil => rfl
  | cons m rest ih =>
    obtain ⟨name, json⟩ := m
    have hrest := ih fun m hmem => h m (List.mem_cons_of_mem _ hmem)
    have hjson : json.toValue.toJson = .ok json := h (name, json) List.mem_cons_self
    rw [entriesOfMembers, Value.jsonMembers, hjson]
    exact hrest _

/-- JSON reads as a value what it is. -/
theorem toJson_toValue {json : Json} (h : json.WellFormed) : json.toValue.toJson = .ok json := by
  induction json using tree_induction with
  | null => rfl
  | bool => rfl
  | integer value => exact if_pos (h _ .here)
  | float bits =>
    have hfinite : Double.isFinite bits = true := h _ .here
    simp [toValue, Value.toJson, hfinite]
  | string => rfl
  | array items ih =>
    have hitems := jsonItems_valuesOfItems fun json hmem => ih json hmem (h.of_mem_array json hmem)
    rw [toValue, Value.toJson, hitems]
    rfl
  | object members ih =>
    have hmembers := jsonMembers_entriesOfMembers
      fun m hmem => ih m hmem (h.of_mem_object m hmem)
    have hsorted : Entries.ofList members = members := Entries.ofList_of_sorted (h _ .here)
    rw [toValue, Value.toJson, hmembers, ← Entries.ofList, hsorted]
    rfl

theorem RoundsTo.eq_of_short {json other : Json} (h : json.RoundsTo other) (hshort : json.Short) :
    other = json := by
  induction json using tree_induction generalizing other with
  | null => cases h; rfl
  | bool => cases h; rfl
  | integer n =>
    cases h with
    | short => rfl
    | long hlong => exact absurd (hshort n .here) (Int.not_le.mpr hlong)
  | float => cases h; rfl
  | string => cases h; rfl
  | array items ih =>
    cases h with
    | array h =>
      have hitems := eq_of_forall₂ h fun json hmem other h =>
        ih json hmem h (hshort.of_mem_array json hmem)
      rw [hitems]
  | object members ih =>
    cases h with
    | object hnames h =>
      have hvalues := eq_of_forall₂ h fun json hmem other h => by
        obtain ⟨m, hm, rfl⟩ := List.mem_map.mp hmem
        exact ih m hm h (hshort.of_mem_object m hm)
      rw [List.zip_of_prod hnames.symm hvalues, ← List.zip_of_prod rfl rfl]

theorem roundsTo_rendered_integer {n : Int} (h : n < UInt64.size)
    (hlow : Int64.minValue.toInt ≤ n) :
    (Json.integer n).RoundsTo (Node.ofJsonInteger n).toJson := by
  rw [Node.ofJsonInteger]
  by_cases hshort : n ≤ Int64.maxValue.toInt
  · have hback : (Int64.ofInt n).toInt = n := by
      rw [Int64.toInt_minValue] at hlow
      rw [Int64.toInt_maxValue] at hshort
      exact Int64.toInt_ofInt_of_le hlow (by omega)
    rw [if_pos hshort, Node.toJson, hback]
    exact .short hshort
  · have hnonneg : 0 ≤ n := by
      rw [Int64.toInt_maxValue] at hshort
      omega
    have hnearest : Double.IsNearest (Double.ofNat n.toNat) n := by
      have hcast : ((n.toNat : Int) : ℚ) = n := by rw [Int.toNat_of_nonneg hnonneg]
      rw [← hcast]
      apply Double.isNearest_ofNat
      have hlog : n.toNat.log2 < 64 := by
        by_cases hzero : n.toNat = 0
        · simp [hzero]
        · apply (Nat.log2_lt hzero).mpr
          change n < 2 ^ 64 at h
          omega
      omega
    rw [if_neg hshort]
    simp only [Node.toJson, hnearest.finite, if_true]
    exact .long (Int.not_le.mp hshort) hnearest

theorem roundsTo_rendered {json : Json} (h : json.WellFormed) :
    json.RoundsTo (Node.ofJson json).toJson := by
  induction json using tree_induction with
  | null => exact .null
  | bool value => exact .bool value
  | integer n =>
    have hbounds : Int64.minValue.toInt ≤ n ∧ n < UInt64.size := h _ .here
    exact roundsTo_rendered_integer hbounds.2 hbounds.1
  | float bits =>
    have hfinite : Double.isFinite bits = true := h _ .here
    simp only [Node.ofJson, Node.toJson, hfinite, if_true]
    exact .float bits
  | string value => exact .string value
  | array items ih =>
    rw [Node.toJson_ofJson_array]
    refine .array (List.forall₂_map_right_iff.mpr (List.forall₂_same.mpr fun json hmem => ?_))
    exact ih json hmem (h.of_mem_array json hmem)
  | object members ih =>
    rw [Node.toJson_ofJson_object]
    refine .object (by simp) ?_
    rw [List.map_map, List.forall₂_map_left_iff, List.forall₂_map_right_iff, List.forall₂_same]
    exact fun m hmem => ih m hmem (h.of_mem_object m hmem)

theorem child?_ofJson (json : Json) :
    (Node.ofJson json).child? typeField = json.typeMember?.map Node.ofJson := by
  cases json with
  | object members =>
    rw [Node.ofJson, Node.ofJsonMembers_eq]
    exact Entries.get?_mapValues Node.ofJson members typeField
  | array items =>
    have hindex : indexOfSegment? typeField = none := by decide
    rw [Node.ofJson, Node.child?, hindex]
    rfl
  | integer n =>
    rw [Node.ofJson, Node.ofJsonInteger]
    split <;> rfl
  | _ => rfl

theorem ofJson_eq_string {json : Json} {name : String} :
    Node.ofJson json = .string name ↔ json = .string name := by
  cases json with
  | integer n =>
    rw [Node.ofJson, Node.ofJsonInteger]
    split <;> simp
  | _ => simp [Node.ofJson]

/-- JSON is stored as a value and rendered from its object as it was, with the nearest floating-point
numbers in place of integers above 64 signed bits. It is no object exactly if it has a type that is no
text. -/
theorem rendering_inverts_encoding (json : Json) (h : json.WellFormed) :
    (∀ type, json.typeMember? = some type → (∀ name, type ≠ .string name) →
      Object.ofValue json.toValue = .error (.invalidType (Node.ofJson type).kind)) ∧
    ((∀ type, json.typeMember? = some type → ∃ name, type = .string name) →
      ∃ o, Object.ofValue json.toValue = .ok o ∧ json.RoundsTo o.tree.toJson ∧
        (json.Short → o.tree.toJson = json) ∧ json.typeMember? = o.declaredType.map .string) := by
  have hvalue : Object.ofValue json.toValue = Object.ofNode (.ofJson json) := by
    rw [Object.ofValue, toJson_toValue h]
  have hchild := child?_ofJson json
  rw [hvalue]
  refine ⟨fun type htype hother => ?_, fun htypes => ?_⟩
  · rw [htype] at hchild
    apply Object.ofNode_of_untyped
    exact Node.declaredType_eq_error_iff.mpr
      ⟨_, hchild, fun name hname => hother name (ofJson_eq_string.mp hname), rfl⟩
  · have hdeclared : ∃ declared : Option String, json.typeMember? = declared.map .string := by
      cases htype : json.typeMember? with
      | none => exact ⟨none, rfl⟩
      | some type =>
        obtain ⟨name, rfl⟩ := htypes type htype
        exact ⟨some name, rfl⟩
    obtain ⟨declared, htype⟩ := hdeclared
    have hname : (Node.ofJson json).declaredType = .ok declared := by
      rw [Node.declaredType_eq_ok_iff, hchild, htype]
      cases declared <;> rfl
    obtain ⟨o, ho, rfl⟩ := Object.exists_ofNode hname
    have hrounds := roundsTo_rendered h
    rw [← (Object.tree_of_ofNode ho).1] at hrounds
    exact ⟨o, ho, hrounds, hrounds.eq_of_short, htype⟩

/-- A member that looks like a link, one that is as long as integers can be, and a type. -/
def lookalike : Json :=
  .object [("/", .string "x"), ("@type", .string "T"), ("n", .integer 9223372036854775807)]

theorem wellFormed_lookalike : lookalike.WellFormed := by
  intro part hpart
  cases hpart with
  | here => decide
  | member hmem hpart =>
    simp only [List.mem_cons, List.not_mem_nil, or_false] at hmem
    rcases hmem with rfl | rfl | rfl
    · cases hpart; trivial
    · cases hpart; trivial
    · cases hpart; decide

theorem short_lookalike : lookalike.Short := by
  intro n hn
  cases hn with
  | member hmem hn =>
    simp only [List.mem_cons, List.not_mem_nil, or_false] at hmem
    rcases hmem with rfl | rfl | rfl
    · cases hn
    · cases hn
    · cases hn; decide

def untextual : Json :=
  .object [("@type", .float 0)]

theorem wellFormed_untextual : untextual.WellFormed := by
  intro part hpart
  cases hpart with
  | here => decide
  | member hmem hpart =>
    obtain rfl := List.mem_singleton.mp hmem
    cases hpart
    decide

theorem rendering_inverts_encoding_of_lookalike :
    (∃ o, Object.ofValue lookalike.toValue = .ok o ∧ o.tree.toJson = lookalike ∧
      o.declaredType = some "T") ∧
    Object.ofValue untextual.toValue = .error (.invalidType .float) := by
  constructor
  · have htype : lookalike.typeMember? = some (.string "T") := rfl
    obtain ⟨o, ho, -, hback, hdeclared⟩ :=
      (rendering_inverts_encoding lookalike wellFormed_lookalike).2 fun type h =>
        ⟨"T", Option.some.inj (h.symm.trans htype)⟩
    rw [htype] at hdeclared
    obtain ⟨name, hname, hT⟩ := Option.map_eq_some_iff.mp hdeclared.symm
    cases hT
    exact ⟨o, ho, hback short_lookalike, hname⟩
  · exact (rendering_inverts_encoding untextual wellFormed_untextual).1 (.float 0) rfl nofun

end Json

end ContentGraph
