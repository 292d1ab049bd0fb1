import RowGraph.Proofs.DecimalText
import RowGraph.Proofs.Entries
import RowGraph.Proofs.Lookup

/-!
# Stored relations read back

The stored form of a relation is a well-formed document, so its bytes are read as that document, and the
document is read part by part: everything is what was written, except that a floating-point number becomes what
its text stands for (`Relation.reread?`).  That is another number for some, and nothing for those that are
infinite or not numbers, which are stored as `null`.

* `ofStoredBytes_storedBytes`: what the stored bytes of a relation are read as.
* `decode_entriesFor`: an entry is read as the relation it was written for exactly if all numbers of the relation
  are finite and stand for themselves.
* `nan_unread`: a relation that is written and cannot be read.
-/

namespace RowGraph

/-! ## Lists of readings -/

section

variable {α β : Type} {l : List α} {l' : List β}

theorem mapM_cons_eq_some {f : α → Option β} {a : α} :
    (a :: l).mapM f = some l' ↔ ∃ b bs, f a = some b ∧ l.mapM f = some bs ∧ b :: bs = l' := by
  rw [List.mapM_cons]
  cases f a with
  | none => simp
  | some b => cases l.mapM f <;> simp

theorem mapM_eq_self {f : α → Option α} : l.mapM f = some l ↔ ∀ a ∈ l, f a = some a := by
  induction l with
  | nil => simp
  | cons a l ih =>
    rw [mapM_cons_eq_some, List.forall_mem_cons, ← ih]
    constructor
    · rintro ⟨b, bs, hb, hbs, heq⟩
      obtain ⟨rfl, rfl⟩ := List.cons.inj heq
      exact ⟨hb, hbs⟩
    · rintro ⟨ha, hl⟩
      exact ⟨a, l, ha, hl, rfl⟩

theorem exists_of_mapM {f : α → Option β} (h : l.mapM f = some l') :
    ∀ a ∈ l, ∃ b, f a = some b := by
  induction l generalizing l' with
  | nil => simp
  | cons a l ih =>
    obtain ⟨b, bs, hb, hbs, -⟩ := mapM_cons_eq_some.mp h
    exact List.forall_mem_cons.mpr ⟨⟨b, hb⟩, ih hbs⟩

end

/-! ## Values -/

namespace Value

open Json

/-- What the stored form of a value stands for. -/
def reread? : Value → Option Value
  | float x => (floatJson x).float?.map float
  | v => some v

/-- The number that a value is. -/
def float? : Value → Option Binary64
  | float x => some x
  | _ => none

/-- The names of the kinds are not escaped. -/
theorem escaped_name (k : ValueKind) : (Bytes.ofText k.name).flatMap escapeByte = asciiBytes k.name := by
  cases k <;> decide +kernel

theorem ofJson?_toJson (v : Value) : ofJson? v.toJson = v.reread? := by
  have hname := lexemeText?_escaped v.kind.name
  rw [escaped_name] at hname
  rw [toJson, ofJson?, hname, Option.bind_some]
  cases v with
  | bool b => rfl
  | int i => exact congrArg (Option.map Value.int) (int64?_ofInt i)
  | float x => rfl
  | string s => exact congrArg (Option.map Value.string) (text?_ofText s)
  | vertex v =>
    have hread : nat? Word.bound64 (ofNat v.val.toNat) = some v.val.toNat :=
      nat?_ofNat v.val.toNat_lt v.val.toNat_lt
    have hback : UInt64.ofNat v.val.toNat = v.val := UInt64.ofNat_toNat
    have hcontent : ofContentJson? (kind (vertex v)).name (contentJson (vertex v)) =
        (nat? Word.bound64 (ofNat v.val.toNat)).map fun n => vertex ⟨UInt64.ofNat n⟩ := rfl
    rw [hcontent, hread, Option.map_some, hback]
    rfl

theorem wellFormed_floatJson (x : Binary64) : WellFormed (floatJson x) := by
  unfold floatJson
  split
  · rename_i hx
    exact .number (NumberStyle.isNumber_text hx)
  · exact .null

theorem wellFormed_contentJson (v : Value) : WellFormed v.contentJson := by
  cases v with
  | bool b => exact .bool b
  | int i => exact wellFormed_ofInt i.toInt
  | float x => exact wellFormed_floatJson x
  | string s => exact wellFormed_ofText s
  | vertex v => exact wellFormed_ofNat v.val.toNat

theorem wellFormed_toJson (v : Value) : WellFormed v.toJson := by
  have hname := isString_escaped (Bytes.ofText v.kind.name)
  rw [escaped_name] at hname
  refine .object ?_ ?_
  · simpa using hname
  · simpa using wellFormed_contentJson v

theorem reread?_eq_self {v : Value} : v.reread? = some v ↔ ∀ x ∈ v.float?, (floatJson x).float? = some x := by
  cases v <;> simp [reread?, float?]

theorem isFinite_of_float? {x y : Binary64} (h : (floatJson x).float? = some y) : x.isFinite = true := by
  unfold floatJson at h
  split at h
  · assumption
  · cases h

theorem reread?_of_not_finite {v : Value} {x : Binary64} (hx : x ∈ v.float?) (h : x.isFinite = false) :
    v.reread? = none := by
  cases v with
  | float y =>
    obtain rfl : y = x := Option.some.inj hx
    have hnone : (floatJson y).float? = none := by
      cases hy : (floatJson y).float? with
      | none => rfl
      | some z =>
        rw [isFinite_of_float? hy] at h
        cases h
    rw [reread?, hnone, Option.map_none]
  | bool _ => cases hx
  | int _ => cases hx
  | string _ => cases hx
  | vertex _ => cases hx

end Value

/-! ## Properties -/

namespace Relation

open Json

/-- What the stored form of a property stands for. -/
def rereadProperty? (p : TypeId × Value) : Option (TypeId × Value) := p.2.reread?.map fun v => (p.1, v)

/-- What the stored form of a relation stands for. -/
def reread? (r : Relation) : Option Relation := do
  let value ← r.value.mapM Value.reread?
  let properties ← r.properties.toList.mapM rereadProperty?
  return { r with value := value, properties := .ofList properties }

/-- The floating-point numbers in a relation: its value and those of its properties. -/
def floats (r : Relation) : List Binary64 :=
  (r.value.toList ++ r.properties.values).filterMap Value.float?

theorem word?_ofNat (n : UInt64) : word? (.ofNat n.toNat) = some n := by
  have hread : nat? Word.bound64 (ofNat n.toNat) = some n.toNat := nat?_ofNat n.toNat_lt n.toNat_lt
  rw [word?, hread, Option.map_some, UInt64.ofNat_toNat]

theorem typeId?_ofNat (t : TypeId) : typeId? (.ofNat t.val.toNat) = some t := by
  have hword : t.val.toNat < Word.bound64 := Nat.lt_trans t.val.toNat_lt (by decide)
  have hread : nat? Word.bound32 (ofNat t.val.toNat) = some t.val.toNat := nat?_ofNat t.val.toNat_lt hword
  rw [typeId?, hread, Option.map_some, UInt32.ofNat_toNat]

theorem property?_propertyJson (p : TypeId × Value) : property? (propertyJson p) = rereadProperty? p := by
  rw [propertyJson, property?, typeId?_ofNat, Value.ofJson?_toJson, rereadProperty?]
  cases p.2.reread? <;> rfl

theorem properties?_array (l : List (TypeId × Value)) :
    properties? (.array (l.map propertyJson)) = (l.mapM rereadProperty?).map SortedMap.ofList := by
  have heach : (l.map propertyJson).mapM property? = l.mapM rereadProperty? := by
    induction l with
    | nil => rfl
    | cons p l ih => rw [List.map_cons, List.mapM_cons, List.mapM_cons, ih, property?_propertyJson]
  rw [properties?, heach]

/-- Reading what may be missing, where the form of what is there is not `null`. -/
theorem ofOptionalJson?_optionalJson {α β : Type} {form : α → Json} {read : Json → Option β}
    {expect : α → Option β} (hread : ∀ a, read (form a) = expect a) (hnull : ∀ a, form a ≠ .null)
    (o : Option α) : ofOptionalJson? read (optionalJson form o) = o.mapM expect := by
  cases o with
  | none => rfl
  | some a =>
    have hsome : ofOptionalJson? read (form a) = (read (form a)).map some := by
      cases hform : form a with
      | null => exact absurd hform (hnull a)
      | bool _ => rfl
      | number _ => rfl
      | string _ => rfl
      | array _ => rfl
      | object _ => rfl
    rw [optionalJson, hsome, hread, Option.mapM_some]
    rfl

/-! ## The whole document -/

/-- The parts of the stored form by name. -/
def parts (r : Relation) : List (String × Json) := [
  ("id", .ofNat r.id.val.toNat),
  ("type_id", .ofNat r.typeId.val.toNat),
  ("out_vertex", .ofNat r.outVertex.val.toNat),
  ("in_vertex", optionalJson (fun v => .ofNat v.val.toNat) r.inVertex),
  ("value", optionalJson Value.toJson r.value),
  ("properties", .array (r.properties.toList.map propertyJson))]

theorem toJson_eq (r : Relation) : r.toJson = .object (r.parts.map fun m => (asciiBytes m.1, m.2)) := rfl

/-- The names of the parts are not escaped. -/
theorem escaped_partName {name : String} (h : name ∈ partNames) :
    (Bytes.ofText name).flatMap escapeByte = asciiBytes name := by
  revert name
  decide +kernel

theorem map_fst_parts (r : Relation) : r.parts.map Prod.fst = partNames := rfl

theorem partName_of_mem {r : Relation} {m : String × Json} (h : m ∈ r.parts) : m.1 ∈ partNames := by
  rw [← map_fst_parts r]
  exact List.mem_map_of_mem h

/-- Parts that are named once each are found, all of them. -/
theorem parts?_map {l : List (String × Json)} (hnames : ∀ m ∈ l, m.1 ∈ partNames)
    (honce : (l.map Prod.fst).Nodup) : parts? (l.map fun m => (asciiBytes m.1, m.2)) = some l := by
  induction l with
  | nil => rfl
  | cons m l ih =>
    obtain ⟨hm, hl⟩ := List.forall_mem_cons.mp hnames
    obtain ⟨hnew, honce⟩ := List.nodup_cons.mp honce
    have hname : lexemeText? (asciiBytes m.1) = some m.1 := by
      rw [← escaped_partName hm]
      exact lexemeText?_escaped m.1
    have hlookup : l.lookup m.1 = none := by
      rw [List.lookup_eq_none_iff]
      intro p hp
      rw [bne_iff_ne]
      intro heq
      exact hnew (heq ▸ List.mem_map_of_mem hp)
    rw [List.map_cons, parts?, hname, ih hl honce]
    simp [hm, hlookup]

theorem ofOptionalJson?_inVertex (v : Option VertexId) :
    ofOptionalJson? word? (optionalJson (fun v => .ofNat v.val.toNat) v) = some (v.map VertexId.val) := by
  have hread : ∀ v : VertexId, word? (.ofNat v.val.toNat) = some v.val := fun v => word?_ofNat v.val
  have hnull : ∀ v : VertexId, ofNat v.val.toNat ≠ .null := by
    intro v h
    cases h
  rw [ofOptionalJson?_optionalJson hread hnull]
  cases v <;> rfl

theorem ofOptionalJson?_value (v : Option Value) :
    ofOptionalJson? Value.ofJson? (optionalJson Value.toJson v) = v.mapM Value.reread? := by
  refine ofOptionalJson?_optionalJson Value.ofJson?_toJson ?_ v
  intro v h
  cases h

/-- The stored form of a relation is read part by part. -/
theorem ofJson?_toJson (r : Relation) : ofJson? r.toJson = r.reread? := by
  have hparts : parts? (r.parts.map fun m => (asciiBytes m.1, m.2)) = some r.parts := by
    refine parts?_map (fun m hm => partName_of_mem hm) ?_
    rw [map_fst_parts]
    decide
  have hof : ofParts? (.ofNat r.id.val.toNat) (.ofNat r.typeId.val.toNat) (.ofNat r.outVertex.val.toNat)
      (optionalJson (fun v => .ofNat v.val.toNat) r.inVertex) (optionalJson Value.toJson r.value)
      (.array (r.properties.toList.map propertyJson)) = r.reread? := by
    rw [ofParts?, word?_ofNat, typeId?_ofNat, word?_ofNat, ofOptionalJson?_inVertex, ofOptionalJson?_value,
      properties?_array, reread?]
    cases r.value.mapM Value.reread? with
    | none => rfl
    | some value =>
      cases r.properties.toList.mapM rereadProperty? with
      | none => rfl
      | some properties =>
        have hin : (r.inVertex.map VertexId.val).map VertexId.mk = r.inVertex := by
          cases r.inVertex <;> rfl
        simp [hin]
  rw [toJson_eq, ofJson?, hparts, ← hof]
  rfl

theorem wellFormed_optionalJson {α : Type} {form : α → Json} (h : ∀ a, WellFormed (form a)) (o : Option α) :
    WellFormed (optionalJson form o) := by
  cases o with
  | none => exact .null
  | some a => exact h a

theorem wellFormed_propertyJson (p : TypeId × Value) : WellFormed (propertyJson p) := by
  refine .array ?_
  intro j hj
  rcases List.mem_pair.mp hj with rfl | rfl
  · exact wellFormed_ofNat _
  · exact Value.wellFormed_toJson p.2

theorem wellFormed_toJson (r : Relation) : WellFormed r.toJson := by
  rw [toJson_eq]
  refine .object ?_ ?_
  · intro m hm
    obtain ⟨part, hpart, rfl⟩ := List.mem_map.mp hm
    rw [← escaped_partName (partName_of_mem hpart)]
    exact isString_escaped _
  · intro m hm
    obtain ⟨part, hpart, rfl⟩ := List.mem_map.mp hm
    simp only [parts, List.mem_cons, List.not_mem_nil, or_false] at hpart
    rcases hpart with rfl | rfl | rfl | rfl | rfl | rfl
    · exact wellFormed_ofNat _
    · exact wellFormed_ofNat _
    · exact wellFormed_ofNat _
    · exact wellFormed_optionalJson (fun v => wellFormed_ofNat v.val.toNat) r.inVertex
    · exact wellFormed_optionalJson Value.wellFormed_toJson r.value
    · refine .array ?_
      intro j hj
      obtain ⟨p, -, rfl⟩ := List.mem_map.mp hj
      exact wellFormed_propertyJson p

/-- What the stored bytes of a relation are read as. -/
theorem ofStoredBytes_storedBytes (r : Relation) :
    ofStoredBytes r.storedBytes =
      match r.reread? with
      | some r' => .ok r'
      | none => .error (.serialization "not a stored relation") := by
  have hread : (parse? r.storedBytes).bind ofJson? = r.reread? := by
    rw [storedBytes, parse?_render (wellFormed_toJson r), Option.bind_some, ofJson?_toJson]
  cases hr : r.reread? with
  | none => simp only [ofStoredBytes, hread, hr]
  | some r' => simp only [ofStoredBytes, hread, hr]

/-! ## Which relations stay as they are -/

theorem mem_floats {r : Relation} {x : Binary64} :
    x ∈ r.floats ↔ (∃ v, r.value = some v ∧ v.float? = some x) ∨
      ∃ p ∈ r.properties.toList, p.2.float? = some x := by
  simp [floats, SortedMap.values]

/-- Properties keep their keys. -/
theorem map_fst_of_mapM {l l' : List (TypeId × Value)} (h : l.mapM rereadProperty? = some l') :
    l'.map Prod.fst = l.map Prod.fst := by
  induction l generalizing l' with
  | nil =>
    obtain rfl : [] = l' := Option.some.inj h
    rfl
  | cons p l ih =>
    obtain ⟨q, qs, hq, hqs, rfl⟩ := mapM_cons_eq_some.mp h
    obtain ⟨v, -, rfl⟩ := Option.map_eq_some_iff.mp hq
    rw [List.map_cons, List.map_cons, ih hqs]

theorem rereadProperty?_eq_self {p : TypeId × Value} : rereadProperty? p = some p ↔ p.2.reread? = some p.2 := by
  rw [rereadProperty?, Option.map_eq_some_iff]
  constructor
  · rintro ⟨v, hv, heq⟩
    have hsame : v = p.2 := congrArg Prod.snd heq
    rw [hv, hsame]
  · intro h
    exact ⟨p.2, h, rfl⟩

/-- A relation stands for itself if its value and its properties do. -/
theorem reread?_eq_self_iff {r : Relation} :
    r.reread? = some r ↔
      (∀ v ∈ r.value, v.reread? = some v) ∧ ∀ p ∈ r.properties.toList, p.2.reread? = some p.2 := by
  have hproperties : (∀ p ∈ r.properties.toList, p.2.reread? = some p.2) ↔
      r.properties.toList.mapM rereadProperty? = some r.properties.toList := by
    rw [mapM_eq_self]
    exact forall₂_congr fun p _ => rereadProperty?_eq_self.symm
  have hvalue : (∀ v ∈ r.value, v.reread? = some v) ↔ r.value.mapM Value.reread? = some r.value := by
    cases r.value with
    | none => simp
    | some v => simp
  rw [hproperties, hvalue]
  constructor
  · intro h
    obtain ⟨value, hv, h⟩ := Option.bind_eq_some_iff.mp h
    obtain ⟨properties, hp, h⟩ := Option.bind_eq_some_iff.mp h
    have hr := Option.some.inj h
    have hsorted : properties.Pairwise fun a b => compare a.1 b.1 = .lt := by
      have hkeys := r.properties.increasing
      rw [← List.pairwise_map (f := Prod.fst) (R := fun a b => compare a b = .lt)] at hkeys
      rwa [← map_fst_of_mapM hp, List.pairwise_map] at hkeys
    have hsame : properties = r.properties.toList := by
      rw [← SortedMap.toList_ofList hsorted]
      exact congrArg (fun r => r.properties.toList) hr
    rw [hv, hp, hsame]
    exact ⟨congrArg (fun r => some r.value) hr, rfl⟩
  · rintro ⟨hv, hp⟩
    rw [reread?, hv, hp]
    simp [SortedMap.ofList_toList]

theorem reread?_eq_self {r : Relation} :
    r.reread? = some r ↔ ∀ x ∈ r.floats, (Value.floatJson x).float? = some x := by
  rw [reread?_eq_self_iff]
  constructor
  · rintro ⟨hvalue, hproperties⟩ x hx
    rcases mem_floats.mp hx with ⟨v, hv, hx⟩ | ⟨p, hp, hx⟩
    · exact Value.reread?_eq_self.mp (hvalue v hv) x hx
    · exact Value.reread?_eq_self.mp (hproperties p hp) x hx
  · intro h
    refine ⟨fun v hv => Value.reread?_eq_self.mpr ?_, fun p hp => Value.reread?_eq_self.mpr ?_⟩
    · exact fun x hx => h x (mem_floats.mpr (.inl ⟨v, hv, hx⟩))
    · exact fun x hx => h x (mem_floats.mpr (.inr ⟨p, hp, hx⟩))

/-- A relation with an infinite number, or with something that is no number, stands for nothing. -/
theorem reread?_of_not_finite {r : Relation} {x : Binary64} (hx : x ∈ r.floats) (h : x.isFinite = false) :
    r.reread? = none := by
  rcases mem_floats.mp hx with ⟨v, hv, hx⟩ | ⟨p, hp, hx⟩
  · rw [reread?, hv, Option.mapM_some, Value.reread?_of_not_finite hx h]
    rfl
  · have hnone : rereadProperty? p = none := by
      rw [rereadProperty?, Value.reread?_of_not_finite hx h, Option.map_none]
    have hall : r.properties.toList.mapM rereadProperty? = none := by
      cases hsome : r.properties.toList.mapM rereadProperty? with
      | none => rfl
      | some l =>
        obtain ⟨q, hq⟩ := exists_of_mapM hsome p hp
        rw [hnone] at hq
        cases hq
    rw [reread?, hall]
    cases r.value.mapM Value.reread? <;> rfl

end Relation

/-! ## Entries -/

namespace Layout

/-- An entry is read as the relation it was written for exactly if all numbers of the relation are finite and stand
for themselves; it cannot be read at all if one of them is not finite. -/
theorem decode_entriesFor {schema : Schema} {r : Relation} {es : List (Bytes × Entry)}
    (h : entriesFor schema r = .ok es) {key : Bytes} {e : Entry} (he : (key, e) ∈ es) :
    (Relation.ofStoredBytes e.value = .ok r ↔
      ∀ x ∈ r.floats, x.isFinite = true ∧ (Value.floatJson x).float? = some x) ∧
    ((∃ x ∈ r.floats, x.isFinite = false) →
      ∃ what, Relation.ofStoredBytes e.value = .error (.serialization what)) := by
  have hvalue : e.value = r.storedBytes := ((mem_entriesFor h).mp he).1
  have hread := Relation.ofStoredBytes_storedBytes r
  rw [hvalue, hread]
  constructor
  · have hself : (∀ x ∈ r.floats, x.isFinite = true ∧ (Value.floatJson x).float? = some x) ↔
        r.reread? = some r := by
      rw [Relation.reread?_eq_self]
      exact ⟨fun h x hx => (h x hx).2, fun h x hx => ⟨Value.isFinite_of_float? (h x hx), h x hx⟩⟩
    rw [hself]
    cases r.reread? with
    | none => simp
    | some r' => simp
  · rintro ⟨x, hx, hfinite⟩
    rw [Relation.reread?_of_not_finite hx hfinite]
    exact ⟨_, rfl⟩

/-! ## Weights -/

namespace Weighed

/-- What vertices weigh. -/
def schema : Schema := (Schema.ofSteps [.define (.propertyKey "weight" .float)]).toOption.getD .initial

/-- The weight of vertex 1, with a few remarks. -/
def weight (x : Binary64) (remarks : List (TypeId × Value)) : Relation :=
  { Relation.property ⟨18446744073709551615⟩ ⟨1024⟩ ⟨1⟩ (.float x) with properties := .ofList remarks }

/-- One of each kind: the smallest number, a text with all forms of escapes, the smallest number above zero with
its sign turned. -/
def remarks : List (TypeId × Value) := [
  (⟨1⟩, .bool true), (⟨2⟩, .int (-9223372036854775808)), (⟨3⟩, .string "\x00\t\"\\ä"),
  (⟨4⟩, .vertex ⟨18446744073709551615⟩), (⟨4294967295⟩, .float ⟨0x8000000000000001⟩)]

/-- One tenth. -/
def tenth : Binary64 := ⟨0x3FB999999999999A⟩

/-- A pattern that is not a number. -/
def nan : Binary64 := ⟨0x7FF8000000000000⟩

/-- The entries of a weight: one, in the row of the vertex. -/
def entries (r : Relation) : List (Bytes × Entry) := (entriesFor schema r).toOption.getD []

/-- The only entry. -/
def entry (r : Relation) : Entry := ((entries r).head?.getD ([], ⟨[], []⟩)).2

end Weighed

/-- A weight of one tenth with remarks of all kinds is read back. -/
theorem decode_entriesFor_weighed :
    (rowKey ⟨1⟩, Weighed.entry (Weighed.weight Weighed.tenth Weighed.remarks)) ∈
        Weighed.entries (Weighed.weight Weighed.tenth Weighed.remarks) ∧
      Relation.ofStoredBytes (Weighed.entry (Weighed.weight Weighed.tenth Weighed.remarks)).value =
        .ok (Weighed.weight Weighed.tenth Weighed.remarks) := by
  have hes : entriesFor Weighed.schema (Weighed.weight Weighed.tenth Weighed.remarks) =
      .ok (Weighed.entries (Weighed.weight Weighed.tenth Weighed.remarks)) :=
    Outcome.eq_ok_getD (by decide +kernel) _
  have he : (rowKey ⟨1⟩, Weighed.entry (Weighed.weight Weighed.tenth Weighed.remarks)) ∈
      Weighed.entries (Weighed.weight Weighed.tenth Weighed.remarks) := by decide +kernel
  have hfloats : ∀ x ∈ (Weighed.weight Weighed.tenth Weighed.remarks).floats,
      x.isFinite = true ∧ (Value.floatJson x).float? = some x := by decide +kernel
  exact ⟨he, (decode_entriesFor hes he).1.mpr hfloats⟩

/-- A weight that is not a number is written, and what is written cannot be read. -/
theorem nan_unread :
    ∃ es, entriesFor Weighed.schema (Weighed.weight Weighed.nan []) = .ok es ∧ es ≠ [] ∧
      ∀ p ∈ es, ∃ what, Relation.ofStoredBytes p.2.value = .error (.serialization what) := by
  have hes : entriesFor Weighed.schema (Weighed.weight Weighed.nan []) =
      .ok (Weighed.entries (Weighed.weight Weighed.nan [])) := Outcome.eq_ok_getD (by decide +kernel) _
  have hnone : (Weighed.weight Weighed.nan []).reread? = none :=
    Relation.reread?_of_not_finite (x := Weighed.nan) (by decide +kernel) (by decide +kernel)
  refine ⟨_, hes, by decide +kernel, ?_⟩
  rintro ⟨key, e⟩ he
  have hvalue : e.value = (Weighed.weight Weighed.nan []).storedBytes := ((mem_entriesFor hes).mp he).1
  rw [hvalue, Relation.ofStoredBytes_storedBytes, hnone]
  exact ⟨_, rfl⟩

end Layout

end RowGraph
