import RowGraph.Proofs.Entries

/-!
# Relations that share a column

Two relations with the same column in the same row overwrite each other.  A column can be read from the
front: its stem tells the layout and the end, and the sort key, the adjacent vertex, the own value and
the id follow at places that the layout fixes, each as an encoding that starts no other one
(`same_parts`).  So only relations that their type forbids together share a column.

* `Forbids`: what a multiplicity does not allow.
* `forbids_of_parts`: the parts of a column that are the same break the multiplicity of the type.
* `forbids_of_same_column`: the statement for the entries of two relations.
-/

namespace RowGraph

/-- The type does not allow both relations. -/
inductive RelationType.Forbids (t : RelationType) (r s : Relation) : Prop
  /-- A second edge from one vertex to another. -/
  | edge (simple : t.multiplicity = .simple) (label : t.isEdgeLabel = true)
      (out : r.outVertex = s.outVertex) (into : r.inVertex = s.inVertex)
  /-- A second property of a vertex with the same value. -/
  | value (simple : t.multiplicity = .simple) (key : t.isPropertyKey = true)
      (owner : r.outVertex = s.outVertex) (value : r.value = s.value)
  /-- A second relation of a vertex at an end where there may be one. -/
  | unique (d : Direction) (v : VertexId) (proper : d ∈ Direction.ends)
      (unique : t.multiplicity.isUnique d = true) (first : r.sitsAt v d = true)
      (second : s.sitsAt v d = true)

/-- An edge label or an index over one is the type of edges, a property key that of properties. -/
def Relation.KindMatches (schema : Schema) (r : Relation) : Prop :=
  ∀ t, schema.type? r.typeId = some t → r.isEdge = t.isEdgeLabel

/-- The multiplicity of every property key is that of a cardinality. -/
def Schema.HasCardinalities (schema : Schema) : Prop :=
  ∀ t ∈ schema.types, t.isPropertyKey = true → t.isIndex = false →
    ∃ c : Cardinality, t.multiplicity = c.multiplicity

/-- Indexes put no limit on their relations. -/
theorem Schema.Built.multi_of_isIndex {schema : Schema} (h : schema.Built) {t : RelationType}
    (ht : t ∈ schema.types) (hi : t.isIndex = true) : t.multiplicity = .multi := by
  obtain ⟨id, hid⟩ := Option.isSome_iff_exists.mp hi
  obtain ⟨base, hbase, -, -, hentered⟩ := h.enters t ht id hid
  obtain ⟨x, hx, hxt, hover⟩ := (h.sound.types base hbase).indexes _ hentered
  rw [← h.sound.eq_of_id hx ht hxt]
  exact hover.multiplicity

namespace Layout

section

variable {schema : Schema} {r s : Relation} {v : VertexId} {t base base' : RelationType} {d : Direction}
  {c : Bytes}

/-! ## Reading a column from the front -/

theorem encodeComponents_append_inj (t : RelationType) (p : Nat) {xs ys : List (Option Value)}
    (hl : xs.length = ys.length) {a b : Bytes}
    (h : encodeComponents t p xs ++ a = encodeComponents t p ys ++ b) : xs = ys ∧ a = b := by
  induction xs generalizing p ys with
  | nil =>
    obtain rfl := List.length_eq_zero_iff.mp hl.symm
    exact ⟨rfl, h⟩
  | cons x xs ih =>
    obtain ⟨y, ys, rfl⟩ := List.exists_cons_of_length_eq_add_one hl.symm
    rw [encodeComponents, encodeComponents, List.append_assoc, List.append_assoc] at h
    obtain ⟨rfl, hrest⟩ := Key.encode_append_inj h
    obtain ⟨rfl, htail⟩ := ih (p + 1) (Nat.succ.inj hl) hrest
    exact ⟨rfl, htail⟩

/-- What two relations with the same column in a layout at an end have in common. -/
structure SameParts (t : RelationType) (d : Direction) (v : VertexId) (r s : Relation) : Prop where
  adjacent : t.isEdgeLabel = true → t.multiplicity.isUnique d = false →
    r.otherVertex? v = s.otherVertex? v
  value : t.isPropertyKey = true → t.multiplicity = .simple → r.value = s.value
  id : t.multiplicity = .multi → r.id = s.id

theorem same_parts (hk : t.kind = base.kind) (hk' : t.kind = base'.kind)
    (hr : column t base r d v = .ok c) (hs : column t base' s d v = .ok c) : SameParts t d v r s := by
  obtain ⟨end?, hd, hc⟩ := column_parts hk hr
  obtain ⟨end', hd', hc'⟩ := column_parts hk' hs
  obtain rfl := Option.some.inj (hd.symm.trans hd')
  rw [hc] at hc'
  simp only [List.append_assoc] at hc'
  have htail := List.append_cancel_left (List.append_cancel_left hc')
  obtain ⟨-, htail⟩ := encodeComponents_append_inj t 0 (by simp) htail
  -- the layout decides which of the parts are there, for both relations alike
  have hadjacent : (t.isEdgeLabel = true → t.multiplicity.isUnique d = false →
      r.otherVertex? v = s.otherVertex? v) ∧
      ownBytes t r ++ idBytes t r v = ownBytes t s ++ idBytes t s v := by
    unfold adjacentBytes at htail
    split at htail
    · obtain ⟨hval, htail⟩ := Key.encode_append_inj htail
      have hother : (r.otherVertex? v).map Value.vertex = (s.otherVertex? v).map Value.vertex := hval
      have hinj : Function.Injective Value.vertex := fun _ _ h => Value.vertex.inj h
      exact ⟨fun _ _ => Option.map_injective hinj hother, htail⟩
    · rename_i hno
      exact ⟨fun he hu => absurd (by rw [he, hu]; rfl) hno, htail⟩
  have hown : (t.isPropertyKey = true → t.multiplicity = .simple → r.value = s.value) ∧
      idBytes t r v = idBytes t s v := by
    have htail := hadjacent.2
    unfold ownBytes at htail
    split at htail
    · obtain ⟨hval, htail⟩ := Key.encode_append_inj htail
      exact ⟨fun _ _ => hval, htail⟩
    · rename_i hno
      exact ⟨fun hp hm => absurd (by rw [hp, hm]; rfl) hno, htail⟩
  refine ⟨hadjacent.1, hown.1, fun hm => ?_⟩
  have hid := hown.2
  unfold idBytes at hid
  rw [hm, if_neg (by decide), if_neg (by decide)] at hid
  obtain ⟨hval, -⟩ := Key.encode_append_inj ((List.append_nil _).trans (hid.trans (List.append_nil _).symm))
  have hword : r.id.val.toInt64 = s.id.val.toInt64 := Value.int.inj (Option.some.inj hval)
  have hsame : r.id.val = s.id.val := by
    rw [← UInt64.toUInt64_toInt64 r.id.val, hword, UInt64.toUInt64_toInt64]
  exact congrArg RelationId.mk hsame

/-! ## What the type forbids -/

/-- Edges at one end of a vertex that lead to the same vertex have both ends in common. -/
theorem same_ends (hd : d ∈ Direction.ends) (hr : r.sitsAt v d = true) (hs : s.sitsAt v d = true)
    (he : r.isEdge = true) (he' : s.isEdge = true) (ho : r.otherVertex? v = s.otherVertex? v) :
    r.outVertex = s.outVertex ∧ r.inVertex = s.inVertex := by
  obtain ⟨w, hw⟩ := Option.isSome_iff_exists.mp he
  obtain ⟨w', hw'⟩ := Option.isSome_iff_exists.mp he'
  unfold Relation.otherVertex? at ho
  rw [hw, hw', Option.map_some, Option.map_some, Option.some.injEq] at ho
  unfold Direction.ends at hd
  simp only [List.mem_cons, List.not_mem_nil, or_false] at hd
  rcases hd with rfl | rfl
  · have hv : r.outVertex = v := by simpa [Relation.sitsAt] using hr
    have hv' : s.outVertex = v := by simpa [Relation.sitsAt] using hs
    rw [if_pos hv, if_pos hv'] at ho
    exact ⟨hv.trans hv'.symm, by rw [hw, hw', ho]⟩
  · have hv : w = v := by simpa [Relation.sitsAt, hw] using hr
    have hv' : w' = v := by simpa [Relation.sitsAt, hw'] using hs
    refine ⟨?_, by rw [hw, hw', hv, hv']⟩
    split at ho <;> split at ho <;> simp_all

/-- The parts of a column in common are more than the type allows. -/
theorem forbids_of_parts (hm : t.multiplicity ≠ .multi)
    (hcard : t.isPropertyKey = true → ∃ c : Cardinality, t.multiplicity = c.multiplicity)
    (hr : r.isEdge = t.isEdgeLabel) (hs : s.isEdge = t.isEdgeLabel) (hd : d ∈ Direction.ends)
    (hrv : r.sitsAt v d = true) (hsv : s.sitsAt v d = true) (h : SameParts t d v r s) : t.Forbids r s := by
  cases hu : t.multiplicity.isUnique d with
  | true => exact .unique d v hd hu hrv hsv
  | false =>
    cases he : t.isEdgeLabel with
    | true =>
      obtain ⟨hout, hinto⟩ := same_ends hd hrv hsv (hr.trans he) (hs.trans he) (h.adjacent he hu)
      obtain ⟨w, hw⟩ := Option.isSome_iff_exists.mp (hs.trans he)
      cases hmult : t.multiplicity with
      | multi => exact absurd hmult hm
      | simple => exact .edge hmult he hout hinto
      | manyToOne =>
        refine .unique .out s.outVertex (by decide) (by rw [hmult]; rfl) ?_ ?_ <;>
          simp [Relation.sitsAt, hout]
      | oneToMany =>
        refine .unique .into w (by decide) (by rw [hmult]; rfl) ?_ ?_ <;>
          simp [Relation.sitsAt, hinto, hw]
      | oneToOne =>
        refine .unique .out s.outVertex (by decide) (by rw [hmult]; rfl) ?_ ?_ <;>
          simp [Relation.sitsAt, hout]
    | false =>
      have hp : t.isPropertyKey = true := by
        unfold RelationType.isEdgeLabel at he
        unfold RelationType.isPropertyKey
        cases hk : t.kind <;> simp_all
      -- a property sits at the vertex that owns it and nowhere else
      have hnone : r.inVertex = none := Option.not_isSome_iff_eq_none.mp (by
        rw [show r.inVertex.isSome = false from hr.trans he]; exact Bool.false_ne_true)
      have hdir : d = .out := by
        unfold Direction.ends at hd
        cases d <;> simp_all [Relation.sitsAt]
      subst hdir
      obtain ⟨cardinality, hc⟩ := hcard hp
      cases cardinality with
      | single => rw [hc] at hu; cases hu
      | list => exact absurd hc hm
      | set =>
        have howner : r.outVertex = v := by simpa [Relation.sitsAt] using hrv
        have howner' : s.outVertex = v := by simpa [Relation.sitsAt] using hsv
        exact .value hc hp (howner.trans howner'.symm) (h.value hp hc)

/-! ## The entries of two relations -/

/-- Relations placed under the same column are of one type, whose own layout holds the column. -/
theorem Placed.same_layout (hs : schema.Built) (hid : r.id ≠ s.id) {t' : RelationType} {d' : Direction}
    (hr : Placed schema r v base t d c) (hr' : Placed schema s v base' t' d' c) :
    t = base ∧ base' = base ∧ t' = base ∧ d' = d ∧ base.isIndex = false ∧
      base.multiplicity ≠ .multi ∧ SameParts base d v r s := by
  obtain ⟨end?, tail, hd, hc⟩ := hr.column_eq hs.sound
  obtain ⟨end', tail', hd', hc'⟩ := hr'.column_eq hs.sound
  have hsame : typeStem t' ++ [end'] ++ (encodeComponents t' 0 (componentValues t' d' s v) ++ tail') =
      columnAt t end? (componentValues t d r v) tail := by
    rw [← hc, hc', columnAt, List.append_assoc _ _ tail']
  obtain ⟨hstem, rfl⟩ := typeStem_end_eq ⟨[], (List.append_nil _).trans hsame⟩
  have hlayout := hr.layout hs.sound
  have hlayout' := hr'.layout hs.sound
  obtain rfl := hs.sound.eq_of_id hlayout'.1 hlayout.1 (id_eq_of_typeStem hstem)
  obtain rfl := directionByte?_inj hd' hd
  have hparts := same_parts (hr.kind hs.sound) (hr'.kind hs.sound) hr.column hr'.column
  have hmulti : t'.multiplicity ≠ .multi := fun hm => hid (hparts.id hm)
  have hindex : t'.isIndex = false := Bool.not_eq_true _ ▸ fun hi =>
    hmulti (hs.multi_of_isIndex hlayout.1 hi)
  have hown {u : RelationType} (h : t' = u ∨ t'.IndexOver u) : t' = u :=
    h.resolve_right fun hover => hmulti hover.multiplicity
  obtain rfl := hown hlayout.2
  exact ⟨rfl, (hown hlayout'.2).symm, rfl, rfl, hindex, hmulti, hparts⟩

/-- If two relations are kept in the same column of the same row, it is a column of their type at one end,
and the type forbids them together. -/
theorem forbids_of_same_column (hs : schema.Built) (hcard : schema.HasCardinalities) (hid : r.id ≠ s.id)
    (hr : r.KindMatches schema) (hs' : s.KindMatches schema) {es fs : List (Bytes × Entry)}
    (hes : entriesFor schema r = .ok es) (hfs : entriesFor schema s = .ok fs) {key : Bytes}
    {e f : Entry} (he : (key, e) ∈ es) (hf : (key, f) ∈ fs) (hc : e.column = f.column) :
    r.typeId = s.typeId ∧ ∃ base v d, key = rowKey v ∧ base.isIndex = false ∧
      Placed schema r v base base d e.column ∧ Placed schema s v base base d e.column ∧
      (∀ t ∈ schema.types, typeStem t <+: e.column → t = base) ∧ base.Forbids r s := by
  obtain ⟨-, v, base, t, d, rfl, hpr⟩ := (mem_entriesFor hes).mp he
  obtain ⟨-, v', base', t', d', hkey, hps⟩ := (mem_entriesFor hfs).mp hf
  obtain rfl := rowKey_inj hkey
  rw [← hc] at hps
  obtain ⟨rfl, rfl, rfl, rfl, hindex, hmulti, hparts⟩ := hpr.same_layout hs hid hps
  have hbase : t'.id = r.typeId := Schema.id_of_type hpr.typed
  have hbase' : t'.id = s.typeId := Schema.id_of_type hps.typed
  have hmem := Schema.mem_of_type hpr.typed
  refine ⟨hbase.symm.trans hbase', t', v, d', rfl, hindex, hpr, hps, fun u hu hstem => ?_, ?_⟩
  · obtain ⟨end?, tail, -, hcol⟩ := hpr.column_eq hs.sound
    rw [hcol, typeStem_prefix_iff] at hstem
    exact hs.sound.eq_of_id hu hmem (id_eq_of_typeStem hstem)
  · exact forbids_of_parts hmulti (fun hp => hcard t' hmem hp hindex) (hr t' hpr.typed)
      (hs' t' hps.typed) (mem_ends.mp hpr.sits).1 hpr.sitsAt hps.sitsAt hparts

end

/-! ## One collision -/

namespace Owned

/-- Who owns what, with one owner at most, sorted by the time of the purchase. -/
def steps : List Schema.Step := [
  .define (.propertyKey "time" .int),
  .define { TypeDefinition.edgeLabel "owns" with multiplicity := .oneToMany, sortKey := ["time"] },
  .index ⟨"owns", "latest", ["time"], .both, .desc, .enabled⟩]

def schema : Schema := (Schema.ofSteps steps).toOption.getD .initial

theorem schema_built : schema.Built :=
  Schema.built_getD (by decide +kernel) (by decide +kernel)

theorem hasCardinalities : schema.HasCardinalities := by
  have hkeys : ∀ t ∈ schema.types, t.isPropertyKey = true → t.multiplicity = .manyToOne := by
    decide +kernel
  exact fun t ht hp _ => ⟨.single, hkeys t ht hp⟩

/-- Vertex 1 owns vertex 2 since time 5. -/
def owning (id : RelationId) : Relation :=
  { Relation.edge id ⟨1025⟩ ⟨1⟩ ⟨2⟩ with properties := .ofList [(⟨1024⟩, .int 5)] }

theorem kindMatches (id : RelationId) : (owning id).KindMatches schema := by
  have hlabel : ∀ t ∈ schema.types, t.id = ⟨1025⟩ → t.isEdgeLabel = true := by decide +kernel
  exact fun t ht => (hlabel t (Schema.mem_of_type ht) (Schema.id_of_type ht)).symm

/-- The entries of a relation: two in each row, of its type and of the index. -/
def entries (id : RelationId) : List (Bytes × Entry) :=
  (entriesFor schema (owning id)).toOption.getD []

/-- The entry in the row of the owner. -/
def entry (id : RelationId) : Bytes × Entry := (entries id).head?.getD ([], ⟨[], []⟩)

end Owned

/-- Of two relations that say who owns a thing the second overwrites the first in the row of the owner,
and their type forbids them together. -/
theorem forbids_of_same_column_owned :
    Owned.entry ⟨7⟩ ∈ Owned.entries ⟨7⟩ ∧ Owned.entry ⟨8⟩ ∈ Owned.entries ⟨8⟩ ∧
      (Owned.entry ⟨7⟩).2.column = (Owned.entry ⟨8⟩).2.column ∧
      ∃ base : RelationType, base.isIndex = false ∧ base.Forbids (Owned.owning ⟨7⟩) (Owned.owning ⟨8⟩) := by
  have hes : entriesFor Owned.schema (Owned.owning ⟨7⟩) = .ok (Owned.entries ⟨7⟩) :=
    Outcome.eq_ok_getD (by decide +kernel) _
  have hfs : entriesFor Owned.schema (Owned.owning ⟨8⟩) = .ok (Owned.entries ⟨8⟩) :=
    Outcome.eq_ok_getD (by decide +kernel) _
  have he : (rowKey ⟨1⟩, (Owned.entry ⟨7⟩).2) ∈ Owned.entries ⟨7⟩ := by decide +kernel
  have hf : (rowKey ⟨1⟩, (Owned.entry ⟨8⟩).2) ∈ Owned.entries ⟨8⟩ := by decide +kernel
  have hc : (Owned.entry ⟨7⟩).2.column = (Owned.entry ⟨8⟩).2.column := by decide +kernel
  obtain ⟨-, base, v, d, -, hindex, -, -, -, hforbids⟩ :=
    forbids_of_same_column Owned.schema_built Owned.hasCardinalities (by decide)
      (Owned.kindMatches ⟨7⟩) (Owned.kindMatches ⟨8⟩) hes hfs he hf hc
  exact ⟨by decide +kernel, by decide +kernel, hc, base, hindex, hforbids⟩

end Layout

end RowGraph
