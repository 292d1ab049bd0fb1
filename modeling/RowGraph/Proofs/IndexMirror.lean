import Mathlib.Data.List.Dedup
import RowGraph.Proofs.CommitRuns

/-!
# Indexes mirror their base

A relation has a column under the layout of its type and under that of every index over it that is kept.
So whatever transactions have done on a store, in every row there is under an index what there is under its
base (`GraphTx.index_mirrors_base`).

This needs that no relation has an index for its type: such a relation has columns under the index, and
none under the base (`index_unmirrored`).
-/

namespace RowGraph

open Committed (written)
open Layout (Placed column columnAt directionByte? entriesFor keptLayouts rowKey typeStem)

/-! ## Under a layout -/

/-- The values of a row under the columns that start with a stem, in column order. -/
def Row.valuesUnder (row : Row) (stem : Bytes) : List Bytes :=
  (row.toList.filter fun b => stem.isPrefixOf b.1).map Prod.snd

/-- The relations of a type that have a vertex at an end. -/
def relationsAt (relations : List Relation) (t : TypeId) (d : Direction) (v : VertexId) : List Relation :=
  relations.dedup.filter fun r => r.typeId = t ∧ (d, v) ∈ Layout.ends r

/-- The type of the relation is not an index. -/
def Relation.IsPlain (schema : Schema) (r : Relation) : Prop :=
  ∀ base, schema.type? r.typeId = some base → base.isIndex = false

section

variable {schema : Schema} {relations : List Relation} {table : Table} {t u : RelationType} {d : Direction}
  {b : UInt8} {layouts : List RelationType} {v : VertexId} {r : Relation} {c value : Bytes}

theorem mem_relationsAt : r ∈ relationsAt relations t.id d v ↔
    r ∈ relations ∧ r.typeId = t.id ∧ (d, v) ∈ Layout.ends r := by
  simp [relationsAt]

/-- The cells of a row under a layout that keeps a type are those of the relations of the type. -/
theorem Holds.mem_row_under (h : Holds schema relations table) (hs : schema.Sound)
    (hplain : ∀ r ∈ relations, r.IsPlain schema) (ht : t ∈ schema.types) (hti : t.isIndex = false)
    (hl : keptLayouts schema t = .ok layouts) (hu : u ∈ layouts) (hd : u.storesDirection d = true)
    (hb : directionByte? d = some b) :
    (c, value) ∈ (table.row (rowKey v)).toList ∧ (typeStem u ++ [b]).isPrefixOf c = true ↔
      ∃ r ∈ relationsAt relations t.id d v, column u t r d v = .ok c ∧ value = r.storedBytes := by
  obtain ⟨hut, hover⟩ := Layout.of_mem_keptLayouts hs ht hl hu
  rw [h.mem_row, List.isPrefixOf_iff_prefix]
  constructor
  · rintro ⟨⟨r, hr, hvalue, w, base, layout, e, hkey, hp⟩, hprefix⟩
    obtain rfl := Layout.rowKey_inj hkey
    -- the stem tells the layout and the end, and these tell the type
    obtain ⟨b', tail, hb', hc⟩ := hp.column_eq hs
    rw [hc, ← List.append_nil (typeStem u ++ [b])] at hprefix
    obtain ⟨hstem, rfl⟩ := Layout.typeStem_end_eq hprefix
    obtain rfl := hs.eq_of_id hut (hp.layout hs).1 (Layout.id_eq_of_typeStem hstem)
    obtain rfl := Layout.directionByte?_inj hb hb'
    have hbase := Schema.mem_of_type hp.typed
    obtain rfl := hs.eq_of_layout ht hti hover hbase (hplain r hr base hp.typed) (hp.layout hs).2
    exact ⟨r, mem_relationsAt.mpr ⟨hr, (Schema.id_of_type hp.typed).symm, hp.sits⟩, hp.column, hvalue⟩
  · rintro ⟨r, hr, hc, hvalue⟩
    obtain ⟨hr, hid, hend⟩ := mem_relationsAt.mp hr
    have hp : Placed schema r v t u d c :=
      ⟨by rw [hid, hs.type?_eq ht], ⟨layouts, hl, hu⟩, hd, hend, hc⟩
    refine ⟨⟨r, hr, hvalue, v, t, u, d, rfl, hp⟩, ?_⟩
    obtain ⟨b', tail, hb', rfl⟩ := hp.column_eq hs
    obtain rfl := Option.some.inj (hb.symm.trans hb')
    unfold columnAt
    rw [List.append_assoc]
    exact List.prefix_append _ _

/-- Under a layout that keeps a type a row has the values of the relations of the type. -/
theorem Holds.valuesUnder_perm (h : Holds schema relations table) (hs : schema.Sound)
    (hunshared : Unshared schema relations) (hplain : ∀ r ∈ relations, r.IsPlain schema)
    (ht : t ∈ schema.types) (hti : t.isIndex = false) (hl : keptLayouts schema t = .ok layouts)
    (hu : u ∈ layouts) (hd : u.storesDirection d = true) (hb : directionByte? d = some b) :
    ((table.row (rowKey v)).valuesUnder (typeStem u ++ [b])).Perm
      ((relationsAt relations t.id d v).map Relation.storedBytes) := by
  have hcolumn : ∀ r ∈ relationsAt relations t.id d v, ∃ c, column u t r d v = .ok c ∧
      (rowKey v, ⟨c, r.storedBytes⟩) ∈ written schema r := by
    intro r hr
    obtain ⟨hr, hid, hend⟩ := mem_relationsAt.mp hr
    obtain ⟨es, hes⟩ := h.writable r hr
    obtain ⟨c, hp⟩ := Layout.exists_placed hes (by rw [hid, hs.type?_eq ht]) hl hu hd hend
    refine ⟨c, hp.column, mem_written.mpr ⟨es, hes, ?_⟩⟩
    exact (Layout.mem_entriesFor hes).mpr ⟨rfl, v, t, u, d, rfl, hp⟩
  let cell (r : Relation) : Bytes × Bytes := ((column u t r d v).toOption.getD [], r.storedBytes)
  have hcell {r : Relation} {c : Bytes} (hc : column u t r d v = .ok c) :
      cell r = (c, r.storedBytes) := by
    simp only [cell, hc]
    rfl
  suffices hcells : ((table.row (rowKey v)).toList.filter fun p => (typeStem u ++ [b]).isPrefixOf p.1).Perm
      ((relationsAt relations t.id d v).map cell) by
    have hvalues := hcells.map Prod.snd
    rwa [List.map_map] at hvalues
  refine (List.perm_ext_iff_of_nodup ?_ ?_).mpr fun p => ?_
  · refine List.Nodup.filter _ ((table.row (rowKey v)).increasing.imp fun hlt he => ?_)
    rw [he, SortedMap.compare_eq_iff.mpr rfl] at hlt
    cases hlt
  · refine List.Nodup.map_on (fun r hr r' hr' he => ?_) ((List.nodup_dedup _).filter _)
    obtain ⟨c, hc, hm⟩ := hcolumn r hr
    obtain ⟨c', hc', hm'⟩ := hcolumn r' hr'
    rw [hcell hc, hcell hc'] at he
    obtain rfl := (Prod.mk.inj he).1
    exact hunshared r (mem_relationsAt.mp hr).1 r' (mem_relationsAt.mp hr').1 _ _ _ _ hm hm'
  · obtain ⟨c, value⟩ := p
    rw [List.mem_filter, h.mem_row_under hs hplain ht hti hl hu hd hb, List.mem_map]
    refine exists_congr fun r => and_congr_right fun hr => ?_
    obtain ⟨c', hc', -⟩ := hcolumn r hr
    rw [hcell hc', hc', Except.ok.injEq, Prod.mk.injEq]
    exact and_congr_right fun _ => eq_comm

/-- Under an index a row has the values that it has under the base. -/
theorem Holds.mirrored (h : Holds schema relations table) (hs : schema.Built)
    (hunshared : Unshared schema relations) (hplain : ∀ r ∈ relations, r.IsPlain schema)
    (ht : t ∈ schema.types) (hu : u ∈ schema.types) (hover : u.indexOf = some t.id)
    (hstatus : u.status ≠ .disabled) (hd : u.storesDirection d = true) (hb : directionByte? d = some b)
    (key : Bytes) :
    ((table.row key).valuesUnder (typeStem u ++ [b])).Perm
      ((table.row key).valuesUnder (typeStem t ++ [b])) := by
  obtain ⟨base, hbase, hid, hti, hentered⟩ := hs.enters u hu t.id hover
  obtain rfl := hs.sound.eq_of_id hbase ht hid
  have hti : base.isIndex = false := by
    unfold RelationType.isIndex
    rw [hti]
    rfl
  obtain ⟨xs, hxs, hall⟩ := hs.sound.indexesOver_ok ht
  have hux := hall u hu hentered
  have hl : keptLayouts schema base = .ok (base :: xs.filter fun x => x.status != .disabled) :=
    Outcome.bind_eq_ok.mpr ⟨xs, hxs, rfl⟩
  have hkept : u ∈ base :: xs.filter fun x => x.status != .disabled :=
    List.mem_cons_of_mem _ (List.mem_filter.mpr ⟨hux, by simpa using hstatus⟩)
  by_cases hkey : ∃ v, key = rowKey v
  · obtain ⟨v, rfl⟩ := hkey
    have hindexed := h.valuesUnder_perm hs.sound hunshared hplain ht hti hl hkept hd hb (v := v)
    refine hindexed.trans (h.valuesUnder_perm hs.sound hunshared hplain ht hti hl List.mem_cons_self ?_ hb).symm
    exact (hs.sound.index ht hxs hux).storesDirection d hd
  · have hempty : (table.row key).toList = [] := by
      refine List.eq_nil_iff_forall_not_mem.mpr fun ⟨c, value⟩ hm => hkey ?_
      obtain ⟨-, -, -, v, -, -, -, hv, -⟩ := h.mem_row.mp hm
      exact ⟨v, hv⟩
    unfold Row.valuesUnder
    rw [hempty]
    exact .refl _

end

/-! ## After transactions -/

namespace GraphTx

variable {features : Features} {schema : Schema} {name : String} {s : Local} {R : List Relation}
  {g : GraphTx StoreHandle TxHandle}

/-- Whatever transactions have done, under an index that is kept every row has the values that it has under
the base, at every end where the index is kept. -/
theorem index_mirrors_base (hs : schema.Built)
    (h : Reached features schema name (Relation.IsPlain schema) s R g) {t x : RelationType}
    (ht : t ∈ schema.types) (hx : x ∈ schema.types) (hover : x.indexOf = some t.id)
    (hstatus : x.status ≠ .disabled) {d : Direction} (hd : x.storesDirection d = true) {b : UInt8}
    (hb : directionByte? d = some b) (key : Bytes) :
    (((s.memory.contents name).row key).valuesUnder (typeStem x ++ [b])).Perm
      (((s.memory.contents name).row key).valuesUnder (typeStem t ++ [b])) :=
  h.inOrder.holds.mirrored hs h.inOrder.unshared h.inOrder.within ht hx hover hstatus hd hb key

end GraphTx

/-! ## One commit -/

namespace Follows

/-- Who follows whom, kept at both ends, with an index that is sorted by weight. -/
def steps : List Schema.Step := [
  .define (.propertyKey "weight" .int),
  .define (.edgeLabel "follows"),
  .index ⟨"follows", "heaviest", ["weight"], .both, .desc, .enabled⟩]

def schema : Schema := (Schema.ofSteps steps).toOption.getD .initial

theorem schema_built : schema.Built :=
  Schema.built_getD (by decide +kernel) (by decide +kernel)

def label : RelationType := (schema.named? "follows").getD default

def index : RelationType := (schema.named? "heaviest").getD default

/-- Vertex 1 follows vertex 2, by the type with a number. -/
def edge (typeId : TypeId) : Relation :=
  { Relation.edge ⟨7⟩ typeId ⟨1⟩ ⟨2⟩ with properties := .ofList [(⟨1024⟩, .int 5)] }

/-- A relation is committed as the first of all. -/
def committed (r : Relation) : Outcome Unit × GraphTx StoreHandle TxHandle × Local :=
  (GraphTx.commit (Local.backend Memory.defaultFeatures) schema).exec
    ((GraphTx.fresh .new "edgestore" .steady).add r, GraphTx.started "edgestore")

theorem reached {allowed : Relation → Prop} {r : Relation} (hallowed : allowed r)
    (hok : (committed r).1 = .ok ()) :
    GraphTx.Reached Memory.defaultFeatures schema "edgestore" allowed (committed r).2.2 [r]
      (committed r).2.1 := by
  have hstart := GraphTx.reached_started Memory.defaultFeatures schema "edgestore" allowed
    Settings.validate_steady
  exact .committed (hstart.add hallowed (by simp [GraphTx.visible, GraphTx.fresh]))
    (unshared_singleton schema r) (Prod.ext hok rfl)

/-- What is in the row of vertex 1 under a type where it goes out. -/
def valuesUnder (s : Local) (t : RelationType) : List Bytes :=
  ((s.memory.contents "edgestore").row (rowKey ⟨1⟩)).valuesUnder (typeStem t ++ [0])

end Follows

theorem GraphTx.index_mirrors_base_follows :
    Follows.valuesUnder (Follows.committed (Follows.edge Follows.label.id)).2.2 Follows.index ≠ [] ∧
      (Follows.valuesUnder (Follows.committed (Follows.edge Follows.label.id)).2.2 Follows.index).Perm
        (Follows.valuesUnder (Follows.committed (Follows.edge Follows.label.id)).2.2 Follows.label) := by
  have hplain : (Follows.edge Follows.label.id).IsPlain Follows.schema :=
    fun t ht => (by decide +kernel : ∀ t, t ∈ Follows.schema.type? Follows.label.id →
      t.isIndex = false) t ht
  refine ⟨by decide +kernel, ?_⟩
  exact GraphTx.index_mirrors_base Follows.schema_built
    (Follows.reached hplain (Outcome.eq_ok_getD (by decide +kernel) ())) (t := Follows.label)
    (x := Follows.index) (by decide +kernel) (by decide +kernel) (by decide +kernel) (by decide +kernel)
    (d := .out) (by decide +kernel) rfl (rowKey ⟨1⟩)

/-- A relation that has the index for its type has a column under the index, and none under the base. -/
theorem index_unmirrored :
    GraphTx.Reached Memory.defaultFeatures Follows.schema "edgestore" (fun _ => True)
        (Follows.committed (Follows.edge Follows.index.id)).2.2 [Follows.edge Follows.index.id]
        (Follows.committed (Follows.edge Follows.index.id)).2.1 ∧
      Follows.index.indexOf = some Follows.label.id ∧ Follows.index.status ≠ .disabled ∧
      Follows.valuesUnder (Follows.committed (Follows.edge Follows.index.id)).2.2 Follows.index =
        [(Follows.edge Follows.index.id).storedBytes] ∧
      Follows.valuesUnder (Follows.committed (Follows.edge Follows.index.id)).2.2 Follows.label = [] := by
  refine ⟨Follows.reached trivial (Outcome.eq_ok_getD (by decide +kernel) ()), ?_⟩
  decide +kernel

end RowGraph
