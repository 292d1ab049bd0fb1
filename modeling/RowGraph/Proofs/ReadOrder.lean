import RowGraph.Proofs.BestResults
import RowGraph.Proofs.ReadLimits
import RowGraph.Proofs.RowReads

/-!
# Ordered reads

A read is called ordered if the order keys are met, one after another, on the walk over the
components of the layout, which goes in their direction.  All but the last component that is walked
are the same for every relation of the slice, so the columns of the slice come in the order of that
last component, which is the order that the query asks for (`compile_ordered`).
-/

namespace RowGraph

open Layout (Placed columnAt componentValues encodeComponents componentOrder directionByte?)

/-- Every column of the row is one of the relation that is stored there. -/
def Row.Written (schema : Schema) (v : VertexId) (row : Row) : Prop :=
  ∀ b ∈ row.toList, ∃ r base t d, Relation.ofStoredBytes b.2 = .ok r ∧ Placed schema r v base t d b.1

/-- Every column of the row that lies in a slice is one of the relation that is stored there, if one
is. -/
def Row.WrittenIn (schema : Schema) (v : VertexId) (row : Row) (slice : Slice) : Prop :=
  ∀ b ∈ row.toList, slice.contains b.1 = true → ∀ r, Relation.ofStoredBytes b.2 = .ok r →
    ∃ base t d, Placed schema r v base t d b.1

theorem Row.Written.writtenIn {schema : Schema} {v : VertexId} {row : Row} (h : row.Written schema v)
    (slice : Slice) : row.WrittenIn schema v slice := by
  intro b hb _ r hr
  obtain ⟨r', base, t, d, hr', hp⟩ := h b hb
  obtain rfl := Except.ok.inj (hr'.symm.trans hr)
  exact ⟨base, t, d, hp⟩

/-! ## The order keys are met -/

namespace Candidate

open ReadPlan (pointsAhead)

/-- Order keys that are all met on a walk stand among the components that are walked. -/
theorem sublist_of_walk {intervals : SortedMap TypeId Interval} {score : Binary64}
    {wanted components : List TypeId} (h : (walk intervals score wanted components).2 = []) :
    wanted.Sublist (components.take (pointsAhead intervals components + 1)) := by
  induction components generalizing score wanted with
  | nil =>
    rw [show wanted = [] from h]
    exact List.nil_sublist _
  | cons key rest ih =>
    have hhead (l : List TypeId)
        (hl : (if wanted.head? = some key then wanted.tail else wanted).Sublist l) :
        wanted.Sublist (key :: l) := by
      split at hl
      · rename_i hk
        cases wanted with
        | nil => cases hk
        | cons k ks =>
          obtain rfl := Option.some.inj hk
          exact hl.cons_cons k
      · exact hl.cons key
    have hmet (l : List TypeId) (hm : (if wanted.head? = some key then wanted.tail else wanted) = []) :
        (if wanted.head? = some key then wanted.tail else wanted).Sublist l := by
      rw [hm]
      exact List.nil_sublist _
    unfold walk at h
    unfold pointsAhead
    rw [List.take_succ_cons]
    refine hhead _ ?_
    dsimp only at h
    split at h
    · exact hmet _ h
    · exact hmet _ h
    · rename_i hi
      simp only [hi]
      exact ih h

theorem supportsOrder_eq {t : RelationType} {d : Direction} {intervals : SortedMap TypeId Interval}
    {order : ResultOrder} (h : (score t d intervals order).supportsOrder = true) :
    (order.isEmpty = true ∨ order.direction = some t.sortOrder) ∧
      order.keys.Sublist ((extendedSortKey t d).take
        (pointsAhead intervals (extendedSortKey t d) + 1)) := by
  simp only [score, Bool.and_eq_true, Bool.or_eq_true, beq_iff_eq] at h
  exact ⟨h.1, sublist_of_walk (List.isEmpty_iff.mp h.2)⟩

/-- What follows the sort key in a layout is implicit. -/
theorem lt_length_sortKey {t : RelationType} {d : Direction} {n : Nat} {key : TypeId}
    (h : (extendedSortKey t d)[n]? = some key) (hk : ImplicitKey.ofTypeId? key = none) :
    n < t.sortKey.length := by
  refine Decidable.byContradiction fun hn => ?_
  have hm : key ∈ (if t.isEdgeLabel then [ImplicitKey.adjacent.typeId] else []) ++
      (if t.multiplicity.isConstrained then [] else [ImplicitKey.id.typeId]) := by
    unfold extendedSortKey at h
    split at h
    · rw [List.getElem?_eq_none (Nat.le_of_not_lt hn)] at h
      cases h
    · rw [List.append_assoc, List.getElem?_append_right (Nat.le_of_not_lt hn)] at h
      exact List.mem_of_getElem? h
  have himplicit : key = ImplicitKey.adjacent.typeId ∨ key = ImplicitKey.id.typeId := by
    split at hm <;> split at hm <;> simp_all
  rcases himplicit with rfl | rfl <;> cases hk

end Candidate

/-! ## Comparing by components -/

namespace ResultOrder

variable {base : VertexId} {a b : Relation}

theorem cmpAscending_append (ks ls : List TypeId) :
    cmpAscending base a b (ks ++ ls) = (cmpAscending base a b ks).then (cmpAscending base a b ls) := by
  induction ks with
  | nil => rfl
  | cons k ks ih => rw [List.cons_append, cmpAscending, ih, cmpAscending, Ordering.then_assoc]

theorem cmpAscending_eq_of_same {keys : List TypeId}
    (h : ∀ k ∈ keys, a.valueOf k base = b.valueOf k base) : cmpAscending base a b keys = .eq := by
  induction keys with
  | nil => rfl
  | cons k keys ih =>
    rw [cmpAscending, h k List.mem_cons_self, Key.cmpAbsentLast_self, Ordering.eq_then]
    exact ih fun j hj => h j (List.mem_cons_of_mem _ hj)

/-- Relations that agree on all components but the last compare by the last, if it is met. -/
theorem cmpAscending_of_sublist {keys components : List TypeId} {n : Nat}
    (hk : keys.Sublist (components.take (n + 1)))
    (hsame : ∀ k ∈ components.take n, a.valueOf k base = b.valueOf k base) :
    cmpAscending base a b keys = .eq ∨ ∃ key ∈ keys, components[n]? = some key ∧
      cmpAscending base a b keys = Value.cmpAbsentLast (a.valueOf key base) (b.valueOf key base) := by
  rw [List.take_add_one] at hk
  obtain ⟨ks, ls, rfl, hks, hls⟩ := List.sublist_append_iff.mp hk
  have hks : cmpAscending base a b ks = .eq := cmpAscending_eq_of_same fun k h => hsame k (hks.subset h)
  rw [cmpAscending_append, hks, Ordering.eq_then]
  cases hn : components[n]? with
  | none =>
    rw [hn] at hls
    obtain rfl := List.sublist_nil.mp hls
    exact .inl rfl
  | some key =>
    rw [hn] at hls
    rcases List.sublist_singleton.mp hls with rfl | rfl
    · exact .inl rfl
    · refine .inr ⟨key, by simp, rfl, ?_⟩
      rw [cmpAscending, cmpAscending, Ordering.then_eq]

end ResultOrder

/-! ## Columns of one slice -/

section

variable {schema : Schema} {layout base t : RelationType} {d e : Direction} {v : VertexId}
  {a b : Relation} {c c' : Bytes} {restriction : KeyRestriction} {slice : Slice}

/-- The column is one of the layout at an end and holds the values of the relation, seen from `v`. -/
def Layout.ColumnOf (layout : RelationType) (d : Direction) (v : VertexId) (r : Relation) (c : Bytes) :
    Prop :=
  ∃ end? tail, directionByte? d = some end? ∧ c = columnAt layout end? (componentValues layout d r v) tail

/-- A slice over a layout at one end holds columns of this layout at this end. -/
theorem Layout.Placed.columnOf (hp : Placed schema a v base t e c) (hs : schema.Sound)
    (hl : layout ∈ schema.types) {end? : UInt8} (hd : directionByte? d = some end?)
    (hslice : Layout.typeSlice layout d restriction = .ok slice) (hc : slice.contains c = true) :
    Layout.ColumnOf layout d v a c := by
  obtain ⟨rfl, rfl⟩ := Layout.placed_eq hs hp hl hd hslice hc
  exact hp.column_eq hs

/-- The values of a relation start with the points of a slice that holds its column. -/
theorem values_of_contains (hslice : Layout.typeSlice layout d restriction = .ok slice)
    (hlen : restriction.points.length ≤ (Candidate.extendedSortKey layout d).length)
    (ha : Layout.ColumnOf layout d v a c) (hc : slice.contains c = true) :
    ((Candidate.extendedSortKey layout d).take restriction.points.length).map (a.valueOf · v) =
      restriction.points.map some := by
  obtain ⟨end?, tail, hd, rfl⟩ := ha
  have hstem := Layout.stem_of_contains hd hslice hc
  rw [Layout.sliceStem_prefix_iff (by simpa [componentValues] using hlen)] at hstem
  have htake := List.prefix_iff_eq_take.mp hstem
  rw [List.length_map] at htake
  rw [htake, componentValues, List.map_take]

/-- A column up to one of its components. -/
theorem columnAt_split {front back : List TypeId} {key : TypeId}
    (hsplit : Candidate.extendedSortKey layout d = front ++ key :: back) (end? : UInt8) (r : Relation)
    (tail : Bytes) :
    ∃ more, columnAt layout end? (componentValues layout d r v) tail =
      (Layout.typeStem layout ++ [end?] ++ encodeComponents layout 0 (front.map (r.valueOf · v))) ++
        (Key.encode (r.valueOf key v) (componentOrder layout front.length) ++ more) := by
  refine ⟨encodeComponents layout (front.length + 1) (back.map (r.valueOf · v)) ++ tail, ?_⟩
  unfold columnAt componentValues
  rw [hsplit, List.map_append, Layout.encodeComponents_append, List.map_cons, encodeComponents,
    List.length_map, Nat.zero_add]
  simp only [List.append_assoc]

/-- Columns that agree on the components before one where they differ compare by that one. -/
theorem compare_of_columns {front back : List TypeId} {key : TypeId}
    (hsplit : Candidate.extendedSortKey layout d = front ++ key :: back)
    (hsame : front.map (a.valueOf · v) = front.map (b.valueOf · v))
    (hne : a.valueOf key v ≠ b.valueOf key v) (ha : Layout.ColumnOf layout d v a c)
    (hb : Layout.ColumnOf layout d v b c') :
    compare c c' = (componentOrder layout front.length).apply
      (Value.cmpAbsentLast (a.valueOf key v) (b.valueOf key v)) := by
  obtain ⟨end?, tail, hd, rfl⟩ := ha
  obtain ⟨end', tail', hd', rfl⟩ := hb
  obtain rfl := Option.some.inj (hd.symm.trans hd')
  obtain ⟨more, hmore⟩ := columnAt_split (v := v) hsplit end? a tail
  obtain ⟨more', hmore'⟩ := columnAt_split (v := v) hsplit end? b tail'
  rw [hmore, hmore', hsame, Bytes.compare_append_left, Key.compare_encode _ hne]

theorem split_of_getElem? {α : Type} {l : List α} {n : Nat} {x : α} (h : l[n]? = some x) :
    l = l.take n ++ x :: l.drop (n + 1) ∧ (l.take n).length = n := by
  obtain ⟨hn, rfl⟩ := List.getElem?_eq_some_iff.mp h
  refine ⟨?_, List.length_take_of_le (Nat.le_of_lt hn)⟩
  rw [← List.drop_eq_getElem_cons hn, List.take_append_drop]

/-- The order of a query that ordered reads may follow: its keys are declared ones. -/
def ResultOrder.Declared (o : ResultOrder) : Prop :=
  ∀ key ∈ o.keys, ImplicitKey.ofTypeId? key = Option.none

/-- In a slice that goes on from points, relations that the order keys tell apart stand in the order of
these, if the keys are met by the component after the points. -/
theorem cmp_of_columns {order : ResultOrder} (horder : order.Declared)
    (hdir : order.direction = some layout.sortOrder)
    (hslice : Layout.typeSlice layout d restriction = .ok slice)
    (hlen : restriction.points.length ≤ (Candidate.extendedSortKey layout d).length)
    (hmet : order.keys.Sublist
      ((Candidate.extendedSortKey layout d).take (restriction.points.length + 1)))
    (ha : Layout.ColumnOf layout d v a c) (hb : Layout.ColumnOf layout d v b c')
    (hc : slice.contains c = true) (hc' : slice.contains c' = true) :
    order.cmp v a b = .eq ∨ order.cmp v a b = compare c c' := by
  have hsame := (values_of_contains hslice hlen ha hc).trans (values_of_contains hslice hlen hb hc').symm
  have heq : layout.sortOrder.apply .eq = .eq := by cases layout.sortOrder <;> rfl
  unfold ResultOrder.cmp
  rw [hdir, Option.getD_some]
  rcases ResultOrder.cmpAscending_of_sublist hmet (List.map_inj_left.mp hsame) with
    he | ⟨key, hkey, hn, he⟩
  · rw [he]
    exact .inl heq
  · rw [he]
    by_cases hne : a.valueOf key v = b.valueOf key v
    · rw [hne, Key.cmpAbsentLast_self]
      exact .inl heq
    · obtain ⟨hsplit, hfront⟩ := split_of_getElem? hn
      rw [compare_of_columns hsplit hsame hne ha hb, hfront, componentOrder,
        if_pos (Candidate.lt_length_sortKey hn (horder key hkey))]
      exact .inr rfl

end

/-! ## Reads of compiled queries -/

namespace Query

variable {s : Setting} {q : Query} {keys : KeyIntervals} {t : RelationType} {d : Direction}
  {reads : List PlannedRead} {read : PlannedRead} {category : Category} {compiled : CompiledQuery}
  {v : VertexId} {row : Row}

theorem pointsAhead_le (intervals : SortedMap TypeId Interval) (components : List TypeId) :
    ReadPlan.pointsAhead intervals components ≤ components.length := by
  induction components with
  | nil => exact Nat.le_refl 0
  | cons key components ih =>
    unfold ReadPlan.pointsAhead
    split
    · exact Nat.succ_le_succ ih
    · exact Nat.zero_le _

/-- Relations that the order of the query tells apart stand in this order in an ordered read. -/
theorem readsAtEnd_cmp {layout : RelationType} {score : CandidateScore} {a b : Relation} {c c' : Bytes}
    (horder : q.order.Declared)
    (hsel : Candidate.select s.schema t d keys.intervals q.order = .ok (layout, score))
    (hreads : readsAtEnd s q keys t d = .ok reads) (hr : read ∈ reads) (hord : read.ordered = true)
    (ha : Layout.ColumnOf layout d v a c) (hb : Layout.ColumnOf layout d v b c')
    (hca : read.slice.contains c = true) (hcb : read.slice.contains c' = true) :
    q.order.cmp v a b = .eq ∨ q.order.cmp v a b = compare c c' := by
  obtain ⟨layout', score', hsel', hreads⟩ := readsAtEnd_eq_ok hreads
  obtain ⟨rfl, rfl⟩ := Prod.mk.inj (Except.ok.inj (hsel.symm.trans hsel'))
  obtain ⟨restriction, slice, _, hslice, he, hsup, hlen⟩ := ReadPlan.expand_mem hreads hr
  have hscore : (Candidate.score layout d keys.intervals q.order).supportsOrder = true := by
    rw [← (Candidate.select_eq_ok hsel).2.2.2, ← hord, hsup]
    rfl
  obtain ⟨hdir, hmet⟩ := Candidate.supportsOrder_eq hscore
  have hpoints : restriction.points.length =
      ReadPlan.pointsAhead keys.intervals (Candidate.extendedSortKey layout d) :=
    hlen.trans (Nat.zero_add _)
  rcases hdir with hempty | hdir
  · exact .inl (ResultOrder.cmp_isEmpty hempty v a b)
  · rw [he] at hca hcb
    refine cmp_of_columns horder hdir hslice ?_ ?_ ha hb hca hcb
    · rw [hpoints]
      exact pointsAhead_le _ _
    · rw [hpoints]
      exact hmet

/-- An ordered read of a type at an end comes in the order of the query. -/
theorem readsAtEnd_ordered (hs : s.schema.Sound) (ht : t ∈ s.schema.types)
    (horder : q.order.Declared) {end? : UInt8} (hd : directionByte? d = some end?)
    (h : readsAtEnd s q keys t d = .ok reads) (hr : read ∈ reads) (hord : read.ordered = true)
    (hw : row.WrittenIn s.schema v read.slice) :
    (row.relations (read.slice.withLimit none)).Pairwise fun a b => q.order.cmp v a b ≠ .gt := by
  obtain ⟨layout, score, hsel, hreads⟩ := readsAtEnd_eq_ok h
  obtain ⟨restriction, slice, _, hslice, he, -⟩ := ReadPlan.expand_mem hreads hr
  have hcolumn {c val : Bytes} {r : Relation} (hm : (c, val) ∈ row.toList)
      (hc : read.slice.contains c = true) (hdecode : Relation.ofStoredBytes val = .ok r) :
      Layout.ColumnOf layout d v r c := by
    obtain ⟨base, u, e, hp⟩ := hw (c, val) hm hc r hdecode
    rw [he] at hc
    exact hp.columnOf hs (Candidate.select_mem ht hsel) hd hslice hc
  refine Row.pairwise_relations fun a ha b hb hca hcb hlt x y hx hy hgt => ?_
  rcases readsAtEnd_cmp horder hsel h hr hord (hcolumn ha hca hx) (hcolumn hb hcb hy) hca hcb with
    heq | hcmp
  · rw [heq] at hgt
    cases hgt
  · rw [hcmp, hlt] at hgt
    cases hgt

theorem readsOfType_ordered (hs : s.schema.Sound) (ht : t ∈ s.schema.types)
    (horder : q.order.Declared) (h : readsOfType s q keys t d = .ok reads) (hr : read ∈ reads)
    (hord : read.ordered = true) (hw : row.WrittenIn s.schema v read.slice) :
    (row.relations (read.slice.withLimit none)).Pairwise fun a b => q.order.cmp v a b ≠ .gt := by
  rcases readsOfType_cases h with ⟨-, -, hempty, -⟩ | ⟨-, hparts⟩
  · exact ResultOrder.pairwise_of_isEmpty hempty v _
  · obtain ⟨e, he, -, part, hpart, hread⟩ := hparts read hr
    obtain ⟨end?, hd⟩ := directionByte?_of_mem he
    exact readsAtEnd_ordered hs ht horder hd hpart hread hord hw

/-- An ordered read of a compiled query comes in the order of the query, if its columns are written for
what they hold. -/
theorem compile_ordered_within (hs : s.schema.Sound) (horder : q.order.Declared)
    (h : q.compile s category = .ok compiled) (hr : read ∈ compiled.reads)
    (hord : read.ordered = true) (hw : row.WrittenIn s.schema v read.slice) :
    (row.relations (read.slice.withLimit none)).Pairwise fun a b => q.order.cmp v a b ≠ .gt := by
  rcases compile_eq_ok h with ⟨rfl, -⟩ | ⟨d, conditions, -, -, hplan⟩
  · cases hr
  · rcases plan_eq_ok hplan with ⟨-, only, honly, rfl⟩ | ⟨-, -, rfl⟩ | ⟨-, types, reads, hreads, he⟩
    · obtain rfl := List.mem_singleton.mp hr
      obtain ⟨-, -, -, -, he⟩ := untypedRead_eq_ok honly
      rw [he] at hord
      exact ResultOrder.pairwise_of_isEmpty hord v _
    · cases hr
    · rcases he with ⟨-, rfl⟩ | ⟨-, rfl⟩
      · cases hr
      · obtain ⟨name, -, t, _, _, e, part, ht, -, -, hpart, hread⟩ := readsOfTypes_mem hreads hr
        exact readsOfType_ordered hs (Schema.mem_of_named ht) horder hpart hread hord hw

/-- An ordered read of a compiled query comes in the order of the query. -/
theorem compile_ordered (hs : s.schema.Sound) (horder : q.order.Declared)
    (h : q.compile s category = .ok compiled) (hr : read ∈ compiled.reads)
    (hord : read.ordered = true) (hw : row.Written s.schema v) :
    (row.relations (read.slice.withLimit none)).Pairwise fun a b => q.order.cmp v a b ≠ .gt :=
  compile_ordered_within hs horder h hr hord (hw.writtenIn read.slice)

/-! ## Orders that calls build -/

theorem order_constrain (q : Query) (c : Constraint) : (q.constrain c).order = q.order := by
  unfold constrain
  split
  · rfl
  · split <;> rfl

theorem declared_call {schema : Schema} (hs : schema.Sound) (h : q.order.Declared) (c : QueryCall) :
    (q.call schema c).order.Declared := by
  cases c with
  | orderBy key direction =>
    show (orderBy schema q key direction).order.Declared
    unfold orderBy
    split
    · exact h
    · split
      · exact h
      · rename_i t ht
        split
        · exact h
        · rename_i hc
          split
          · rename_i order ho
            unfold ResultOrder.add? at ho
            split at ho
            · cases ho
            · obtain rfl := Option.some.inj ho
              have hno : ImplicitKey.ofTypeId? t.id = none := by
                have hi := (hs.types t (Schema.mem_of_named ht)).implicit
                simp only [Bool.or_eq_true, Bool.not_eq_true', not_or, Bool.not_eq_true] at hc
                rw [hc.2] at hi
                simpa using hi.symm
              intro key hkey
              dsimp only at hkey
              split at hkey
              · exact h key hkey
              · rcases List.mem_append.mp hkey with hkey | hkey
                · exact h key hkey
                · rwa [List.mem_singleton.mp hkey]
          · exact h
  | types names =>
    show (if q.error.isSome then q else { q with types := q.types ++ names }).order.Declared
    split <;> exact h
  | constraint c =>
    show (q.constrain c).order.Declared
    rwa [order_constrain]
  | interval key start stop =>
    show ((q.constrain _).constrain _).order.Declared
    rwa [order_constrain, order_constrain]
  | direction d => exact h
  | adjacent a => exact h
  | limit n => exact h
  | system => exact h
  | onlyLoaded => exact h
  | onlyGivenVertex => exact h
  | noPartitionRestriction => exact h

/-- The order of a query that calls build has declared keys. -/
theorem declared_build {schema : Schema} (hs : schema.Sound) (settings : QuerySettings)
    (calls : List QueryCall) : (build schema settings calls).order.Declared := by
  have hfold (q : Query) (h : q.order.Declared) : (calls.foldl (call schema) q).order.Declared := by
    induction calls generalizing q with
    | nil => exact h
    | cons c calls ih => exact ih _ (declared_call hs h c)
  exact hfold _ (by simp [initial, ResultOrder.Declared, ResultOrder.none])

end Query

end RowGraph
