import RowGraph.Proofs.SchemaTables

/-!
# Schemas stay consistent

Types refer to each other by number: an index to its base, the base to its indexes, and a type to the keys
that it is sorted by.  A call adds a type or enters one anew with another status or one more index, so that
whatever was there is still there under its number and of the same kind (`Grows`).  References to it stay
good, and only the types that the call itself enters have to be looked at (`InStep.grow`).

After any calls the tables are consistent (`consistent_after`).
-/

namespace RowGraph

/-- The type is another one with a status and indexes of its own, none of the indexes lost. -/
def RelationType.Renews (t u : RelationType) : Prop :=
  ∃ status indexes, t = { u with status := status, indexes := indexes } ∧ ∀ i ∈ u.indexes, i ∈ indexes

theorem RelationType.Renews.refl (t : RelationType) : t.Renews t :=
  ⟨t.status, t.indexes, rfl, fun _ hi => hi⟩

theorem RelationType.Renews.trans {t u w : RelationType} (h : t.Renews u) (h' : u.Renews w) : t.Renews w := by
  obtain ⟨status, indexes, rfl, hkept⟩ := h'
  obtain ⟨status', indexes', rfl, hkept'⟩ := h
  exact ⟨status', indexes', rfl, fun i hi => hkept' i (hkept i hi)⟩

namespace Schema.Tables

variable {T : Tables} {S : Schema} {t u : RelationType}

/-! ## What a call leaves of the types before it -/

/-- Every type is still there, perhaps renewed. -/
def Grows (T T' : Tables) : Prop := ∀ u, T.Has u → ∃ u', T'.Has u' ∧ u'.Renews u

theorem grows_insert_new (h : T.byId.get? t.id = none) : T.Grows (T.insert t) := fun u hu => by
  refine ⟨u, has_insert.mpr (.inr ⟨hu, fun he => ?_⟩), .refl u⟩
  unfold Has at hu
  rw [he, h] at hu
  cases hu

theorem grows_insert_anew (ht : T.Has t) (hr : u.Renews t) : T.Grows (T.insert u) := fun w hw => by
  by_cases he : w.id = u.id
  · have hid : u.id = t.id := by
      obtain ⟨status, indexes, rfl, -⟩ := hr
      rfl
    obtain rfl := hw.eq_of_id ht (he.trans hid)
    exact ⟨u, has_insert.mpr (.inl rfl), hr⟩
  · exact ⟨w, has_insert.mpr (.inr ⟨hw, he⟩), .refl w⟩

theorem Grows.trans {T' T'' : Tables} (h : T.Grows T') (h' : T'.Grows T'') : T.Grows T'' := fun u hu => by
  obtain ⟨u', hu', hr⟩ := h u hu
  obtain ⟨u'', hu'', hr'⟩ := h' u' hu'
  exact ⟨u'', hu'', hr'.trans hr⟩

/-- The number is that of a declared property key. -/
def IsKey (T : Tables) (k : TypeId) : Prop :=
  ∃ u, T.Has u ∧ u.id = k ∧ u.isPropertyKey = true ∧ u.implicit = false

theorem Grows.isKey {T' : Tables} (h : T.Grows T') {k : TypeId} (hk : T.IsKey k) : T'.IsKey k := by
  obtain ⟨u, hu, hrest⟩ := hk
  obtain ⟨u', hu', status, indexes, rfl, -⟩ := h u hu
  exact ⟨_, hu', hrest⟩

/-! ## What holds of every type -/

/-- The type is an index over another one, and is in its list. -/
structure IndexesOver (x base : RelationType) : Prop where
  indexOf : x.indexOf = some base.id
  plain : base.indexOf = none
  declared : base.implicit = false
  kind : x.kind = base.kind
  system : x.isSystem = base.isSystem
  stores : ∀ d, x.storesDirection d = true → base.storesDirection d = true
  listed : x.id ∈ base.indexes

/-- What holds of a type in the tables. -/
structure Fits (T : Tables) (S : Schema) (t : RelationType) : Prop where
  used : S.Used t.id
  implicit : t.implicit = true → ∃ k : ImplicitKey, t.id = k.typeId
  declared : t.implicit = false → 16 ≤ t.id.val.toNat
  storedOut : t.isPropertyKey = true → t.directionality = .out
  sortKey : ∀ k ∈ t.sortKey, T.IsKey k
  base : t.isIndex = true → ∃ base, T.Has base ∧ IndexesOver t base
  indexes : ∀ i ∈ t.indexes, ∃ x, T.Has x ∧ x.id = i ∧ x.indexOf = some t.id
  nodup : t.indexes.Nodup

/-- What holds of a type goes on to hold when others come and are renewed. -/
theorem Fits.grow {T' : Tables} {S' : Schema} (h : T.Fits S t) (hg : T.Grows T')
    (hused : ∀ i, S.Used i → S'.Used i) : T'.Fits S' t where
  used := hused _ h.used
  implicit := h.implicit
  declared := h.declared
  storedOut := h.storedOut
  sortKey k hk := hg.isKey (h.sortKey k hk)
  base hi := by
    obtain ⟨b, hb, hover⟩ := h.base hi
    obtain ⟨b', hb', status, indexes, rfl, hkept⟩ := hg b hb
    exact ⟨_, hb', hover.indexOf, hover.plain, hover.declared, hover.kind, hover.system, hover.stores,
      hkept _ hover.listed⟩
  indexes i hi := by
    obtain ⟨x, hx, hrest⟩ := h.indexes i hi
    obtain ⟨x', hx', status, indexes, rfl, -⟩ := hg x hx
    exact ⟨_, hx', hrest⟩
  nodup := h.nodup

/-- A type may be given another status and other indexes. -/
theorem Fits.renew (h : T.Fits S t) (status : Status) {indexes : List TypeId}
    (hindexes : ∀ i ∈ indexes, ∃ x, T.Has x ∧ x.id = i ∧ x.indexOf = some t.id)
    (hnodup : indexes.Nodup) : T.Fits S { t with status := status, indexes := indexes } where
  used := h.used
  implicit := h.implicit
  declared := h.declared
  storedOut := h.storedOut
  sortKey := h.sortKey
  base hi := by
    obtain ⟨b, hb, hover⟩ := h.base hi
    exact ⟨b, hb, hover.indexOf, hover.plain, hover.declared, hover.kind, hover.system, hover.stores,
      hover.listed⟩
  indexes := hindexes
  nodup := hnodup

/-- The tables are in step with the list, and all types fit together. -/
structure InStep (T : Tables) (S : Schema) : Prop where
  keyed : T.Keyed
  represents : T.Represents S
  counts : S.Counts
  implicits : ∀ k : ImplicitKey, ∃ t, T.Has t ∧ t.id = k.typeId ∧ t.name = k.name ∧ t.implicit = true
  fits : ∀ t, T.Has t → T.Fits S t

/-- It is enough to look at the types that a call enters. -/
theorem InStep.grow {T' : Tables} {S' : Schema} (h : T.InStep S) (hk : T'.Keyed)
    (hr : T'.Represents S') (hc : S'.Counts) (hused : ∀ i, S.Used i → S'.Used i) (hg : T.Grows T')
    (hnew : ∀ u, T'.Has u → T.Has u ∨ T'.Fits S' u) : T'.InStep S' where
  keyed := hk
  represents := hr
  counts := hc
  implicits k := by
    obtain ⟨t, ht, hrest⟩ := h.implicits k
    obtain ⟨t', ht', status, indexes, rfl, -⟩ := hg t ht
    exact ⟨_, ht', hrest⟩
  fits u hu := by
    rcases hnew u hu with hold | hfits
    · exact (h.fits u hold).grow hg hused
    · exact hfits

/-! ## Every call keeps the tables in step -/

theorem Keyed.recount (h : T.Keyed) (S : Schema) : (T.recount S).Keyed := ⟨h.named, h.numbered⟩

theorem InStep.unused (h : T.InStep S) {id : TypeId} (hid : ¬ S.Used id) : T.byId.get? id = none := by
  refine Option.eq_none_iff_forall_ne_some.mpr fun u hu => hid ?_
  rw [← (h.keyed.numbered id u hu).1]
  exact (h.fits u (h.keyed.has_of_numbered hu)).used

theorem InStep.sortKeyTypes (h : T.InStep S) {names : List String} {keys : List TypeId}
    (hk : S.sortKeyTypes names = .ok keys) : ∀ k ∈ keys, T.IsKey k := by
  intro k hm
  obtain ⟨name, -, hf⟩ := (Outcome.mem_of_mapM hk).mp hm
  unfold Schema.sortKeyType at hf
  split at hf
  · cases hf
  · rename_i u hu
    split at hf
    · rename_i hc
      obtain rfl := Except.ok.inj hf
      rw [Bool.and_eq_true, Bool.not_eq_true'] at hc
      exact ⟨u, h.keyed.has_of_named ((h.represents.byName name).trans hu), rfl, hc⟩
    · cases hf

theorem InStep.define (h : T.InStep S) (d : TypeDefinition) {keys : List TypeId} {id : TypeId}
    {rest : Schema} (hname : T.byName.get? d.name = none)
    (hout : d.kind = .propertyKey → d.directionality = .out)
    (hkeys : S.sortKeyTypes d.sortKey = .ok keys) (ha : S.allocate d.system = .ok (id, rest)) :
    ((T.recount rest).insert (d.toType id keys)).InStep (rest.append (d.toType id keys)) ∧
      T.Grows ((T.recount rest).insert (d.toType id keys)) := by
  obtain ⟨hcounts, htypes, hid, -, hused, hfree, hkeep⟩ := h.counts.allocate ha
  have hnew := h.unused hfree
  have hg : T.Grows ((T.recount rest).insert (d.toType id keys)) :=
    grows_insert_new (T := T.recount rest) hnew
  refine ⟨h.grow ((h.keyed.recount rest).insert_new hname hnew)
    ((h.represents.recount htypes).insert_new hname hnew) ⟨hcounts.nextSystem, hcounts.nextUser⟩
    hkeep hg fun u hu => ?_, hg⟩
  rcases has_insert.mp hu with rfl | ⟨hold, -⟩
  · exact .inr ⟨hused, nofun, fun _ => hid, fun hp => hout (eq_of_beq hp),
      fun k hk => hg.isKey (h.sortKeyTypes hkeys k hk), nofun, nofun, .nil⟩
  · exact .inl hold

theorem InStep.defineIndex (h : T.InStep S) (d : IndexDefinition) {base : RelationType}
    {keys : List TypeId} {id : TypeId} {rest : Schema} (hd : T.Indexable d base)
    (hkeys : S.sortKeyTypes d.sortKey = .ok keys) (ha : S.allocate base.isSystem = .ok (id, rest)) :
    let listed := { base with indexes := base.indexes ++ [id] }
    (((T.recount rest).insert (d.toType base id keys)).insert listed).InStep
        ((rest.append (d.toType base id keys)).replace listed) ∧
      T.Grows (((T.recount rest).insert (d.toType base id keys)).insert listed) := by
  intro listed
  obtain ⟨hcounts, htypes, hid, hsystem, hused, hfree, hkeep⟩ := h.counts.allocate ha
  have hnew := h.unused hfree
  have hbase : T.Has base := h.keyed.has_of_named hd.named
  have hfits := h.fits base hbase
  -- the index comes first, and the base is entered anew beside it
  let mid := (T.recount rest).insert (d.toType base id keys)
  have hmid : mid.Keyed := (h.keyed.recount rest).insert_new hd.fresh hnew
  have hne : base.id ≠ id := fun he => hfree (he ▸ hfits.used)
  have hstill : mid.Has base := has_insert.mpr (.inr ⟨hbase, hne⟩)
  have hrenews : listed.Renews base :=
    ⟨base.status, base.indexes ++ [id], rfl, fun i hi => List.mem_append_left _ hi⟩
  have hg : T.Grows (mid.insert listed) :=
    Grows.trans (grows_insert_new (T := T.recount rest) (t := d.toType base id keys) hnew)
      (grows_insert_anew hstill hrenews)
  have hindex : (mid.insert listed).Has (d.toType base id keys) :=
    has_insert.mpr (.inr ⟨has_insert.mpr (.inl rfl), hne.symm⟩)
  have hmidS : mid.Represents (rest.append (d.toType base id keys)) :=
    (h.represents.recount htypes).insert_new hd.fresh hnew
  refine ⟨h.grow (hmid.insert_anew hstill rfl rfl)
    (hmidS.insert_anew hmid hstill rfl rfl)
    ⟨hcounts.nextSystem, hcounts.nextUser⟩ hkeep hg fun u hu => ?_, hg⟩
  rcases has_insert.mp hu with rfl | ⟨hu, -⟩
  · have hgrown : (mid.insert listed).Fits ((rest.append (d.toType base id keys)).replace listed) base :=
      hfits.grow hg hkeep
    refine .inr (hgrown.renew base.status (fun i hi => ?_) ?_)
    · rcases List.mem_append.mp hi with hi | hi
      · exact hgrown.indexes i hi
      · exact ⟨_, hindex, (List.mem_singleton.mp hi).symm, rfl⟩
    · refine List.nodup_append.mpr ⟨hfits.nodup, by simp, fun i hi j hj he => ?_⟩
      obtain ⟨x, hx, hxi, -⟩ := hfits.indexes i hi
      rw [he, List.mem_singleton.mp hj] at hxi
      exact hfree (hxi ▸ (h.fits x hx).used)
  · rcases has_insert.mp hu with rfl | ⟨hold, -⟩
    · have hplain : base.indexOf = none :=
        Option.not_isSome_iff_eq_none.mp (ne_true_of_eq_false hd.plain)
      have hover : IndexesOver (d.toType base id keys) listed := ⟨rfl, hplain, hd.declared, rfl, hsystem,
        fun e he => Direction.covers_trans hd.stores he, List.mem_append_right _ List.mem_cons_self⟩
      exact .inr ⟨hused, nofun, fun _ => hid, hd.storedOut,
        fun k hk => hg.isKey (h.sortKeyTypes hkeys k hk),
        fun _ => ⟨listed, has_insert.mpr (.inl rfl), hover⟩, nofun, .nil⟩
    · exact .inl hold

theorem InStep.setStatus (h : T.InStep S) (ht : T.Has t) (status : Status) :
    (T.insert { t with status := status }).InStep (S.replace { t with status := status }) ∧
      T.Grows (T.insert { t with status := status }) := by
  have hg : T.Grows (T.insert { t with status := status }) :=
    grows_insert_anew ht ⟨status, t.indexes, rfl, fun _ hi => hi⟩
  refine ⟨h.grow (h.keyed.insert_anew ht rfl rfl) (h.represents.insert_anew h.keyed ht rfl rfl)
    ⟨h.counts.nextSystem, h.counts.nextUser⟩ (fun _ hi => hi) hg fun u hu => ?_, hg⟩
  rcases has_insert.mp hu with rfl | ⟨hold, -⟩
  · have hgrown : (T.insert { t with status := status }).Fits
        (S.replace { t with status := status }) t := (h.fits t ht).grow hg fun _ hi => hi
    exact .inr (hgrown.renew status hgrown.indexes hgrown.nodup)
  · exact .inl hold

theorem keyed_initial : initial.Keyed := by
  have hnone : Keyed ⟨.empty, .empty, TypeId.systemBound, 16⟩ := by
    constructor <;> intro _ _ h <;> cases h
  have hid := hnone.insert_new (t := implicitType .id) rfl rfl
  have hlabel := hid.insert_new (t := implicitType .label) (by decide +kernel) (by decide +kernel)
  exact hlabel.insert_new (t := implicitType .adjacent) (by decide +kernel) (by decide +kernel)

theorem represents_initial : initial.Represents Schema.initial := by
  have hnone : Represents ⟨.empty, .empty, TypeId.systemBound, 16⟩ ⟨[], TypeId.systemBound, 16⟩ :=
    ⟨fun _ => rfl, fun _ => rfl, rfl, rfl, .nil⟩
  have hid := hnone.insert_new (t := implicitType .id) rfl rfl
  have hlabel := hid.insert_new (t := implicitType .label) (by decide +kernel) (by decide +kernel)
  exact hlabel.insert_new (t := implicitType .adjacent) (by decide +kernel) (by decide +kernel)

theorem inStep_initial : initial.InStep Schema.initial where
  keyed := keyed_initial
  represents := represents_initial
  counts := ⟨by decide, by decide⟩
  implicits k := by
    refine ⟨implicitType k, ?_, rfl, rfl, rfl⟩
    cases k <;> exact represents_initial.byId _
  fits t ht := by
    obtain ⟨k, -, rfl⟩ := List.mem_map.mp (mem_of_type ((represents_initial.byId t.id).symm.trans ht))
    refine ⟨?_, fun _ => ⟨k, rfl⟩, nofun, fun _ => rfl, nofun, nofun, nofun, .nil⟩
    unfold Used
    cases k <;> decide

theorem exec_keep_error {made : Schema → Outcome (RelationType × Schema)} {e : Failure}
    (h : made S = .error e) : (keep made).exec S = (.error e, S) := by
  unfold keep
  rw [Act.exec_of, h]

theorem exec_keep_ok {made : Schema → Outcome (RelationType × Schema)} {rest : Schema}
    (h : made S = .ok (t, rest)) : (keep made).exec S = (.ok (.found (some t)), rest) := by
  unfold keep
  rw [Act.exec_of, h]

theorem exec_status_error {name : String} {status : Status} {e : Failure}
    (h : S.setStatus name status = .error e) : (step (.status name status)).exec S = (.error e, S) := by
  unfold step
  rw [Act.exec_of, h]

theorem exec_status_ok {name : String} {status : Status} {rest : Schema}
    (h : S.setStatus name status = .ok rest) : (step (.status name status)).exec S = (.ok .done, rest) := by
  unfold step
  rw [Act.exec_of, h]

/-- A call does the same in the tables and in the list.  It keeps them in step, loses no type, and if it
fails changes nothing. -/
theorem InStep.perform (h : T.InStep S) (call : Call) :
    ∃ o T' S', (perform call).exec T = (o, T') ∧ (step call.step).exec S = (o, S') ∧
      T'.InStep S' ∧ T.Grows T' ∧ ∀ e, o = .error e → T' = T := by
  have stays : T.Grows T := fun u hu => ⟨u, hu, .refl u⟩
  cases call with
  | define d =>
    obtain ⟨e, hS, hT⟩ | ⟨keys, id, rest, hname, hout, hkeys, ha, hS, hT⟩ := h.represents.define d
    · exact ⟨_, T, S, Act.exec_bind_error hT _, exec_keep_error hS, h, stays, fun _ _ => rfl⟩
    · obtain ⟨hstep, hg⟩ := h.define d hname hout hkeys ha
      exact ⟨_, _, _, Act.exec_bind_ok hT _, exec_keep_ok hS, hstep, hg, nofun⟩
  | defineIndex d =>
    obtain ⟨e, hS, hT⟩ | ⟨base, keys, id, rest, hd, hkeys, ha, hS, hT⟩ := h.represents.defineIndex d
    · exact ⟨_, T, S, Act.exec_bind_error hT _, exec_keep_error hS, h, stays, fun _ _ => rfl⟩
    · obtain ⟨hstep, hg⟩ := h.defineIndex d hd hkeys ha
      exact ⟨_, _, _, Act.exec_bind_ok hT _, exec_keep_ok hS, hstep, hg, nofun⟩
  | setStatus name status =>
    obtain ⟨e, hS, hT⟩ | ⟨t, ht, hS, hT⟩ := h.represents.setStatus name status
    · exact ⟨_, T, S, Act.exec_bind_error hT _, exec_status_error hS, h, stays, fun _ _ => rfl⟩
    · obtain ⟨hstep, hg⟩ := h.setStatus (h.keyed.has_of_named ht) status
      exact ⟨_, _, _, Act.exec_bind_ok hT _, exec_status_ok hS, hstep, hg, nofun⟩

/-- What is defined is found under its name, and is numbered in the range that was asked for. -/
theorem InStep.defined (h : T.InStep S) {d : TypeDefinition} {T' : Tables}
    (hT : (Tables.perform (.define d)).exec T = (.ok (.found (some t)), T')) :
    T'.byName.get? d.name = some t ∧ t.isSystem = d.system := by
  obtain ⟨e, -, he⟩ | ⟨keys, id, rest, -, -, -, ha, -, hok⟩ := h.represents.define d
  · have hperform := Act.exec_bind_error he fun t => (pure (.found (some t)) : Act Tables Report)
    cases hT.symm.trans hperform
  · have hperform := Act.exec_bind_ok hok fun t => (pure (.found (some t)) : Act Tables Report)
    cases hT.symm.trans hperform
    obtain ⟨-, -, -, hsystem, -⟩ := h.counts.allocate ha
    exact ⟨SortedMap.get?_put_self .., hsystem⟩

theorem inStep_after (calls : List Call) : (after calls).InStep (Schema.after (calls.map Call.step)) := by
  have hrun (T : Tables) (S : Schema) (h : T.InStep S) :
      (calls.foldl (fun T call => ((Tables.perform call).exec T).2) T).InStep
        ((calls.map Call.step).foldl (fun S s => ((step s).exec S).2) S) := by
    induction calls generalizing T S with
    | nil => exact h
    | cons call calls ih =>
      obtain ⟨o, T', S', hT, hS, hstep, -⟩ := h.perform call
      rw [List.foldl_cons, List.map_cons, List.foldl_cons, hT, hS]
      exact ih T' S' hstep
  exact hrun initial Schema.initial inStep_initial

/-! ## Consistency -/

/-- The tables are consistent: whoever looks a type up by name or by number finds the same, and can rely
on what it refers to. -/
structure Consistent (T : Tables) : Prop where
  /-- What is found under a name has the name, and is what is found under its number. -/
  named : ∀ name t, T.byName.get? name = some t → t.name = name ∧ T.byId.get? t.id = some t
  /-- What is found under a number has the number, and is what is found under its name. -/
  numbered : ∀ id t, T.byId.get? id = some t → t.id = id ∧ T.byName.get? t.name = some t
  /-- Types with different names have different numbers. -/
  distinct : ∀ name name' t t', T.byName.get? name = some t → T.byName.get? name' = some t' →
    name ≠ name' → t.id ≠ t'.id
  /-- The implicit keys are there. -/
  implicits : ∀ k : ImplicitKey, ∃ t, T.byName.get? k.name = some t ∧ t.id = k.typeId ∧ t.implicit = true
  /-- Implicit keys are numbered from 1 to 3, other types of the system from 16 to 1023, all others from
  1024 on. -/
  numbers : ∀ id t, T.byId.get? id = some t →
    if t.implicit then 1 ≤ id.val.toNat ∧ id.val.toNat ≤ 3
    else if t.isSystem then 16 ≤ id.val.toNat ∧ id.val.toNat ≤ 1023
    else 1024 ≤ id.val.toNat
  /-- Properties are kept with the vertex that they go out from. -/
  storedOut : ∀ id t, T.byId.get? id = some t → t.isPropertyKey = true → t.directionality = .out
  /-- An index has one base, and comes once in its list and in no other. -/
  bases : ∀ id x, T.byId.get? id = some x → x.isIndex = true →
    ∃ base, T.byId.get? base.id = some base ∧ x.indexOf = some base.id ∧ base.isIndex = false ∧
      base.implicit = false ∧ x.kind = base.kind ∧ x.isSystem = base.isSystem ∧
      (∀ d, x.storesDirection d = true → base.storesDirection d = true) ∧ base.indexes.count id = 1 ∧
      ∀ id' t, T.byId.get? id' = some t → id ∈ t.indexes → t = base
  /-- All numbers in a list of indexes are those of indexes over this type. -/
  indexes : ∀ id t, T.byId.get? id = some t → ∀ i ∈ t.indexes,
    ∃ x, T.byId.get? i = some x ∧ x.indexOf = some id
  /-- Sort keys hold numbers of declared property keys. -/
  sortKeys : ∀ id t, T.byId.get? id = some t → ∀ k ∈ t.sortKey,
    ∃ u, T.byId.get? k = some u ∧ u.isPropertyKey = true ∧ u.implicit = false

theorem InStep.consistent (h : T.InStep S) : T.Consistent where
  named := h.keyed.named
  numbered := h.keyed.numbered
  distinct name name' t t' ht ht' hne he := by
    obtain ⟨rfl, hhas⟩ := h.keyed.named name t ht
    obtain ⟨rfl, hhas'⟩ := h.keyed.named name' t' ht'
    exact hne (congrArg RelationType.name (hhas.eq_of_id hhas' he))
  implicits k := by
    obtain ⟨t, ht, hid, hname, himplicit⟩ := h.implicits k
    exact ⟨t, hname ▸ h.keyed.named_of_has ht, hid, himplicit⟩
  numbers id t ht := by
    obtain ⟨rfl, -⟩ := h.keyed.numbered id t ht
    have hfits := h.fits t ht
    split
    · rename_i hi
      obtain ⟨k, hk⟩ := hfits.implicit hi
      rw [hk]
      cases k <;> decide
    · rename_i hi
      have hlow := hfits.declared (Bool.not_eq_true _ ▸ hi)
      have hsystem : t.isSystem = true ↔ t.id.val.toNat < 1024 := decide_eq_true_iff
      split <;> rename_i hs <;> rw [hsystem] at hs <;> omega
  storedOut id t ht := by
    obtain ⟨rfl, -⟩ := h.keyed.numbered id t ht
    exact (h.fits t ht).storedOut
  bases id x hx hi := by
    obtain ⟨rfl, -⟩ := h.keyed.numbered id x hx
    obtain ⟨base, hbase, hover⟩ := (h.fits x hx).base hi
    refine ⟨base, hbase, hover.indexOf, ?_, hover.declared, hover.kind, hover.system, hover.stores,
      Nat.le_antisymm (List.nodup_iff_count.mp (h.fits base hbase).nodup _)
        (List.count_pos_iff.mpr hover.listed), fun id' t ht hm => ?_⟩
    · rw [RelationType.isIndex, hover.plain]
      rfl
    · have hhas := h.keyed.has_of_numbered ht
      obtain ⟨y, hy, hyi, hyo⟩ := (h.fits t hhas).indexes _ hm
      obtain rfl := hy.eq_of_id hx hyi
      exact hhas.eq_of_id hbase (Option.some.inj (hyo.symm.trans hover.indexOf))
  indexes id t ht i hi := by
    obtain ⟨rfl, -⟩ := h.keyed.numbered id t ht
    obtain ⟨x, hx, rfl, hover⟩ := (h.fits t ht).indexes i hi
    exact ⟨x, hx, hover⟩
  sortKeys id t ht k hk := by
    obtain ⟨rfl, -⟩ := h.keyed.numbered id t ht
    obtain ⟨u, hu, rfl, hrest⟩ := (h.fits t ht).sortKey k hk
    exact ⟨u, hu, hrest⟩

/-- After any calls the tables are consistent, and stand for the list of types that the same calls make.
The next call reports the same in both.  If it fails it changes nothing; in any case it takes no type away,
and of a type that is there it changes the status and the list of indexes only.  A type that it defines is
found under its name, with a number in the range of the system just if it was defined for the system. -/
theorem consistent_after (calls : List Call) :
    (after calls).Consistent ∧ (after calls).Represents (Schema.after (calls.map Call.step)) ∧
      ∀ call, ∃ o T', (perform call).exec (after calls) = (o, T') ∧
        ((step call.step).exec (Schema.after (calls.map Call.step))).1 = o ∧
        (∀ e, o = .error e → T' = after calls) ∧
        (∀ id t, (after calls).byId.get? id = some t → ∃ t', T'.byId.get? id = some t' ∧ t'.Renews t) ∧
        ∀ d t, call = .define d → o = .ok (.found (some t)) →
          T'.byName.get? d.name = some t ∧ t.isSystem = d.system := by
  have h := inStep_after calls
  refine ⟨h.consistent, h.represents, fun call => ?_⟩
  obtain ⟨o, T', S', hT, hS, hstep, hg, hfail⟩ := h.perform call
  refine ⟨o, T', hT, by rw [hS], hfail, fun id t ht => ?_, ?_⟩
  · obtain ⟨rfl, -⟩ := h.keyed.numbered id t ht
    obtain ⟨t', ht', status, indexes, rfl, hkept⟩ := hg t ht
    exact ⟨_, ht', status, indexes, rfl, hkept⟩
  · rintro d t rfl rfl
    exact h.defined hT

end Schema.Tables

end RowGraph
