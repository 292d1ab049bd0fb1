import RowGraph.Proofs.Outcome
import RowGraph.Constraint.Normal
import RowGraph.Schema.Steps

/-!
# Schemas that were built

`Schema.Built` holds of the schemas that definitions and status changes make.  Whatever the order of
the steps, every type has a number of its own, an index shares the kind of its base and is kept where
the base is, and no sort key holds an implicit key: `Schema.Sound`, which every step preserves.

* `Built.sound`: a built schema is sound.
* `Built.of_steps`: what a list of steps builds is built.
* `Sound.type?_eq`: looking up the number of a type finds it.
* `Sound.index`: what an index has from its base.
* `Built.enters`: every index is entered with its base, which is no index.
-/

namespace RowGraph

/-- Property keys declare the kind of their values. -/
def TypeDefinition.Declares (d : TypeDefinition) : Prop :=
  d.kind = .propertyKey → d.dataKind.isSome

instance (d : TypeDefinition) : Decidable d.Declares := inferInstanceAs (Decidable (_ → _))

/-- The kind of values that stand under a key: an edge label stands for the vertex it leads to. -/
def RelationType.keyKind? (t : RelationType) : Option ValueKind :=
  if t.isEdgeLabel then some .vertex else t.dataKind

/-- `x` is kept as an index over `t`. -/
structure RelationType.IndexOver (x t : RelationType) : Prop where
  indexOf : x.indexOf = some t.id
  kind : x.kind = t.kind
  multiplicity : x.multiplicity = .multi
  storesDirection : ∀ d, x.storesDirection d = true → t.storesDirection d = true

theorem Direction.covers_trans {a b c : Direction} (h : a.covers b = true) (h' : b.covers c = true) :
    a.covers c = true := by
  revert h h'
  cases a <;> cases b <;> cases c <;> decide

namespace Schema

/-- The schema is made of definitions and status changes. -/
inductive Built : Schema → Prop
  | initial : Built initial
  | define {s s' : Schema} {d : TypeDefinition} {t : RelationType} :
      Built s → d.Declares → s.define d = .ok (t, s') → Built s'
  | defineIndex {s s' : Schema} {d : IndexDefinition} {t : RelationType} :
      Built s → s.defineIndex d = .ok (t, s') → Built s'
  | setStatus {s s' : Schema} {name : String} {status : Status} :
      Built s → s.setStatus name status = .ok s' → Built s'

/-- The number is one of those given out so far. -/
def Used (schema : Schema) (id : TypeId) : Prop :=
  (id.val.toNat < TypeId.systemBound → id.val.toNat < schema.nextSystem) ∧
    id.val.toNat < schema.nextUser

/-- What holds of one type among those of a schema. -/
structure SoundType (schema : Schema) (t : RelationType) : Prop where
  used : schema.Used t.id
  implicit : t.implicit = (ImplicitKey.ofTypeId? t.id).isSome
  implicitKind : ∀ k, ImplicitKey.ofTypeId? t.id = some k → t.keyKind? = some k.dataKind
  dataKind : t.kind = .propertyKey → t.dataKind.isSome
  sortKey : ∀ k ∈ t.sortKey, ImplicitKey.ofTypeId? k = none
  indexes : ∀ i ∈ t.indexes, ∃ x ∈ schema.types, x.id = i ∧ x.IndexOver t

/-- What every built schema has. -/
structure Sound (schema : Schema) : Prop where
  nextSystem : 16 ≤ schema.nextSystem ∧ schema.nextSystem ≤ TypeId.systemBound
  nextUser : TypeId.systemBound ≤ schema.nextUser ∧ schema.nextUser < Word.bound32
  ids : schema.types.Pairwise fun t u => t.id ≠ u.id
  types : ∀ t ∈ schema.types, schema.SoundType t

/-! ## Looking up -/

variable {schema : Schema} {t : RelationType}

theorem mem_of_named {name : String} (h : schema.named? name = some t) : t ∈ schema.types :=
  List.mem_of_find?_eq_some h

theorem mem_of_type {id : TypeId} (h : schema.type? id = some t) : t ∈ schema.types :=
  List.mem_of_find?_eq_some h

theorem id_of_type {id : TypeId} (h : schema.type? id = some t) : t.id = id := by
  simpa using List.find?_some h

theorem find_of_pairwise {l : List RelationType} (hp : l.Pairwise fun t u => t.id ≠ u.id)
    (ht : t ∈ l) : l.find? (fun u => u.id == t.id) = some t := by
  induction l with
  | nil => simp at ht
  | cons u rest ih =>
    obtain ⟨hu, hrest⟩ := List.pairwise_cons.1 hp
    rcases List.mem_cons.1 ht with rfl | ht
    · simp
    · rw [List.find?_cons_of_neg (by simpa using hu t ht), ih hrest ht]

/-- Every type is found under its number. -/
theorem Sound.type?_eq (h : schema.Sound) (ht : t ∈ schema.types) : schema.type? t.id = some t :=
  find_of_pairwise h.ids ht

theorem Sound.eq_of_id (h : schema.Sound) {u : RelationType} (ht : t ∈ schema.types)
    (hu : u ∈ schema.types) (he : t.id = u.id) : t = u := by
  have := h.type?_eq ht
  rw [he, h.type?_eq hu] at this
  exact (Option.some.inj this).symm

theorem mem_indexesOver {xs : List RelationType} (h : schema.indexesOver t = .ok xs)
    {x : RelationType} (hx : x ∈ xs) : x ∈ schema.types ∧ x.id ∈ t.indexes := by
  obtain ⟨i, hi, hf⟩ := (Outcome.mem_of_mapM h).mp hx
  cases hq : schema.type? i with
  | none => simp [hq] at hf
  | some y =>
    simp only [hq, Except.ok.injEq] at hf
    subst hf
    exact ⟨mem_of_type hq, by rw [id_of_type hq]; exact hi⟩

/-- The indexes of a type are found where each of them is. -/
theorem indexesOver_eq_ok (h : ∀ i ∈ t.indexes, ∃ x, schema.type? i = some x) :
    schema.indexesOver t = .ok (t.indexes.filterMap schema.type?) := by
  obtain ⟨xs, hxs⟩ : ∃ xs, schema.indexesOver t = .ok xs := by
    refine Outcome.exists_mapM fun i hi => ?_
    obtain ⟨x, hx⟩ := h i hi
    exact ⟨x, by rw [hx]⟩
  rw [hxs, Outcome.eq_filterMap_of_mapM hxs]
  congr 1
  refine List.filterMap_congr fun i _ => ?_
  cases schema.type? i <;> rfl

/-- An index that is found for a type is an index over it. -/
theorem Sound.index (h : schema.Sound) (ht : t ∈ schema.types) {xs : List RelationType}
    (hxs : schema.indexesOver t = .ok xs) {x : RelationType} (hx : x ∈ xs) : x.IndexOver t := by
  obtain ⟨hm, hi⟩ := mem_indexesOver hxs hx
  obtain ⟨y, hy, he, hover⟩ := (h.types t ht).indexes _ hi
  rwa [h.eq_of_id hm hy he.symm]

/-- A layout is that of no more than one type, or index over it, that is not an index itself. -/
theorem Sound.eq_of_layout (h : schema.Sound) {base layout : RelationType} (ht : t ∈ schema.types)
    (hti : t.isIndex = false) (hl : layout = t ∨ layout.IndexOver t) (hb : base ∈ schema.types)
    (hbi : base.isIndex = false) (hl' : layout = base ∨ layout.IndexOver base) : base = t := by
  have hno {x y : RelationType} (hx : x.isIndex = false) (hxy : x.IndexOver y) : False := by
    unfold RelationType.isIndex at hx
    rw [hxy.indexOf] at hx
    cases hx
  rcases hl with rfl | hl
  · rcases hl' with rfl | hl'
    · rfl
    · exact (hno hti hl').elim
  · rcases hl' with rfl | hl'
    · exact (hno hbi hl).elim
    · exact h.eq_of_id hb ht (Option.some.inj (hl'.indexOf.symm.trans hl.indexOf))

/-! ## Every step keeps a schema sound -/

theorem sound_initial : initial.Sound where
  nextSystem := by decide
  nextUser := by decide
  ids := by decide
  types := by
    intro t ht
    obtain ⟨k, -, rfl⟩ := List.mem_map.1 ht
    cases k <;>
      exact ⟨by unfold Used; decide, by decide, by decide, by decide, by decide, by simp [implicitType]⟩

theorem ofTypeId?_eq_none {id : TypeId} (h : 16 ≤ id.val.toNat) : ImplicitKey.ofTypeId? id = none := by
  unfold ImplicitKey.ofTypeId?
  rw [List.find?_eq_none]
  intro k _ he
  have hk : k.typeId = id := by simpa using he
  rw [← hk] at h
  cases k <;> revert h <;> decide

/-- The counters are in their ranges. -/
structure Counts (schema : Schema) : Prop where
  nextSystem : 16 ≤ schema.nextSystem ∧ schema.nextSystem ≤ TypeId.systemBound
  nextUser : TypeId.systemBound ≤ schema.nextUser ∧ schema.nextUser < Word.bound32

/-- A number that is given out was free, is of its range, and is used from then on. -/
theorem Counts.allocate (h : schema.Counts) {system : Bool} {id : TypeId} {rest : Schema}
    (ha : schema.allocate system = .ok (id, rest)) :
    rest.Counts ∧ rest.types = schema.types ∧ 16 ≤ id.val.toNat ∧ id.isSystem = system ∧
      rest.Used id ∧ ¬ schema.Used id ∧ ∀ i, schema.Used i → rest.Used i := by
  have hs := h.nextSystem
  have hu := h.nextUser
  unfold TypeId.systemBound at hs hu
  unfold Word.bound32 at hu
  unfold Schema.allocate TypeId.systemBound Word.bound32 at ha
  split at ha
  · split at ha
    · simp at ha
    · rename_i hsystem _
      obtain ⟨rfl, rfl⟩ := Prod.mk.inj (Except.ok.inj ha)
      have hid : (UInt32.ofNat schema.nextSystem).toNat = schema.nextSystem := by
        rw [UInt32.toNat_ofNat']
        omega
      refine ⟨⟨?_, ?_⟩, rfl, ?_, ?_, ?_, ?_, fun i hi => ?_⟩ <;>
        simp only [Used, TypeId.systemBound, TypeId.isSystem, Word.bound32, hid, hsystem,
          decide_eq_true_eq] at * <;> omega
  · split at ha
    · simp at ha
    · rename_i hsystem _
      obtain ⟨rfl, rfl⟩ := Prod.mk.inj (Except.ok.inj ha)
      have hid : (UInt32.ofNat schema.nextUser).toNat = schema.nextUser := by
        rw [UInt32.toNat_ofNat']
        omega
      refine ⟨⟨?_, ?_⟩, rfl, ?_, ?_, ?_, ?_, fun i hi => ?_⟩ <;>
        simp only [Used, TypeId.systemBound, TypeId.isSystem, Word.bound32, hid, hsystem,
          decide_eq_false_iff_not] at * <;> omega

/-- What was sound stays so when a number is given out. -/
theorem Sound.allocate (h : schema.Sound) {system : Bool} {id : TypeId} {rest : Schema}
    (ha : schema.allocate system = .ok (id, rest)) :
    rest.Sound ∧ rest.types = schema.types ∧ 16 ≤ id.val.toNat ∧ rest.Used id ∧ ¬ schema.Used id := by
  obtain ⟨hcounts, htypes, hid, -, hused, hfree, hkeep⟩ :=
    Counts.allocate ⟨h.nextSystem, h.nextUser⟩ ha
  refine ⟨⟨hcounts.nextSystem, hcounts.nextUser, htypes ▸ h.ids, fun t ht => ?_⟩, htypes, hid, hused, hfree⟩
  rw [htypes] at ht
  obtain ⟨h1, h2, h3, h4, h5, h6⟩ := h.types t ht
  exact ⟨hkeep _ h1, h2, h3, h4, h5, htypes ▸ h6⟩

/-- A type with a free number may be added. -/
theorem Sound.append (h : schema.Sound) (hn : ∀ u ∈ schema.types, u.id ≠ t.id)
    (ht : schema.SoundType t) : (schema.append t).Sound where
  nextSystem := h.nextSystem
  nextUser := h.nextUser
  ids := by
    refine List.pairwise_append.mpr ⟨h.ids, List.pairwise_singleton _ _, fun u hu x hx => ?_⟩
    rw [List.mem_singleton.mp hx]
    exact hn u hu
  types := by
    intro u hu
    have hu' : schema.SoundType u := by
      rcases List.mem_append.mp hu with hu | hu
      · exact h.types u hu
      · rwa [List.mem_singleton.mp hu]
    refine ⟨hu'.used, hu'.implicit, hu'.implicitKind, hu'.dataKind, hu'.sortKey, fun i hi => ?_⟩
    obtain ⟨x, hx, hover⟩ := hu'.indexes i hi
    exact ⟨x, List.mem_append_left _ hx, hover⟩

/-- The status of a type may change, and what indexes it has. -/
theorem Sound.replace (h : schema.Sound) (ht : t ∈ schema.types) (status : Status) {is : List TypeId}
    (hi : ∀ i ∈ is, ∃ x ∈ schema.types, x.id = i ∧ x.IndexOver t) :
    (schema.replace { t with status := status, indexes := is }).Sound := by
  have hid : ∀ u : RelationType,
      (if u.id = t.id then { t with status := status, indexes := is } else u).id = u.id := by
    intro u
    split
    · rename_i he
      exact he.symm
    · rfl
  have hover : ∀ x ∈ schema.types, ∀ u : RelationType, x.IndexOver u →
      ∃ y ∈ (schema.replace { t with status := status, indexes := is }).types,
        y.id = x.id ∧ y.IndexOver u := by
    intro x hx u hxu
    refine ⟨_, List.mem_map.mpr ⟨x, hx, rfl⟩, hid x, ?_⟩
    split
    · rename_i he
      obtain rfl := h.eq_of_id hx ht he
      exact ⟨hxu.indexOf, hxu.kind, hxu.multiplicity, hxu.storesDirection⟩
    · exact hxu
  refine ⟨h.nextSystem, h.nextUser, ?_, ?_⟩
  · refine List.pairwise_map.mpr (h.ids.imp fun {u w} hne => ?_)
    rw [hid u, hid w]
    exact hne
  · intro y hy
    obtain ⟨u, hu, rfl⟩ := List.mem_map.mp hy
    have hsu := h.types u hu
    split
    · have hst := h.types t ht
      refine ⟨hst.used, hst.implicit, hst.implicitKind, hst.dataKind, hst.sortKey, fun i hii => ?_⟩
      obtain ⟨x, hx, hxi, hxt⟩ := hi i hii
      obtain ⟨y, hy, hyi, hyt⟩ := hover x hx t hxt
      exact ⟨y, hy, hyi.trans hxi, ⟨hyt.indexOf, hyt.kind, hyt.multiplicity, hyt.storesDirection⟩⟩
    · refine ⟨hsu.used, hsu.implicit, hsu.implicitKind, hsu.dataKind, hsu.sortKey, fun i hii => ?_⟩
      obtain ⟨x, hx, hxi, hxu⟩ := hsu.indexes i hii
      obtain ⟨y, hy, hyi, hyu⟩ := hover x hx u hxu
      exact ⟨y, hy, hyi.trans hxi, hyu⟩

/-- Sort keys hold no implicit key. -/
theorem Sound.sortKeyTypes (h : schema.Sound) {names : List String} {keys : List TypeId}
    (hk : schema.sortKeyTypes names = .ok keys) : ∀ k ∈ keys, ImplicitKey.ofTypeId? k = none := by
  intro k hm
  obtain ⟨name, -, hf⟩ := (Outcome.mem_of_mapM hk).mp hm
  unfold sortKeyType at hf
  split at hf
  · simp at hf
  · rename_i x hx
    split at hf
    · rename_i hc
      obtain rfl := Except.ok.inj hf
      have hi := (h.types x (mem_of_named hx)).implicit
      simp only [Bool.and_eq_true, Bool.not_eq_true'] at hc
      rw [hc.2] at hi
      simpa using hi.symm
    · simp at hf

theorem Sound.define (h : schema.Sound) {d : TypeDefinition} (hd : d.Declares) {s' : Schema}
    (hs : schema.define d = .ok (t, s')) : s'.Sound := by
  simp only [Schema.define, Outcome.guard_eq_ok, Outcome.bind_eq_ok] at hs
  obtain ⟨-, -, keys, hkeys, ⟨id, rest⟩, ha, hs⟩ := hs
  obtain ⟨rfl, rfl⟩ := Prod.mk.inj (Except.ok.inj hs)
  obtain ⟨hrest, htypes, hid, hused, hfree⟩ := h.allocate ha
  have hno := ofTypeId?_eq_none hid
  refine hrest.append (fun u hu he => ?_) ⟨hused, ?_, ?_, hd, h.sortKeyTypes hkeys, ?_⟩
  · rw [htypes] at hu
    have hu' := (h.types u hu).used
    rw [he] at hu'
    exact hfree hu'
  · simp [hno]
  · simp [hno]
  · simp

/-- An index is defined by adding it and entering it with its base, which is no index. -/
theorem Sound.defineIndex_eq_ok (h : schema.Sound) {d : IndexDefinition} {s' : Schema}
    (hs : schema.defineIndex d = .ok (t, s')) :
    ∃ base ∈ schema.types, ∃ rest : Schema, base.indexOf = none ∧ t.IndexOver base ∧
      rest.types = schema.types ∧ (rest.append t).Sound ∧
      s' = (rest.append t).replace
        { base with status := base.status, indexes := base.indexes ++ [t.id] } := by
  unfold Schema.defineIndex at hs
  split at hs
  · rename_i base hbase
    simp only [Outcome.guard_eq_ok, Outcome.bind_eq_ok] at hs
    obtain ⟨hplain, -, hdir, keys, hkeys, ⟨id, rest⟩, ha, hs⟩ := hs
    obtain ⟨ht, rfl⟩ := Prod.mk.inj (Except.ok.inj hs)
    obtain ⟨hrest, htypes, hid, hused, hfree⟩ := h.allocate ha
    have hno := ofTypeId?_eq_none hid
    have hb : base ∈ schema.types := mem_of_named hbase
    have hsb := h.types base hb
    have hbase : base.indexOf = none := by
      simp only [Bool.or_eq_true, not_or, Bool.not_eq_true] at hplain
      exact Option.isSome_eq_false_iff.mp hplain.2 |> Option.isNone_iff_eq_none.mp
    have hnew : ∀ u ∈ rest.types, u.id ≠ t.id := by
      intro u hu he
      rw [htypes] at hu
      have hu' := (h.types u hu).used
      rw [he, ← ht] at hu'
      exact hfree hu'
    have hsound : rest.SoundType t := by
      subst ht
      exact ⟨hused, by simp [hno], by simp [hno], hsb.dataKind, h.sortKeyTypes hkeys, by simp⟩
    have hover : t.IndexOver base := by
      subst ht
      simp only [Bool.or_eq_true, Bool.not_eq_true', not_or, Bool.not_eq_false] at hdir
      exact ⟨rfl, rfl, rfl, fun e he => Direction.covers_trans hdir.1 he⟩
    refine ⟨base, hb, rest, hbase, hover, htypes, hrest.append hnew hsound, ?_⟩
    subst ht
    rfl
  · simp [throw, throwThe, MonadExceptOf.throw] at hs

theorem Sound.defineIndex (h : schema.Sound) {d : IndexDefinition} {s' : Schema}
    (hs : schema.defineIndex d = .ok (t, s')) : s'.Sound := by
  obtain ⟨base, hb, rest, -, hover, htypes, hsound, rfl⟩ := h.defineIndex_eq_ok hs
  refine hsound.replace (List.mem_append_left _ (htypes ▸ hb)) base.status fun i hi => ?_
  rcases List.mem_append.mp hi with hi | hi
  · obtain ⟨x, hx, hxi⟩ := (h.types base hb).indexes i hi
    exact ⟨x, List.mem_append_left _ (htypes ▸ hx), hxi⟩
  · exact ⟨t, List.mem_append_right _ List.mem_cons_self, (List.mem_singleton.mp hi).symm, hover⟩

theorem Sound.setStatus (h : schema.Sound) {name : String} {status : Status} {s' : Schema}
    (hs : schema.setStatus name status = .ok s') : s'.Sound := by
  unfold Schema.setStatus at hs
  split at hs
  · simp at hs
  · rename_i t ht
    obtain rfl := Except.ok.inj hs
    have hm := mem_of_named ht
    exact h.replace hm status (h.types t hm).indexes

/-- A built schema is sound. -/
theorem Built.sound (h : schema.Built) : schema.Sound := by
  induction h with
  | initial => exact sound_initial
  | define _ hd hs ih => exact ih.define hd hs
  | defineIndex _ hs ih => exact ih.defineIndex hs
  | setStatus _ hs ih => exact ih.setStatus hs

/-! ## Indexes are entered with their base -/

/-- Every index is entered with a type that is no index itself. -/
def Enters (schema : Schema) : Prop :=
  ∀ x ∈ schema.types, ∀ id, x.indexOf = some id →
    ∃ t ∈ schema.types, t.id = id ∧ t.indexOf = none ∧ x.id ∈ t.indexes

/-- A type may change its status and get indexes, if it keeps those that are entered with it. -/
theorem Enters.of_replace (hs : schema.Sound) (ht : t ∈ schema.types) (status : Status) {is : List TypeId}
    (hkeep : ∀ i ∈ t.indexes, i ∈ is)
    (h : ∀ x ∈ schema.types, ∀ id, x.indexOf = some id →
      (∃ base ∈ schema.types, base.id = id ∧ base.indexOf = none ∧ x.id ∈ base.indexes) ∨
        t.id = id ∧ t.indexOf = none ∧ x.id ∈ is) :
    (schema.replace { t with status := status, indexes := is }).Enters := by
  have hmem {x : RelationType} (hx : x ∈ schema.types) :
      (if x.id = t.id then { t with status := status, indexes := is } else x) ∈
        (schema.replace { t with status := status, indexes := is }).types :=
    List.mem_map.mpr ⟨x, hx, rfl⟩
  intro y hy id hid
  obtain ⟨x, hx, rfl⟩ := List.mem_map.mp hy
  have hsame : (if x.id = t.id then { t with status := status, indexes := is } else x).id = x.id ∧
      x.indexOf = some id := by
    split at hid <;> rename_i he
    · obtain rfl := hs.eq_of_id hx ht he
      exact ⟨by rw [if_pos rfl], hid⟩
    · exact ⟨by rw [if_neg he], hid⟩
  dsimp only
  rw [hsame.1]
  obtain ⟨base, hbase, rfl, hplain, hentered⟩ | ⟨rfl, hplain, hentered⟩ := h x hx id hsame.2
  · refine ⟨_, hmem hbase, ?_⟩
    split <;> rename_i he
    · obtain rfl := hs.eq_of_id hbase ht he
      exact ⟨rfl, hplain, hkeep _ hentered⟩
    · exact ⟨rfl, hplain, hentered⟩
  · refine ⟨_, hmem ht, ?_⟩
    rw [if_pos rfl]
    exact ⟨rfl, hplain, hentered⟩

/-- In a built schema every index is entered with its base. -/
theorem Built.enters (h : schema.Built) : schema.Enters := by
  induction h with
  | initial =>
    intro x hx id hid
    obtain ⟨k, -, rfl⟩ := List.mem_map.mp hx
    cases hid
  | @define s s' d t hb hd hs ih =>
    simp only [Schema.define, Outcome.guard_eq_ok, Outcome.bind_eq_ok] at hs
    obtain ⟨-, -, keys, -, ⟨id, rest⟩, ha, hs⟩ := hs
    obtain ⟨rfl, rfl⟩ := Prod.mk.inj (Except.ok.inj hs)
    intro x hx index hindex
    obtain hx | hx := List.mem_append.mp hx
    · rw [(hb.sound.allocate ha).2.1] at hx
      obtain ⟨base, hbase, hrest⟩ := ih x hx index hindex
      exact ⟨base, List.mem_append_left _ ((hb.sound.allocate ha).2.1 ▸ hbase), hrest⟩
    · rw [List.mem_singleton.mp hx] at hindex
      cases hindex
  | @defineIndex s s' d t hb hs ih =>
    obtain ⟨base, hbase, rest, hplain, hover, htypes, hsound, rfl⟩ := hb.sound.defineIndex_eq_ok hs
    refine .of_replace hsound (List.mem_append_left _ (htypes ▸ hbase)) base.status
      (fun i hi => List.mem_append_left _ hi) fun x hx id hid => ?_
    obtain hx | hx := List.mem_append.mp hx
    · obtain ⟨u, hu, hrest⟩ := ih x (htypes ▸ hx) id hid
      exact .inl ⟨u, List.mem_append_left _ (htypes ▸ hu), hrest⟩
    · obtain rfl := List.mem_singleton.mp hx
      rw [hover.indexOf] at hid
      exact .inr ⟨Option.some.inj hid, hplain, List.mem_append_right _ List.mem_cons_self⟩
  | @setStatus s s' name status hb hs ih =>
    unfold Schema.setStatus at hs
    split at hs
    · cases hs
    · rename_i t ht
      obtain rfl := Except.ok.inj hs
      exact .of_replace hb.sound (mem_of_named ht) status (fun _ hi => hi) fun x hx id hid =>
        .inl (ih x hx id hid)

/-- All that is entered with a type is found among its indexes. -/
theorem Sound.indexesOver_ok (h : schema.Sound) (ht : t ∈ schema.types) :
    ∃ xs, schema.indexesOver t = .ok xs ∧ ∀ x ∈ schema.types, x.id ∈ t.indexes → x ∈ xs := by
  have hfound : ∀ i ∈ t.indexes, ∃ x, schema.type? i = some x := by
    intro i hi
    obtain ⟨x, hx, rfl, -⟩ := (h.types t ht).indexes i hi
    exact ⟨x, h.type?_eq hx⟩
  exact ⟨_, indexesOver_eq_ok hfound, fun x hx hi => List.mem_filterMap.mpr ⟨x.id, hi, h.type?_eq hx⟩⟩

/-! ## Steps -/

/-- The definitions in a step declare what they must. -/
def Step.Declares : Step → Prop
  | .define d => d.Declares
  | .defineMany _ d => d.Declares
  | _ => True

instance : (s : Step) → Decidable s.Declares
  | .define d | .defineMany _ d => inferInstanceAs (Decidable d.Declares)
  | .index _ | .status .. | .get _ | .getById _ => .isTrue trivial

theorem Built.defineNumbered {d : TypeDefinition} (hd : d.Declares) {remaining number : Nat}
    (h : schema.Built) : ((defineNumbered d remaining number).exec schema).2.Built := by
  induction remaining generalizing number schema with
  | zero => exact h
  | succ remaining ih =>
    unfold Schema.defineNumbered
    rw [Act.exec_of]
    split
    · exact h
    · rename_i t next hdef
      have hd' : TypeDefinition.Declares { d with name := d.name ++ toString number } := hd
      have hnext : next.Built := .define h hd' hdef
      split
      · exact hnext
      · exact ih hnext

theorem Built.afterStep (h : schema.Built) {s : Step} (hd : s.Declares) :
    ((step s).exec schema).2.Built := by
  have hkeep {made : Schema → Outcome (RelationType × Schema)}
      (hm : ∀ t next, made schema = .ok (t, next) → next.Built) :
      ((keep made).exec schema).2.Built := by
    unfold keep
    rw [Act.exec_of]
    split
    · exact h
    · rename_i t next hmade
      exact hm t next hmade
  cases s with
  | define d => exact hkeep fun t next hmade => .define h hd hmade
  | defineMany howMany d => exact h.defineNumbered hd
  | index d => exact hkeep fun t next hmade => .defineIndex h hmade
  | status name status =>
    unfold step
    rw [Act.exec_of]
    split
    · exact h
    · rename_i next hset
      exact .setStatus h hset
  | get name => exact h
  | getById id => exact h

/-- What a list of steps builds is built. -/
theorem Built.of_steps {steps : List Step} (hd : ∀ s ∈ steps, s.Declares)
    (h : ofSteps steps = .ok schema) : schema.Built := by
  have hrun (start : Schema) (hb : start.Built) :
      ((steps.forM fun s => do let _ ← step s).exec start).2.Built := by
    clear h
    induction steps generalizing start with
    | nil => exact hb
    | cons s steps ih =>
      obtain ⟨hs, hrest⟩ := List.forall_mem_cons.mp hd
      have hafter := hb.afterStep hs
      show (((step s >>= fun _ => pure PUnit.unit) >>= fun _ =>
        steps.forM fun s => do let _ ← step s).exec start).2.Built
      rw [bind_assoc, Act.exec_bind]
      split
      · rename_i found next he
        rw [he] at hafter
        exact ih hrest next hafter
      · rename_i e next he
        rw [he] at hafter
        exact hafter
  have hb := hrun .initial .initial
  unfold ofSteps at h
  split at h
  · rename_i next he
    obtain rfl := Except.ok.inj h
    rw [he] at hb
    exact hb
  · cases h

/-- The schema that steps define, if they do not fail, is built. -/
theorem built_getD {steps : List Step} (hd : ∀ s ∈ steps, s.Declares)
    (h : (ofSteps steps).toOption.isSome) : ((ofSteps steps).toOption.getD .initial).Built :=
  .of_steps hd (Outcome.eq_ok_getD h _)

end Schema

end RowGraph
