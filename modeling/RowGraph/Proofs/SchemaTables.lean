import RowGraph.Proofs.BuiltSchema
import RowGraph.Proofs.Lookup
import RowGraph.Schema.Tables

/-!
# The two tables of a schema

Both tables hold the same types as long as a type is entered in both under its name and number, and makes
way for nothing but the type with this name and number (`Keyed.insert`).  Such tables stand for a list of
types: a type that is new comes last in the list, and one that is entered anew takes the place of the one
before (`Represents.insert_new`, `Represents.insert_anew`).

Carried out action by action in the tables, a call fails where it fails on the list, and all of its checks
come before the first change (`Represents.define`, `Represents.defineIndex`, `Represents.setStatus`).
-/

namespace RowGraph.Schema

namespace Tables

variable {T : Tables} {S : Schema} {t u : RelationType}

/-! ## Entering a type -/

/-- The type is the one that is found under its number. -/
def Has (T : Tables) (t : RelationType) : Prop := T.byId.get? t.id = some t

theorem Has.eq_of_id (ht : T.Has t) (hu : T.Has u) (h : t.id = u.id) : t = u := by
  unfold Has at ht hu
  rw [h, hu] at ht
  exact (Option.some.inj ht).symm

theorem has_insert : (T.insert t).Has u ↔ u = t ∨ T.Has u ∧ u.id ≠ t.id := by
  unfold Has insert
  rw [SortedMap.get?_put]
  by_cases h : u.id = t.id
  · simp only [h, if_true, Option.some.injEq, ne_eq, not_true, and_false, or_false]
    exact eq_comm
  · have hne : u ≠ t := fun he => h (congrArg RelationType.id he)
    simp [h, hne]

/-- What is found under a name has this name and is found under its number, and the other way round. -/
structure Keyed (T : Tables) : Prop where
  named : ∀ name t, T.byName.get? name = some t → t.name = name ∧ T.Has t
  numbered : ∀ id t, T.byId.get? id = some t → t.id = id ∧ T.byName.get? t.name = some t

/-- A type may be entered if nothing but a type with its name and number makes way for it. -/
theorem Keyed.insert (h : T.Keyed) (hname : ∀ u, T.byName.get? t.name = some u → u.id = t.id)
    (hid : ∀ u, T.byId.get? t.id = some u → u.name = t.name) : (T.insert t).Keyed where
  named := by
    intro name u hu
    unfold Tables.insert at hu
    dsimp only at hu
    rw [SortedMap.get?_put] at hu
    split at hu
    · rename_i he
      obtain rfl := Option.some.inj hu
      exact ⟨he.symm, has_insert.mpr (.inl rfl)⟩
    · rename_i hne
      obtain ⟨rfl, hhas⟩ := h.named name u hu
      refine ⟨rfl, has_insert.mpr (.inr ⟨hhas, fun he => ?_⟩)⟩
      unfold Has at hhas
      rw [he] at hhas
      exact hne (hid u hhas)
  numbered := by
    intro id u hu
    unfold Tables.insert at hu ⊢
    dsimp only at hu ⊢
    rw [SortedMap.get?_put] at hu ⊢
    split at hu
    · rename_i he
      obtain rfl := Option.some.inj hu
      exact ⟨he.symm, if_pos rfl⟩
    · rename_i hne
      obtain ⟨rfl, hbound⟩ := h.numbered id u hu
      refine ⟨rfl, ?_⟩
      rw [if_neg fun he : u.name = t.name => hne (hname u (he ▸ hbound))]
      exact hbound

theorem Keyed.has_of_named (h : T.Keyed) {name : String} (ht : T.byName.get? name = some t) : T.Has t :=
  (h.named name t ht).2

theorem Keyed.has_of_numbered (h : T.Keyed) {id : TypeId} (ht : T.byId.get? id = some t) : T.Has t := by
  unfold Has
  rw [(h.numbered id t ht).1]
  exact ht

theorem Keyed.named_of_has (h : T.Keyed) (ht : T.Has t) : T.byName.get? t.name = some t :=
  (h.numbered t.id t ht).2

/-- A type whose name and number are new may be entered. -/
theorem Keyed.insert_new (h : T.Keyed) (hname : T.byName.get? t.name = none)
    (hid : T.byId.get? t.id = none) : (T.insert t).Keyed := by
  refine h.insert (fun u hu => ?_) fun u hu => ?_
  · rw [hname] at hu
    cases hu
  · rw [hid] at hu
    cases hu

/-- A type may be entered anew. -/
theorem Keyed.insert_anew (h : T.Keyed) (ht : T.Has t) (hid : u.id = t.id) (hname : u.name = t.name) :
    (T.insert u).Keyed := by
  refine h.insert (fun w hw => ?_) fun w hw => ?_
  · rw [hname, h.named_of_has ht] at hw
    rw [← Option.some.inj hw, hid]
  · rw [hid] at hw
    rw [← Option.some.inj (ht.symm.trans hw), hname]

/-! ## The list that the tables stand for -/

theorem find?_map_of_same {α : Type} {f : α → α} {p : α → Bool} {l : List α}
    (h : ∀ x ∈ l, p (f x) = p x) : (l.map f).find? p = (l.find? p).map f := by
  induction l with
  | nil => rfl
  | cons x l ih =>
    obtain ⟨hx, hl⟩ := List.forall_mem_cons.mp h
    rw [List.map_cons, List.find?_cons, List.find?_cons, hx]
    cases p x with
    | true => rfl
    | false => exact ih hl

/-- Looking up in the tables is looking up in the list of the types. -/
structure Represents (T : Tables) (S : Schema) : Prop where
  byName : ∀ name, T.byName.get? name = S.named? name
  byId : ∀ id, T.byId.get? id = S.type? id
  nextUser : T.nextUser = S.nextUser
  nextSystem : T.nextSystem = S.nextSystem
  ids : S.types.Pairwise fun t u => t.id ≠ u.id

/-- The tables with the counters of a schema. -/
def recount (T : Tables) (S : Schema) : Tables :=
  { T with nextUser := S.nextUser, nextSystem := S.nextSystem }

/-- What is checked before an index is defined. -/
structure Indexable (T : Tables) (d : IndexDefinition) (base : RelationType) : Prop where
  named : T.byName.get? d.base = some base
  declared : base.implicit = false
  plain : base.isIndex = false
  fresh : T.byName.get? d.name = none
  stores : base.storesDirection d.direction = true
  storedOut : base.isPropertyKey = true → d.direction = .out

namespace Represents

theorem recount (h : T.Represents S) {rest : Schema} (ht : rest.types = S.types) :
    (T.recount rest).Represents rest where
  byName name := by
    rw [named?, ht]
    exact h.byName name
  byId id := by
    rw [type?, ht]
    exact h.byId id
  nextUser := rfl
  nextSystem := rfl
  ids := ht ▸ h.ids

/-- A new type comes last in the list. -/
theorem insert_new (h : T.Represents S) (hname : T.byName.get? t.name = none)
    (hid : T.byId.get? t.id = none) : (T.insert t).Represents (S.append t) where
  byName name := by
    rw [insert, SortedMap.get?_put, named?, append, List.find?_append]
    split
    · rename_i he
      rw [he, show S.types.find? (fun u => u.name == t.name) = none from (h.byName t.name).symm.trans hname]
      simp
    · rename_i hne
      rw [List.find?_cons_of_neg (by simpa using Ne.symm hne), List.find?_nil, Option.or_none]
      exact h.byName name
  byId id := by
    rw [insert, SortedMap.get?_put, type?, append, List.find?_append]
    split
    · rename_i he
      rw [he, show S.types.find? (fun u => u.id == t.id) = none from (h.byId t.id).symm.trans hid]
      simp
    · rename_i hne
      rw [List.find?_cons_of_neg (by simpa using Ne.symm hne), List.find?_nil, Option.or_none]
      exact h.byId id
  nextUser := h.nextUser
  nextSystem := h.nextSystem
  ids := by
    refine List.pairwise_append.mpr ⟨h.ids, List.pairwise_singleton _ _, fun u hu w hw he => ?_⟩
    obtain rfl := List.mem_singleton.mp hw
    have hnone : S.types.find? (fun u => u.id == w.id) = none := (h.byId w.id).symm.trans hid
    exact absurd he (by simpa using List.find?_eq_none.mp hnone u hu)

/-- A type that is entered anew takes the place of the one before in the list. -/
theorem insert_anew (h : T.Represents S) (hk : T.Keyed) (ht : T.Has t) (hid : u.id = t.id)
    (hname : u.name = t.name) : (T.insert u).Represents (S.replace u) := by
  have hsame : ∀ w ∈ S.types, w.id = u.id → w = t := fun w hw he => by
    have hfound := find_of_pairwise h.ids hw
    rw [he, hid] at hfound
    exact Option.some.inj (hfound.symm.trans ((h.byId t.id).symm.trans ht))
  have hother (w : RelationType) (hw : T.Has w) (hne : w ≠ t) : w.id ≠ u.id := fun he =>
    hne (hw.eq_of_id ht (he.trans hid))
  refine ⟨fun name => ?_, fun id => ?_, h.nextUser, h.nextSystem, ?_⟩
  · rw [insert, SortedMap.get?_put, named?, replace, find?_map_of_same fun w hw => ?_]
    · rw [show S.types.find? (fun w => w.name == name) = T.byName.get? name from (h.byName name).symm]
      split
      · rename_i he
        rw [he, hname, hk.named_of_has ht, Option.map_some, if_pos hid.symm]
      · rename_i hne
        cases hw : T.byName.get? name with
        | none => rfl
        | some w =>
          obtain ⟨rfl, hhas⟩ := hk.named name w hw
          rw [Option.map_some, if_neg (hother w hhas fun he => hne (by rw [he, hname]))]
    · split
      · rename_i he
        rw [hsame w hw he, hname]
      · rfl
  · rw [insert, SortedMap.get?_put, type?, replace, find?_map_of_same fun w hw => ?_]
    · rw [show S.types.find? (fun w => w.id == id) = T.byId.get? id from (h.byId id).symm]
      split
      · rename_i he
        rw [he, hid, show T.byId.get? t.id = some t from ht, Option.map_some, if_pos rfl]
      · rename_i hne
        cases hw : T.byId.get? id with
        | none => rfl
        | some w =>
          rw [Option.map_some, if_neg fun he => hne ((hk.numbered id w hw).1.symm.trans he)]
    · split
      · rename_i he
        rw [he]
      · rfl
  · refine List.pairwise_map.mpr (h.ids.imp fun {w x} hne => ?_)
    split <;> split <;> simp_all

/-! ## Calls on both sides -/

theorem sortKeyTypes (h : T.Represents S) (names : List String) :
    (Tables.sortKeyTypes names).exec T = (S.sortKeyTypes names, T) := by
  have hsame : T.sortKeyType = S.sortKeyType := by
    funext name
    unfold Tables.sortKeyType Schema.sortKeyType
    rw [h.byName]
    cases S.named? name with
    | none => rfl
    | some t =>
      dsimp only
      cases t.isPropertyKey <;> cases t.implicit <;> rfl
  show (names.mapM T.sortKeyType, T) = _
  rw [hsame]
  rfl

/-- A number is given out on both sides, or on none and for the same reason. -/
theorem allocate (h : T.Represents S) (system : Bool) :
    (∃ e, S.allocate system = .error e ∧ (Tables.allocate system).exec T = (.error e, T)) ∨
      ∃ id rest, S.allocate system = .ok (id, rest) ∧ rest.types = S.types ∧
        (Tables.allocate system).exec T = (.ok id, T.recount rest) := by
  have hs := h.nextSystem
  have hu := h.nextUser
  unfold Tables.allocate Schema.allocate
  rw [Act.exec_bind_ok (Act.exec_asks ..)]
  dsimp only
  rw [Act.exec_guard, Act.exec_guard]
  cases system with
  | true =>
    simp only [next, if_true, true_and, hs]
    split
    · exact .inl ⟨_, rfl, rfl⟩
    · rename_i hbound
      have hfits : ¬ Word.bound32 ≤ S.nextSystem + 1 := by
        unfold TypeId.systemBound at hbound
        unfold Word.bound32
        omega
      rw [if_neg hfits]
      refine .inr ⟨_, _, rfl, rfl, ?_⟩
      rw [Act.exec_bind_ok (Act.exec_update ..)]
      simp [withNext, Tables.recount, hu]
  | false =>
    simp only [next, Bool.false_eq_true, if_false, false_and, hu]
    split
    · exact .inl ⟨_, rfl, rfl⟩
    · refine .inr ⟨_, _, rfl, rfl, ?_⟩
      rw [Act.exec_bind_ok (Act.exec_update ..)]
      simp [withNext, Tables.recount, hs]

/-- A sort key is looked up and then a number given out, on both sides, or one of the two fails on both. -/
theorem numbered (h : T.Represents S) {α β : Type} (names : List String) (system : Bool)
    (f : List TypeId → TypeId × Schema → Outcome α) (g : List TypeId → TypeId → Act Tables β) :
    (∃ e, (S.sortKeyTypes names >>= fun keys => S.allocate system >>= f keys) = .error e ∧
      (Tables.sortKeyTypes names >>= fun keys => Tables.allocate system >>= g keys).exec T =
        (.error e, T)) ∨
      ∃ keys id rest, S.sortKeyTypes names = .ok keys ∧ S.allocate system = .ok (id, rest) ∧
        (S.sortKeyTypes names >>= fun keys => S.allocate system >>= f keys) = f keys (id, rest) ∧
        (Tables.sortKeyTypes names >>= fun keys => Tables.allocate system >>= g keys).exec T =
          (g keys id).exec (T.recount rest) := by
  have hkeys := h.sortKeyTypes names
  cases hk : S.sortKeyTypes names with
  | error e =>
    rw [hk] at hkeys
    exact .inl ⟨e, rfl, Act.exec_bind_error hkeys _⟩
  | ok keys =>
    rw [hk] at hkeys
    rw [Act.exec_bind_ok hkeys]
    obtain ⟨e, hS, hT⟩ | ⟨id, rest, hS, -, hT⟩ := h.allocate system
    · refine .inl ⟨e, ?_, Act.exec_bind_error hT _⟩
      rw [hS]
      rfl
    · refine .inr ⟨keys, id, rest, rfl, hS, ?_, Act.exec_bind_ok hT _⟩
      rw [hS]
      rfl

theorem define (h : T.Represents S) (d : TypeDefinition) :
    (∃ e, S.define d = .error e ∧ (Tables.define d).exec T = (.error e, T)) ∨
      ∃ keys id rest, T.byName.get? d.name = none ∧ (d.kind = .propertyKey → d.directionality = .out) ∧
        S.sortKeyTypes d.sortKey = .ok keys ∧ S.allocate d.system = .ok (id, rest) ∧
        S.define d = .ok (d.toType id keys, rest.append (d.toType id keys)) ∧
        (Tables.define d).exec T = (.ok (d.toType id keys), (T.recount rest).insert (d.toType id keys)) := by
  have hcontains : T.byName.contains d.name = (S.named? d.name).isSome := by
    rw [SortedMap.contains, h.byName]
  unfold Tables.define Schema.define
  rw [Act.exec_bind_ok (Act.exec_asks ..)]
  dsimp only [id]
  simp only [Act.exec_guard, Outcome.guard_eq, hcontains]
  split
  · exact .inl ⟨_, rfl, rfl⟩
  split
  · exact .inl ⟨_, rfl, rfl⟩
  rename_i hname hout
  refine (h.numbered d.sortKey d.system _ _).imp id ?_
  rintro ⟨keys, id, rest, hkeys, hid, hS, hT⟩
  refine ⟨keys, id, rest, ?_, fun hkind => ?_, hkeys, hid, hS, hT⟩
  · rw [h.byName]
    exact Option.not_isSome_iff_eq_none.mp hname
  · exact Decidable.byContradiction fun hne => hout ⟨hkind, hne⟩

theorem defineIndex (h : T.Represents S) (d : IndexDefinition) :
    (∃ e, S.defineIndex d = .error e ∧ (Tables.defineIndex d).exec T = (.error e, T)) ∨
      ∃ base keys id rest, T.Indexable d base ∧ S.sortKeyTypes d.sortKey = .ok keys ∧
        S.allocate base.isSystem = .ok (id, rest) ∧
        S.defineIndex d = .ok (d.toType base id keys,
          (rest.append (d.toType base id keys)).replace { base with indexes := base.indexes ++ [id] }) ∧
        (Tables.defineIndex d).exec T = (.ok (d.toType base id keys),
          ((T.recount rest).insert (d.toType base id keys)).insert
            { base with indexes := base.indexes ++ [id] }) := by
  have hcontains : T.byName.contains d.name = (S.named? d.name).isSome := by
    rw [SortedMap.contains, h.byName]
  unfold Tables.defineIndex Schema.defineIndex
  rw [Act.exec_bind_ok (Act.exec_asks ..)]
  dsimp only [id]
  rw [h.byName]
  cases hb : S.named? d.base with
  | none => exact .inl ⟨_, rfl, rfl⟩
  | some base =>
    simp only [Act.exec_guard, Outcome.guard_eq, hcontains]
    split
    · exact .inl ⟨_, rfl, rfl⟩
    split
    · exact .inl ⟨_, rfl, rfl⟩
    split
    · exact .inl ⟨_, rfl, rfl⟩
    rename_i hplain hname hdir
    simp only [Bool.or_eq_true, not_or, Bool.not_eq_true, Bool.not_eq_true', Bool.not_eq_false,
      Bool.and_eq_true, bne_iff_ne, ne_eq, not_and, not_not] at hplain hdir
    have hchecked : T.Indexable d base := ⟨(h.byName d.base).trans hb, hplain.1, hplain.2,
      (h.byName d.name).trans (Option.not_isSome_iff_eq_none.mp hname), hdir.1, hdir.2⟩
    refine (h.numbered d.sortKey base.isSystem _ _).imp id ?_
    rintro ⟨keys, id, rest, hkeys, hid, hS, hT⟩
    exact ⟨base, keys, id, rest, hchecked, hkeys, hid, hS, hT⟩

theorem setStatus (h : T.Represents S) (name : String) (status : Status) :
    (∃ e, S.setStatus name status = .error e ∧ (Tables.setStatus name status).exec T = (.error e, T)) ∨
      ∃ t, T.byName.get? name = some t ∧
        S.setStatus name status = .ok (S.replace { t with status := status }) ∧
        (Tables.setStatus name status).exec T = (.ok (), T.insert { t with status := status }) := by
  unfold Tables.setStatus Schema.setStatus
  rw [Act.exec_bind_ok (Act.exec_asks ..)]
  dsimp only [id]
  rw [h.byName]
  cases S.named? name with
  | none => exact .inl ⟨_, rfl, rfl⟩
  | some t => exact .inr ⟨t, rfl, rfl, rfl⟩

end Represents

end Tables

end RowGraph.Schema
