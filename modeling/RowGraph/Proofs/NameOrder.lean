import RowGraph.Plan.Implicit
import RowGraph.Proofs.ConstraintOrder

/-!
# The order of type names

The names of a query are taken one by one, and each type narrows the category for those after it.  What comes
of it can be said without the order: the names compile if all of them may be combined, and are of one
category that the query asks for, and then every type is read as it is by itself (`readsOfTypes_eq_ok`).
So names in another order compile to the same reads in another order (`compile_withTypes`).

There is one exception.  Where relations of any category that come in are asked for, a property key is passed
over before it narrows the category, and whether an edge label may be named along with it depends on
which of them is first.
-/

namespace RowGraph

/-- The category of the relations of a type. -/
def RelationType.category (t : RelationType) : Category := if t.isPropertyKey then .property else .edge

/-- A list in another order is mapped to the same results in another order. -/
theorem Outcome.mapM_perm {α β : Type} {f : α → Outcome β} {xs xs' : List α} {ys : List β}
    (hp : xs.Perm xs') (h : xs.mapM f = .ok ys) : ∃ ys', xs'.mapM f = .ok ys' ∧ ys.Perm ys' := by
  obtain ⟨ys', hys'⟩ := exists_mapM fun x hx => ok_of_mapM h (hp.mem_iff.mpr hx)
  refine ⟨ys', hys', ?_⟩
  rw [eq_filterMap_of_mapM h, eq_filterMap_of_mapM hys']
  exact hp.filterMap _

/-- The reads of one compiled query are those of the other in another order, and both keep the same
relations. -/
structure CompiledQuery.Rearranged (a b : CompiledQuery) : Prop where
  reads : a.reads.Perm b.reads
  condition : ∀ r v, a.condition.evaluate r v = b.condition.evaluate r v
  direction : a.direction = b.direction
  order : a.order = b.order
  limit : a.limit = b.limit

theorem CompiledQuery.Rearranged.refl (a : CompiledQuery) : a.Rearranged a :=
  ⟨List.Perm.refl _, fun _ _ => rfl, rfl, rfl, rfl⟩

namespace Query

variable {s : Setting} {q : Query} {keys : KeyIntervals} {t : RelationType} {types types' : List RelationType}
  {d : Direction} {category : Category} {names : List String} {ids : List TypeId}
  {reads : List PlannedRead}

/-! ## One name -/

/-- May the type be named along with others? -/
def combines (q : Query) (t : RelationType) : Bool := !(q.system && !t.isSystem) && !t.implicit

/-- The end at which a named type is read, if it is read at all. -/
def namedEnd? (t : RelationType) (d : Direction) : Option Direction :=
  if t.isPropertyKey then if d = .into then none else endOf? t .out else endOf? t d

/-- What a type makes of the category: its own, but for a property key that is passed over. -/
def narrowed (t : RelationType) (d : Direction) (category : Category) : Category :=
  if t.isPropertyKey ∧ d = .into then category else t.category

theorem admitted_eq_ok {category' : Category} {end? : Option Direction} :
    q.admitted t d category = .ok (category', end?) ↔
      q.combines t = true ∧ (category = .relation ∨ category = t.category) ∧
        category' = narrowed t d category ∧ end? = namedEnd? t d := by
  unfold admitted combines narrowed namedEnd? RelationType.category
  cases q.system && !t.isSystem <;> cases t.implicit <;> cases t.isPropertyKey <;> cases category <;>
    by_cases hd : d = .into <;> simp [hd, eq_comm]

/-- The type and the reads that a named type adds. -/
def readsOfNamed (s : Setting) (q : Query) (keys : KeyIntervals) (d : Direction) (t : RelationType) :
    Outcome (List TypeId × List PlannedRead) :=
  match namedEnd? t d with
  | none => .ok ([], [])
  | some e => do return ([t.id], ← readsOfType s q keys t e)

theorem readsOfTypes_named_eq_ok {name : String} (ht : s.schema.named? name = some t) :
    readsOfTypes s q keys d category (name :: names) = .ok (ids, reads) ↔
      (q.combines t = true ∧ (category = .relation ∨ category = t.category)) ∧
        ∃ part ids' more, readsOfNamed s q keys d t = .ok part ∧
          readsOfTypes s q keys d (narrowed t d category) names = .ok (ids', more) ∧
          ids = part.1 ++ ids' ∧ reads = part.2 ++ more := by
  rw [readsOfTypes_cons_eq_ok, ht]
  unfold readsOfNamed
  constructor
  · rintro (⟨hno, -⟩ | ⟨u, category', hu, ⟨hadm, h⟩ | ⟨e, part, ids', more, hadm, hpart, hmore, rfl, rfl⟩⟩)
    · cases hno
    all_goals
      obtain rfl := Option.some.inj hu
      obtain ⟨hcomb, hcat, rfl, hend⟩ := admitted_eq_ok.mp hadm
      refine ⟨⟨hcomb, hcat⟩, ?_⟩
      rw [← hend]
    · exact ⟨([], []), ids, reads, rfl, h, rfl, rfl⟩
    · exact ⟨([t.id], part), ids', more, Outcome.bind_eq_ok.mpr ⟨part, hpart, rfl⟩, hmore, rfl, rfl⟩
  · rintro ⟨⟨hcomb, hcat⟩, part, ids', more, hpart, hmore, rfl, rfl⟩
    refine .inr ⟨t, narrowed t d category, rfl, ?_⟩
    have hadm := (admitted_eq_ok (d := d)).mpr ⟨hcomb, hcat, rfl, rfl⟩
    cases he : namedEnd? t d with
    | none =>
      rw [he] at hadm hpart
      obtain rfl := Except.ok.inj hpart
      exact .inl ⟨hadm, hmore⟩
    | some e =>
      rw [he] at hadm hpart
      obtain ⟨found, hfound, hpart⟩ := Outcome.bind_eq_ok.mp hpart
      obtain rfl := Except.ok.inj hpart
      exact .inr ⟨e, found, ids', more, hadm, hfound, hmore, rfl, rfl⟩

/-! ## All names -/

/-- The types may be combined, and are of one category that is asked for. -/
structure Together (q : Query) (category : Category) (types : List RelationType) : Prop where
  combines : ∀ t ∈ types, q.combines t = true
  wanted : ∀ t ∈ types, category = .relation ∨ category = t.category
  alike : ∀ t ∈ types, ∀ t' ∈ types, t.category = t'.category

/-- Of the types that may be combined there is a property key and an edge label. -/
def Mixes (q : Query) (types : List RelationType) : Prop :=
  (∃ t ∈ types, q.combines t = true ∧ t.category = .property) ∧
    ∃ t ∈ types, q.combines t = true ∧ t.category = .edge

theorem Together.perm (h : q.Together category types) (hp : types.Perm types') :
    q.Together category types' where
  combines t ht := h.combines t (hp.mem_iff.mpr ht)
  wanted t ht := h.wanted t (hp.mem_iff.mpr ht)
  alike t ht t' ht' := h.alike t (hp.mem_iff.mpr ht) t' (hp.mem_iff.mpr ht')

theorem Mixes.mono (h : q.Mixes types) (hsub : types ⊆ types') : q.Mixes types' := by
  obtain ⟨⟨t, ht, hkey⟩, t', ht', hlabel⟩ := h
  exact ⟨⟨t, hsub ht, hkey⟩, t', hsub ht', hlabel⟩

theorem category_ne_relation (t : RelationType) : t.category ≠ .relation := by
  unfold RelationType.category
  split <;> simp

theorem category_eq_property_iff : t.category = .property ↔ t.isPropertyKey = true := by
  unfold RelationType.category
  split <;> simp_all

theorem category_eq_of_ne_edge (h : t.category ≠ .edge) : t.category = .property := by
  rw [category_eq_property_iff]
  unfold RelationType.category at h
  split at h
  · assumption
  · exact absurd rfl h

/-- A type that is still wanted once another one has narrowed the category is of the category of that one,
unless that one is a property key that was passed over. -/
theorem category_of_narrowed {u : RelationType} (ht : category = .relation ∨ category = t.category)
    (hu : narrowed t d category = .relation ∨ narrowed t d category = u.category)
    (hpassed : category = .relation → d = .into → t.category = .property → u.category ≠ .edge) :
    t.category = u.category := by
  unfold narrowed at hu
  split at hu
  · rename_i hpass
    rcases ht with hrel | ht
    · have hkey : t.category = .property := category_eq_property_iff.mpr hpass.1
      exact hkey.trans (category_eq_of_ne_edge (hpassed hrel hpass.2 hkey)).symm
    · rcases hu with hrel | hu
      · exact absurd (ht.symm.trans hrel) (category_ne_relation t)
      · exact ht.symm.trans hu
  · exact hu.resolve_left (category_ne_relation t)

/-- The types are together if the first may be named, and the others are together once it has narrowed the
category. -/
theorem together_cons (hmix : category = .relation → d = .into → ¬ q.Mixes (t :: types)) :
    q.Together category (t :: types) ↔
      (q.combines t = true ∧ (category = .relation ∨ category = t.category)) ∧
        q.Together (narrowed t d category) types := by
  constructor
  · intro h
    refine ⟨⟨h.combines t List.mem_cons_self, h.wanted t List.mem_cons_self⟩,
      fun u hu => h.combines u (List.mem_cons_of_mem _ hu), fun u hu => ?_,
      fun u hu u' hu' => h.alike u (List.mem_cons_of_mem _ hu) u' (List.mem_cons_of_mem _ hu')⟩
    unfold narrowed
    split
    · exact h.wanted u (List.mem_cons_of_mem _ hu)
    · exact .inr (h.alike t List.mem_cons_self u (List.mem_cons_of_mem _ hu))
  · rintro ⟨⟨hcomb, hcat⟩, h⟩
    have hsame : ∀ u ∈ types, t.category = u.category := fun u hu =>
      category_of_narrowed hcat (h.wanted u hu) fun hrel hd hkey hlabel => hmix hrel hd
        ⟨⟨t, List.mem_cons_self, hcomb, hkey⟩, u, List.mem_cons_of_mem _ hu, h.combines u hu, hlabel⟩
    refine ⟨List.forall_mem_cons.mpr ⟨hcomb, h.combines⟩, List.forall_mem_cons.mpr ⟨hcat, fun u hu => ?_⟩,
      List.forall_mem_cons.mpr ⟨List.forall_mem_cons.mpr ⟨rfl, hsame⟩, fun u hu => ?_⟩⟩
    · rw [← hsame u hu]
      exact hcat
    · exact List.forall_mem_cons.mpr ⟨(hsame u hu).symm, h.alike u hu⟩

/-- Names compile if their types are together, to what every type adds by itself. -/
theorem readsOfTypes_eq_ok
    (hmix : category = .relation → d = .into → ¬ q.Mixes (names.filterMap s.schema.named?)) :
    readsOfTypes s q keys d category names = .ok (ids, reads) ↔
      q.Together category (names.filterMap s.schema.named?) ∧
        ∃ parts, (names.filterMap s.schema.named?).mapM (readsOfNamed s q keys d) = .ok parts ∧
          ids = parts.flatMap Prod.fst ∧ reads = parts.flatMap Prod.snd := by
  induction names generalizing category ids reads with
  | nil =>
    have htogether : q.Together category [] := ⟨by simp, by simp, by simp⟩
    constructor
    · intro h
      obtain ⟨rfl, rfl⟩ := Prod.mk.inj (Except.ok.inj h)
      exact ⟨htogether, [], rfl, rfl, rfl⟩
    · rintro ⟨-, parts, hparts, rfl, rfl⟩
      obtain rfl := Outcome.mapM_nil_eq_ok.mp hparts
      rfl
  | cons name names ih =>
    rw [List.filterMap_cons] at hmix ⊢
    cases ht : s.schema.named? name with
    | none =>
      rw [ht] at hmix
      rw [readsOfTypes, ht]
      exact ih hmix
    | some t =>
      rw [ht] at hmix
      have hrest (hrel : narrowed t d category = .relation) (hd : d = .into) :
          ¬ q.Mixes (names.filterMap s.schema.named?) := by
        unfold narrowed at hrel
        split at hrel
        · exact fun hm => hmix hrel hd (hm.mono (List.subset_cons_self ..))
        · exact absurd hrel (category_ne_relation t)
      rw [readsOfTypes_named_eq_ok ht, together_cons hmix]
      constructor
      · rintro ⟨hhead, part, ids', more, hpart, hmore, rfl, rfl⟩
        obtain ⟨htail, parts, hparts, rfl, rfl⟩ := (ih hrest).mp hmore
        exact ⟨⟨hhead, htail⟩, part :: parts,
          Outcome.mapM_cons_eq_ok.mpr ⟨part, parts, hpart, hparts, rfl⟩, rfl, rfl⟩
      · rintro ⟨⟨hhead, htail⟩, parts, hparts, rfl, rfl⟩
        obtain ⟨part, others, hpart, hothers, rfl⟩ := Outcome.mapM_cons_eq_ok.mp hparts
        exact ⟨hhead, part, _, _, hpart, (ih hrest).mpr ⟨htail, others, hothers, rfl, rfl⟩, rfl, rfl⟩

/-- Names in another order compile to the same types and reads in another order. -/
theorem readsOfTypes_perm {names' : List String} (hp : names.Perm names')
    (hmix : category = .relation → d = .into → ¬ q.Mixes (names.filterMap s.schema.named?))
    (h : readsOfTypes s q keys d category names = .ok (ids, reads)) :
    ∃ ids' reads', readsOfTypes s q keys d category names' = .ok (ids', reads') ∧ ids.Perm ids' ∧
      reads.Perm reads' := by
  have hnamed := hp.filterMap s.schema.named?
  obtain ⟨htogether, parts, hparts, rfl, rfl⟩ := (readsOfTypes_eq_ok hmix).mp h
  obtain ⟨parts', hparts', hperm⟩ := Outcome.mapM_perm hnamed hparts
  refine ⟨_, _, (readsOfTypes_eq_ok fun hrel hd hm => hmix hrel hd (hm.mono hnamed.symm.subset)).mpr
    ⟨htogether.perm hnamed, parts', hparts', rfl, rfl⟩, hperm.flatMap_right _, hperm.flatMap_right _⟩

/-! ## The compiled query -/

variable {conditions : List Condition} {compiled : CompiledQuery}

/-- The query with other type names. -/
def withTypes (q : Query) (names : List String) : Query := { q with types := names }

@[simp] theorem types_withTypes (q : Query) (names : List String) : (q.withTypes names).types = names := rfl

@[simp] theorem adjacent_withTypes (q : Query) (names : List String) :
    (q.withTypes names).adjacent = q.adjacent := rfl

theorem readsOfTypes_withTypes (names names' : List String) :
    readsOfTypes s (q.withTypes names) keys d category names' = readsOfTypes s q keys d category names' := by
  induction names' generalizing category with
  | nil => rfl
  | cons name names' ih =>
    unfold readsOfTypes
    simp only [ih]
    rfl

/-- Reads in another order, of the same types in another order, are those of a rearranged query. -/
theorem rearranged_finish {ids' : List TypeId} {reads' : List PlannedRead} (hids : ids.Perm ids')
    (hreads : reads.Perm reads') :
    (q.finish d (conditions ++ [.relationType ids]) reads).Rearranged
      (q.finish d (conditions ++ [.relationType ids']) reads') := by
  refine ⟨hreads, fun r v => ?_, rfl, rfl, rfl⟩
  unfold finish
  rw [Condition.evaluate_unwrapped, Condition.evaluate_unwrapped, Condition.evaluate, Condition.evaluate,
    Bool.eq_iff_iff, Condition.holdsAll_iff, Condition.holdsAll_iff]
  have htype : (Condition.relationType ids).evaluate r v = (Condition.relationType ids').evaluate r v := by
    rw [Condition.evaluate, Condition.evaluate, hids.contains_eq]
  simp only [List.mem_append, List.mem_singleton, or_imp, forall_and, forall_eq, htype]

/-- Names in another order are planned in the same way. -/
theorem plan_withTypes (hp : q.types.Perm names)
    (hmix : category = .relation → d = .into → ¬ q.Mixes (q.types.filterMap s.schema.named?))
    (h : plan s q d category conditions = .ok compiled) :
    ∃ compiled', plan s (q.withTypes names) d category conditions = .ok compiled' ∧
      compiled.Rearranged compiled' := by
  unfold plan at h ⊢
  simp only [types_withTypes, adjacent_withTypes, readsOfTypes_withTypes, ← hp.isEmpty_eq]
  dsimp only at h
  split at h
  · rename_i htypes
    rw [if_pos htypes]
    exact ⟨compiled, h, .refl _⟩
  · rename_i htypes
    rw [if_neg htypes]
    split at h
    · rename_i hu
      rw [if_pos hu]
      exact ⟨compiled, h, .refl _⟩
    · rename_i hu
      obtain ⟨⟨ids, reads⟩, hreads, h⟩ := Outcome.bind_eq_ok.mp h
      obtain ⟨ids', reads', hreads', hids, hperm⟩ := readsOfTypes_perm hp hmix hreads
      rw [if_neg hu, hreads']
      cases reads with
      | nil =>
        obtain rfl := hperm.nil_eq
        exact ⟨compiled, h, .refl _⟩
      | cons read reads =>
        cases reads' with
        | nil => cases hperm.eq_nil
        | cons read' reads' =>
          obtain rfl := Except.ok.inj h
          exact ⟨_, rfl, rearranged_finish hids hperm⟩

/-- Names in another order compile too, to a query that is rearranged. -/
theorem compile_withTypes (hp : q.types.Perm names)
    (hmix : category = .relation → q.direction = .into → ¬ q.Mixes (q.types.filterMap s.schema.named?))
    (h : q.compile s category = .ok compiled) :
    ∃ compiled', (q.withTypes names).compile s category = .ok compiled' ∧ compiled.Rearranged compiled' := by
  have hwanted : (q.withTypes names).wantedEnd? category = q.wantedEnd? category := rfl
  cases herror : q.error with
  | some reason => simp [compile, herror, throw, throwThe, MonadExceptOf.throw, bind, Except.bind] at h
  | none =>
    have herror' : (q.withTypes names).error = none := herror
    unfold compile at h ⊢
    -- all that comes before the plan looks at the rest of the query
    simp only [herror, herror', hwanted, Outcome.guard_eq_ok] at h ⊢
    obtain ⟨hguard, h⟩ := h
    refine (exists_congr fun _ => and_congr_left' (and_iff_right hguard)).mpr ?_
    split at h
    · rename_i hlimit
      rw [if_pos (show (q.withTypes names).limit = 0 from hlimit)]
      exact ⟨compiled, h, .refl _⟩
    · rename_i hlimit
      rw [if_neg (show ¬ (q.withTypes names).limit = 0 from hlimit)]
      cases hd : q.wantedEnd? category with
      | none =>
        rw [hd] at h
        exact ⟨compiled, h, .refl _⟩
      | some d =>
        rw [hd] at h
        obtain ⟨found, hfound, h⟩ := Outcome.bind_eq_ok.mp h
        rw [show (q.withTypes names).constraints = q.constraints from rfl, hfound]
        cases found with
        | none => exact ⟨compiled, h, .refl _⟩
        | some conditions =>
          refine plan_withTypes hp (fun hrel hinto => hmix hrel ?_) h
          rw [hrel] at hd
          exact (Option.some.inj hd).trans hinto

theorem implicitKey?_withTypes (hp : q.types.Perm names) (schema : Schema) (category : Category) :
    (q.withTypes names).implicitKey? schema category = q.implicitKey? schema category := by
  have hnone (names : List String) (hne : ∀ name, names ≠ [name]) :
      (q.withTypes names).implicitKey? schema category = none := by
    unfold implicitKey?
    rw [types_withTypes]
    match names with
    | [] => cases category <;> rfl
    | [name] => exact absurd rfl (hne name)
    | name :: name' :: rest => cases category <;> rfl
  by_cases hone : ∃ name, q.types = [name]
  · obtain ⟨name, hname⟩ := hone
    have hnames : names = [name] := (List.singleton_perm.mp (hname ▸ hp)).symm
    rw [hnames, ← hname]
    rfl
  · rw [hnone names fun name hname => hone ⟨name, List.perm_singleton.mp (hname ▸ hp)⟩]
    exact (hnone q.types fun name hname => hone ⟨name, hname⟩).symm

theorem namesUniqueTypes_withTypes (hp : q.types.Perm names) (schema : Schema) :
    (q.withTypes names).namesUniqueTypes schema = q.namesUniqueTypes schema := by
  unfold namesUniqueTypes
  rw [types_withTypes, ← hp.isEmpty_eq, ← (hp.filterMap schema.named?).all_eq]
  rfl

end Query

end RowGraph
