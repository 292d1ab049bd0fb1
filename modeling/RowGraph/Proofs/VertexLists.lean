import RowGraph.Answer.VertexList
import RowGraph.Proofs.MergedStreams

/-!
# What the mark of a list of vertices says

A list of vertices says of itself whether it is known to be sorted, and one that says so is not sorted again.
It must not say so wrongly (`Honest`).  A list that is made from vertices looks at all of them and is marked
just if they ascend (`sorted_ofIds`, `sorted_collect`); a vertex at the end leaves the mark only where it is
not below the last one, and part of an ascending list ascends.  So every list that is made in some way and
then worked on is honest, is extended at its end only, and is sorted where it is asked to be (`marked_only_sorted`).
-/

namespace RowGraph.VertexList

variable {l other : VertexList} {v : VertexId} {ids : List VertexId}

/-! ## Increasing order -/

/-- The vertices are in increasing order, equal ones side by side. -/
def Ascending (ids : List VertexId) : Prop := ids.Pairwise fun a b => (compare a b).isLE

theorem ascends_iff (ids : List VertexId) : ascends ids = true ↔ Ascending ids := by
  induction ids with
  | nil => simp [ascends, Ascending]
  | cons a ids ih =>
    cases ids with
    | nil => simp [ascends, Ascending]
    | cons b ids =>
      unfold Ascending at ih ⊢
      rw [ascends, Bool.and_eq_true, ih, List.pairwise_cons (a := a)]
      refine and_congr_left fun h => ?_
      constructor
      · intro hab c hc
        rcases List.mem_cons.mp hc with rfl | hc
        · exact hab
        · exact Std.TransCmp.isLE_trans hab (List.rel_of_pairwise_cons h hc)
      · intro ha
        exact ha b List.mem_cons_self

/-- Vertices ascend with one more at the end just if they do without it and it is not below the last. -/
theorem ascending_append_singleton (ids : List VertexId) (v : VertexId) :
    Ascending (ids ++ [v]) ↔ Ascending ids ∧ (ids.getLast?.all fun last => (compare last v).isLE) = true := by
  unfold Ascending
  rw [List.pairwise_append]
  refine and_congr_right fun h => ?_
  simp only [List.pairwise_singleton, List.mem_singleton, forall_eq, true_and]
  rcases List.eq_nil_or_concat ids with rfl | ⟨front, last, rfl⟩
  · simp
  · rw [List.concat_eq_append] at h ⊢
    rw [List.getLast?_concat, Option.all_some]
    constructor
    · intro ha
      exact ha last (by simp)
    · intro hlast a ha
      rcases List.mem_append.mp ha with ha | ha
      · exact Std.TransCmp.isLE_trans ((List.pairwise_append.mp h).2.2 a ha last (by simp)) hlast
      · obtain rfl := List.mem_singleton.mp ha
        exact hlast

/-! ## What the operations do to the vertices -/

theorem ids_add (l : VertexList) (v : VertexId) : (l.add v).ids = l.ids ++ [v] := rfl

theorem ids_foldl_add (l : VertexList) (ids : List VertexId) : (ids.foldl add l).ids = l.ids ++ ids := by
  induction ids generalizing l with
  | nil => exact (List.append_nil _).symm
  | cons v ids ih => rw [List.foldl_cons, ih, ids_add, List.append_assoc, List.singleton_append]

theorem ids_addAll (l other : VertexList) : (l.addAll other).ids = l.ids ++ other.ids :=
  ids_foldl_add l other.ids

theorem ids_collect (ids : List VertexId) : (collect ids).ids = ids := ids_foldl_add empty ids

theorem perm_sort (l : VertexList) : l.sort.ids.Perm l.ids := by
  unfold sort
  split
  · exact List.Perm.refl _
  · exact List.mergeSort_perm ..

theorem sorted_sort (l : VertexList) : l.sort.sorted = true := by
  unfold sort
  split
  · assumption
  · rfl

/-! ## The mark -/

/-- A list that is marked as sorted is sorted. -/
def Honest (l : VertexList) : Prop := l.sorted = true → Ascending l.ids

theorem sorted_ofIds (ids : List VertexId) : (ofIds ids).sorted = true ↔ Ascending ids := ascends_iff ids

theorem sorted_add (l : VertexList) (v : VertexId) : (l.add v).sorted = true ↔
    l.sorted = true ∧ (l.ids.getLast?.all fun last => (compare last v).isLE) = true := by
  unfold add
  rw [Bool.and_eq_true]

/-- If the mark of a list says exactly whether it is sorted, then so it does after more vertices. -/
theorem sorted_foldl_add (h : l.sorted = true ↔ Ascending l.ids) (ids : List VertexId) :
    (ids.foldl add l).sorted = true ↔ Ascending (l.ids ++ ids) := by
  induction ids generalizing l with
  | nil => rw [List.append_nil, List.foldl_nil, h]
  | cons v ids ih =>
    have hadd : (l.add v).sorted = true ↔ Ascending (l.add v).ids := by
      rw [sorted_add, ids_add, ascending_append_singleton, h]
    rw [List.foldl_cons, ih hadd, ids_add, List.append_assoc, List.singleton_append]

theorem sorted_collect (ids : List VertexId) : (collect ids).sorted = true ↔ Ascending ids :=
  sorted_foldl_add (l := empty) ⟨fun _ => List.Pairwise.nil, fun _ => rfl⟩ ids

namespace Honest

theorem add (h : l.Honest) (v : VertexId) : (l.add v).Honest := by
  intro hmark
  obtain ⟨hl, hlast⟩ := (sorted_add l v).mp hmark
  exact (ascending_append_singleton l.ids v).mpr ⟨h hl, hlast⟩

theorem foldl_add (h : l.Honest) (ids : List VertexId) : (ids.foldl VertexList.add l).Honest := by
  induction ids generalizing l with
  | nil => exact h
  | cons v ids ih => exact ih (h.add v)

/-- Where the list is not marked it is sorted now, and where it is the mark is right. -/
theorem ascending_sort (h : l.Honest) : Ascending l.sort.ids := by
  unfold sort
  split
  · exact h ‹_›
  · exact List.pairwise_mergeSort (fun _ _ _ => Std.TransCmp.isLE_trans)
      isLE_total _

theorem truncate (h : l.Honest) (size : Nat) : (l.truncate size).Honest :=
  fun hmark => (h hmark).sublist (List.take_sublist ..)

theorem subList (h : l.Honest) (first stop : Nat) : (l.subList first stop).Honest :=
  fun hmark => (h hmark).sublist ((List.drop_sublist ..).trans (List.take_sublist ..))

end Honest

/-! ## Lists that are worked on -/

/-- How a list comes about. -/
inductive Origin where
  | empty
  | unmarked
  | ofIds (ids : List VertexId)
  | collect (ids : List VertexId)

/-- The list that comes about. -/
def Origin.list : Origin → VertexList
  | .empty => VertexList.empty
  | .unmarked => VertexList.unmarked
  | .ofIds ids => VertexList.ofIds ids
  | .collect ids => VertexList.collect ids

/-- What is done with a list. -/
inductive Step where
  | add (v : VertexId)
  | addAll (other : VertexList)
  | sort
  | truncate (size : Nat)
  | subList (first stop : Nat)

/-- The list after a step. -/
def step (l : VertexList) : Step → VertexList
  | .add v => l.add v
  | .addAll other => l.addAll other
  | .sort => l.sort
  | .truncate size => l.truncate size
  | .subList first stop => l.subList first stop

/-- The list after steps, one after another. -/
def work (origin : Origin) (steps : List Step) : VertexList := steps.foldl step origin.list

theorem Origin.honest (origin : Origin) : origin.list.Honest := by
  cases origin with
  | empty => exact fun _ => List.Pairwise.nil
  | unmarked => exact fun _ => List.Pairwise.nil
  | ofIds ids => exact (sorted_ofIds ids).mp
  | collect ids =>
    intro hmark
    rw [list, ids_collect]
    exact (sorted_collect ids).mp hmark

theorem Honest.step (h : l.Honest) (s : Step) : (l.step s).Honest := by
  cases s with
  | add v => exact h.add v
  | addAll other => exact h.foldl_add other.ids
  | sort => exact fun _ => h.ascending_sort
  | truncate size => exact h.truncate size
  | subList first stop => exact h.subList first stop

/-- Steps keep a list honest, one after another. -/
theorem Honest.steps (h : l.Honest) (steps : List Step) : (steps.foldl VertexList.step l).Honest := by
  induction steps generalizing l with
  | nil => exact h
  | cons s steps ih => exact ih (h.step s)

theorem honest_work (origin : Origin) (steps : List Step) : (work origin steps).Honest :=
  origin.honest.steps steps

/-- However a list comes about and whatever is done with it, it is not marked as sorted unless it is.  More
vertices come after those that are there, in their order, and sorting leaves the same vertices, each as often
as before, in increasing order. -/
theorem marked_only_sorted (origin : Origin) (steps : List Step) :
    (work origin steps).Honest ∧
      (∀ v, ((work origin steps).add v).ids = (work origin steps).ids ++ [v]) ∧
      (∀ other, ((work origin steps).addAll other).ids = (work origin steps).ids ++ other.ids) ∧
      Ascending (work origin steps).sort.ids ∧
      (work origin steps).sort.ids.Perm (work origin steps).ids ∧
      (work origin steps).sort.sorted = true :=
  ⟨honest_work origin steps, ids_add _, ids_addAll _, (honest_work origin steps).ascending_sort,
    perm_sort _, sorted_sort _⟩

end RowGraph.VertexList
