/-!
# Sorted maps

A finite map kept as the list of its bindings in increasing key order. The order is part of the
type, so two maps are equal exactly when they hold the same bindings, and reading a map in order is
reading its list.
-/

namespace RowGraph

/-- Bindings with strictly increasing keys. -/
structure SortedMap (κ ν : Type) [Ord κ] where
  /-- The bindings in key order. -/
  toList : List (κ × ν)
  /-- Every key is smaller than the keys after it. -/
  increasing : toList.Pairwise (fun a b => compare a.1 b.1 = .lt)

namespace SortedMap

variable {κ ν : Type} [Ord κ]

instance [DecidableEq κ] [DecidableEq ν] : DecidableEq (SortedMap κ ν) := fun a b =>
  if h : a.toList = b.toList then
    isTrue (by cases a; cases b; cases h; rfl)
  else
    isFalse (fun e => h (congrArg toList e))

instance [Repr κ] [Repr ν] : Repr (SortedMap κ ν) where
  reprPrec m n := reprPrec m.toList n

/-- The map without bindings. -/
def empty : SortedMap κ ν := ⟨[], .nil⟩

instance : Inhabited (SortedMap κ ν) := ⟨empty⟩

instance : EmptyCollection (SortedMap κ ν) := ⟨empty⟩

/-- Two maps with the same bindings are equal. -/
theorem ext_toList {a b : SortedMap κ ν} (h : a.toList = b.toList) : a = b := by
  cases a; cases b; cases h; rfl

/-- The value bound to a key in a list of bindings. -/
def find (k : κ) : List (κ × ν) → Option ν
  | [] => none
  | (k', v) :: rest => if compare k k' = .eq then some v else find k rest

/-- The value bound to `k`. -/
def get? (m : SortedMap κ ν) (k : κ) : Option ν := find k m.toList

/-- Is `k` bound? -/
def contains (m : SortedMap κ ν) (k : κ) : Bool := (m.get? k).isSome

/-- The keys in order. -/
def keys (m : SortedMap κ ν) : List κ := m.toList.map (·.1)

/-- The values in key order. -/
def values (m : SortedMap κ ν) : List ν := m.toList.map (·.2)

/-- The number of bindings. -/
def size (m : SortedMap κ ν) : Nat := m.toList.length

/-- Is there no binding? -/
def isEmpty (m : SortedMap κ ν) : Bool := m.toList.isEmpty

/-- Puts a binding in its place, over the one its key has. -/
def place (k : κ) (v : ν) : List (κ × ν) → List (κ × ν)
  | [] => [(k, v)]
  | (k', v') :: rest =>
    match compare k k' with
    | .lt => (k, v) :: (k', v') :: rest
    | .eq => (k, v) :: rest
    | .gt => (k', v') :: place k v rest

/-- Drops the binding of a key. -/
def discard (k : κ) (l : List (κ × ν)) : List (κ × ν) := l.filter (fun b => compare k b.1 != .eq)

theorem mem_place {k : κ} {v : ν} {l : List (κ × ν)} {b : κ × ν} (h : b ∈ place k v l) :
    b = (k, v) ∨ b ∈ l := by
  induction l with
  | nil => simpa [place] using h
  | cons a rest ih =>
    obtain ⟨k', v'⟩ := a
    unfold place at h
    split at h
    · simpa using h
    · rcases List.mem_cons.1 h with h | h
      · exact .inl h
      · exact .inr (List.mem_cons_of_mem _ h)
    · rcases List.mem_cons.1 h with h | h
      · exact .inr (h ▸ List.mem_cons_self)
      · exact (ih h).imp id (List.mem_cons_of_mem _)

theorem place_increasing [Std.TransOrd κ] (k : κ) (v : ν) {l : List (κ × ν)}
    (h : l.Pairwise (fun a b => compare a.1 b.1 = .lt)) :
    (place k v l).Pairwise (fun a b => compare a.1 b.1 = .lt) := by
  induction l with
  | nil => simp [place]
  | cons a rest ih =>
    obtain ⟨k', v'⟩ := a
    have hhead := (List.pairwise_cons.1 h).1
    have hrest := (List.pairwise_cons.1 h).2
    unfold place
    split
    · rename_i hc
      refine List.pairwise_cons.2 ⟨?_, h⟩
      intro b hb
      rcases List.mem_cons.1 hb with hb | hb
      · subst hb; exact hc
      · exact Std.TransCmp.lt_trans hc (hhead b hb)
    · rename_i hc
      refine List.pairwise_cons.2 ⟨?_, hrest⟩
      intro b hb
      exact Std.TransCmp.lt_of_eq_of_lt hc (hhead b hb)
    · rename_i hc
      refine List.pairwise_cons.2 ⟨?_, ih hrest⟩
      intro b hb
      rcases mem_place hb with hb | hb
      · subst hb; exact Std.OrientedCmp.gt_iff_lt.1 hc
      · exact hhead b hb

/-- Binds `k` to `v`. -/
def put [Std.TransOrd κ] (m : SortedMap κ ν) (k : κ) (v : ν) : SortedMap κ ν :=
  ⟨place k v m.toList, place_increasing k v m.increasing⟩

/-- Unbinds `k`. -/
def erase (m : SortedMap κ ν) (k : κ) : SortedMap κ ν :=
  ⟨discard k m.toList, List.Pairwise.filter _ m.increasing⟩

/-- Binds what `f` makes of the present value of `k`, or unbinds `k`. -/
def alter [Std.TransOrd κ] (m : SortedMap κ ν) (k : κ) (f : Option ν → Option ν) :
    SortedMap κ ν :=
  match f (m.get? k) with
  | some v => m.put k v
  | none => m.erase k

/-- Applies `f` to every value. -/
def mapValues {ω : Type} (f : ν → ω) (m : SortedMap κ ν) : SortedMap κ ω :=
  ⟨m.toList.map (fun b => (b.1, f b.2)), by simpa [List.pairwise_map] using m.increasing⟩

/-- The bindings whose key passes a test. -/
def restrict (m : SortedMap κ ν) (p : κ → Bool) : SortedMap κ ν :=
  ⟨m.toList.filter (fun b => p b.1), List.Pairwise.filter _ m.increasing⟩

/-- The bindings of a list put in one after another: a later one replaces an earlier one. -/
def ofList [Std.TransOrd κ] (l : List (κ × ν)) : SortedMap κ ν :=
  l.foldl (fun m b => m.put b.1 b.2) empty

@[simp] theorem toList_empty : (empty : SortedMap κ ν).toList = [] := rfl

@[simp] theorem get?_empty (k : κ) : (empty : SortedMap κ ν).get? k = none := rfl

@[simp] theorem toList_put [Std.TransOrd κ] (m : SortedMap κ ν) (k : κ) (v : ν) :
    (m.put k v).toList = place k v m.toList := rfl

@[simp] theorem toList_erase (m : SortedMap κ ν) (k : κ) :
    (m.erase k).toList = discard k m.toList := rfl

end SortedMap

end RowGraph
