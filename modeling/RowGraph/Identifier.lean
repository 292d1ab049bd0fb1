/-!
# Identifiers

Vertices and relations are numbered with 64 bits, relation types with 32. The types below
`TypeId.systemBound` belong to the system.
-/

namespace RowGraph

/-- A vertex, or one representative of a partitioned vertex. -/
structure VertexId where
  val : UInt64
  deriving DecidableEq, Repr, Inhabited

instance : Ord VertexId := ⟨fun a b => compare a.val b.val⟩

/-- A relation: an edge or a property. -/
structure RelationId where
  val : UInt64
  deriving DecidableEq, Repr, Inhabited

instance : Ord RelationId := ⟨fun a b => compare a.val b.val⟩

/-- A relation type, a relation index or an implicit key. -/
structure TypeId where
  val : UInt32
  deriving DecidableEq, Repr, Inhabited

instance : Ord TypeId := ⟨fun a b => compare a.val b.val⟩

/-- An order by a key is transitive if the order of the keys is. -/
theorem transOrd_of_key {α κ : Type} [Ord α] [Ord κ] [Std.TransOrd κ] (key : α → κ)
    (h : ∀ a b : α, compare a b = compare (key a) (key b)) : Std.TransOrd α where
  eq_swap {a b} := by
    rw [h, h b a]
    exact Std.OrientedCmp.eq_swap
  isLE_trans {a b c} := by
    rw [h, h b c, h a c]
    exact Std.TransCmp.isLE_trans

/-- An order by a key that tells everything apart does so too. -/
theorem lawfulEqOrd_of_key {α κ : Type} [Ord α] [Ord κ] [Std.LawfulEqOrd κ] (key : α → κ)
    (inj : ∀ a b : α, key a = key b → a = b)
    (h : ∀ a b : α, compare a b = compare (key a) (key b)) : Std.LawfulEqOrd α where
  compare_self {a} := by
    rw [h]
    exact Std.ReflCmp.compare_self
  eq_of_compare {a b} g := by
    rw [h] at g
    exact inj a b (Std.LawfulEqCmp.eq_of_compare g)

theorem VertexId.compare_eq (a b : VertexId) : compare a b = compare a.val b.val := rfl

theorem RelationId.compare_eq (a b : RelationId) : compare a b = compare a.val b.val := rfl

theorem TypeId.compare_eq (a b : TypeId) : compare a b = compare a.val b.val := rfl

instance : Std.TransOrd VertexId := transOrd_of_key VertexId.val VertexId.compare_eq

instance : Std.LawfulEqOrd VertexId :=
  lawfulEqOrd_of_key VertexId.val (fun _ _ h => congrArg VertexId.mk h) VertexId.compare_eq

instance : Std.TransOrd RelationId := transOrd_of_key RelationId.val RelationId.compare_eq

instance : Std.LawfulEqOrd RelationId :=
  lawfulEqOrd_of_key RelationId.val (fun _ _ h => congrArg RelationId.mk h) RelationId.compare_eq

instance : Std.TransOrd TypeId := transOrd_of_key TypeId.val TypeId.compare_eq

instance : Std.LawfulEqOrd TypeId :=
  lawfulEqOrd_of_key TypeId.val (fun _ _ h => congrArg TypeId.mk h) TypeId.compare_eq

namespace TypeId

/-- The types below this number belong to the system. -/
def systemBound : Nat := 1024

/-- Does the type belong to the system? -/
def isSystem (t : TypeId) : Bool := decide (t.val.toNat < systemBound)

end TypeId

end RowGraph
