import RowGraph.Proofs.KeyOrder

/-!
# The order of encoded sequences

Values encoded one after another sort as the values do: the first place where two sequences differ
decides, in the sort order of that place, and where they do not differ what follows them does
(`compare_encodeAll`).  Up to the place the bytes are the same, and there no encoding starts the other,
so that what comes later is never looked at.
-/

namespace RowGraph.Key

variable {orders : List SortOrder} {xs ys : List (Option Value)}

@[simp] theorem encodeAll_nil (xs : List (Option Value)) : encodeAll [] xs = [] := by
  cases xs <;> rfl

@[simp] theorem encodeAll_cons (order : SortOrder) (orders : List SortOrder) (x : Option Value)
    (xs : List (Option Value)) :
    encodeAll (order :: orders) (x :: xs) = encode x order ++ encodeAll orders xs := rfl

/-- The bytes after two sequences that agree up to `i` are compared from `i` on. -/
theorem compare_encodeAll_drop (hx : xs.length = orders.length) (hy : ys.length = orders.length) {i : Nat}
    (h : ∀ j < i, xs[j]? = ys[j]?) (s t : Bytes) :
    compare (encodeAll orders xs ++ s) (encodeAll orders ys ++ t) =
      compare (encodeAll (orders.drop i) (xs.drop i) ++ s)
        (encodeAll (orders.drop i) (ys.drop i) ++ t) := by
  induction i generalizing orders xs ys with
  | zero => rfl
  | succ i ih =>
    cases orders with
    | nil => simp
    | cons order orders =>
      obtain ⟨x, xs, rfl⟩ := List.exists_cons_of_length_eq_add_one hx
      obtain ⟨y, ys, rfl⟩ := List.exists_cons_of_length_eq_add_one hy
      have hhead : x = y := by simpa using h 0 (Nat.succ_pos i)
      have htail : ∀ j < i, xs[j]? = ys[j]? := fun j hj => by
        simpa using h (j + 1) (Nat.succ_lt_succ hj)
      subst hhead
      rw [encodeAll_cons, encodeAll_cons, List.append_assoc, List.append_assoc,
        Bytes.compare_append_left, ih (Nat.succ.inj hx) (Nat.succ.inj hy) htail]
      simp

/-- Sequences of one length, followed by anything, compare at the first place where they differ, and as
what follows them if they are the same. -/
theorem compare_encodeAll (hx : xs.length = orders.length) (hy : ys.length = orders.length) (s t : Bytes) :
    (∀ (i : Nat) (x y : Option Value) (order : SortOrder), (∀ j < i, xs[j]? = ys[j]?) →
      xs[i]? = some x → ys[i]? = some y → orders[i]? = some order → x ≠ y →
        compare (encodeAll orders xs ++ s) (encodeAll orders ys ++ t) =
          order.apply (Value.cmpAbsentLast x y)) ∧
    (xs = ys → compare (encodeAll orders xs ++ s) (encodeAll orders ys ++ t) = compare s t) := by
  refine ⟨fun i x y order h hxi hyi hoi hne => ?_, fun he => ?_⟩
  · obtain ⟨hix, rfl⟩ := List.getElem?_eq_some_iff.mp hxi
    obtain ⟨hiy, rfl⟩ := List.getElem?_eq_some_iff.mp hyi
    obtain ⟨hio, rfl⟩ := List.getElem?_eq_some_iff.mp hoi
    rw [compare_encodeAll_drop hx hy h, List.drop_eq_getElem_cons hix, List.drop_eq_getElem_cons hiy,
      List.drop_eq_getElem_cons hio, encodeAll_cons, encodeAll_cons, List.append_assoc,
      List.append_assoc]
    exact compare_encode _ hne _ _
  · subst he
    exact Bytes.compare_append_left _ s t

/-- A descending text decides against the larger one, and what follows does not matter. -/
theorem compare_encodeAll_descending :
    compare (encodeAll [.asc, .desc] [some (.float ⟨0⟩), some (.string "a\x00b")] ++ [0])
        (encodeAll [.asc, .desc] [some (.float ⟨0⟩), some (.string "a")] ++ [255]) = .lt ∧
      compare (encodeAll [.desc] [none] ++ [1]) (encodeAll [.desc] [none] ++ [2]) = .lt := by
  constructor
  · refine ((compare_encodeAll rfl rfl [0] [255]).1 1 (some (.string "a\x00b")) (some (.string "a"))
      .desc (fun j hj => ?_) rfl rfl rfl (by decide)).trans (by decide +kernel)
    obtain rfl : j = 0 := by omega
    rfl
  · exact ((compare_encodeAll rfl rfl [1] [2]).2 rfl).trans (by decide)

end RowGraph.Key
