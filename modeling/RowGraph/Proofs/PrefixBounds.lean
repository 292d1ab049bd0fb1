import RowGraph.Proofs.ByteOrder

/-!
# The bound above a prefix

`nextAfter` looks past the bytes 0xFF at the end of a string: all that extends the string lies below what
comes of raising the byte before them, and nothing is kept of them.  A string is such a run with or without
another byte in front (`run_cases`), so that `nextAfter` is known on both forms (`nextAfter_run`,
`nextAfter_append_run`) and the other way round (`nextAfter_eq_none_iff`, `nextAfter_eq_some_iff`).

The bound is exact (`nextAfter_exact`): between a string and its bound lie the extensions of the string and
nothing else, and no smaller bound will do.
-/

namespace RowGraph.Bytes

variable {p e s : Bytes} {b : UInt8} {n : Nat}

/-! ## Runs of 0xFF -/

/-- The string that repeats 0xFF. -/
def run (n : Nat) : Bytes := List.replicate n 0xFF

theorem run_succ (n : Nat) : run (n + 1) = 0xFF :: run n := rfl

theorem eq_of_mem_run (h : b ∈ run n) : b = 0xFF := List.eq_of_mem_replicate h

theorem eq_run_of_forall (h : ∀ b ∈ p, b = 0xFF) : p = run p.length :=
  List.eq_replicate_iff.mpr ⟨rfl, h⟩

/-- A string is a run of 0xFF, or one with another byte before it and anything in front of that. -/
theorem run_cases (p : Bytes) : (∃ n, p = run n) ∨ ∃ s b n, b ≠ 0xFF ∧ p = s ++ b :: run n := by
  induction p with
  | nil => exact .inl ⟨0, rfl⟩
  | cons c p ih =>
    rcases ih with ⟨n, rfl⟩ | ⟨s, b, n, hb, rfl⟩
    · by_cases hc : c = 0xFF
      · subst hc
        exact .inl ⟨n + 1, (run_succ n).symm⟩
      · exact .inr ⟨[], c, n, hc, rfl⟩
    · exact .inr ⟨c :: s, b, n, hb, rfl⟩

/-- Nothing comes after all extensions of a run. -/
theorem nextAfter_run (n : Nat) : nextAfter (run n) = none := by
  induction n with
  | zero => rfl
  | succ n ih =>
    rw [run_succ, nextAfter, ih]
    rfl

/-- The run at the end is dropped, and the byte before it is raised. -/
theorem nextAfter_append_run (hb : b ≠ 0xFF) (s : Bytes) (n : Nat) :
    nextAfter (s ++ b :: run n) = some (s ++ [b + 1]) := by
  induction s with
  | nil =>
    rw [List.nil_append, nextAfter, nextAfter_run]
    simp [hb]
  | cons c s ih => rw [List.cons_append, nextAfter, ih]; rfl

theorem nextAfter_eq_none_iff : nextAfter p = none ↔ ∀ b ∈ p, b = 0xFF := by
  constructor
  · intro h
    rcases run_cases p with ⟨n, rfl⟩ | ⟨s, b, n, hb, rfl⟩
    · intro b hb
      exact eq_of_mem_run hb
    · rw [nextAfter_append_run hb] at h
      cases h
  · intro h
    rw [eq_run_of_forall h]
    exact nextAfter_run _

theorem nextAfter_eq_some_iff :
    nextAfter p = some e ↔ ∃ s b n, b ≠ 0xFF ∧ p = s ++ b :: run n ∧ e = s ++ [b + 1] := by
  constructor
  · intro h
    rcases run_cases p with ⟨n, rfl⟩ | ⟨s, b, n, hb, rfl⟩
    · rw [nextAfter_run] at h
      cases h
    · rw [nextAfter_append_run hb] at h
      exact ⟨s, b, n, hb, rfl, (Option.some.inj h).symm⟩
  · rintro ⟨s, b, n, hb, rfl, rfl⟩
    exact nextAfter_append_run hb s n

/-! ## The bound is exact -/

/-- What comes after every extension of a string does not come before the bound of the string. -/
theorem nextAfter_least {y : Bytes} (h : nextAfter p = some e) (hy : ∀ x, p <+: x → compare x y = .lt) :
    (compare e y).isLE := by
  rw [nextAfter_le_iff h]
  have hp : compare p y = .lt := hy p (List.prefix_refl p)
  refine ⟨by rw [hp]; rfl, fun hpy => ?_⟩
  have hself : compare y y = .eq := Std.ReflCmp.compare_self
  have hbelow : compare y y = .lt := hy y hpy
  rw [hself] at hbelow
  cases hbelow

/-- The strings from a string up to its bound are its extensions.  There is no bound for a string of 0xFF
alone, such as the empty one, and then the strings from it on are its extensions.  The bound is the string
without the run of 0xFF at its end and with its last byte raised, and it is the least string that comes
after every extension. -/
theorem nextAfter_exact (p : Bytes) :
    (∀ e, nextAfter p = some e → ∀ x, (compare p x).isLE ∧ compare x e = .lt ↔ p <+: x) ∧
      (nextAfter p = none ↔ ∀ b ∈ p, b = 0xFF) ∧
      (nextAfter p = none → ∀ x, (compare p x).isLE ↔ p <+: x) ∧
      (∀ e, nextAfter p = some e ↔ ∃ s b n, b ≠ 0xFF ∧ p = s ++ b :: run n ∧ e = s ++ [b + 1]) ∧
      ∀ e y, nextAfter p = some e → (∀ x, p <+: x → compare x y = .lt) → (compare e y).isLE :=
  ⟨fun _ h x => nextAfter_bounds h x, nextAfter_eq_none_iff, fun h x => isLE_iff_starts h x,
    fun _ => nextAfter_eq_some_iff, fun _ _ h hy => nextAfter_least h hy⟩

example : nextAfter [0x01, 0xFF] = some [0x02] := by decide

end RowGraph.Bytes
