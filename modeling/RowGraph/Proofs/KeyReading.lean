import Mathlib.Data.List.Induction
import RowGraph.Proofs.KeySequences
import RowGraph.Proofs.Outcome

/-!
# Reading keys

Reading is the inverse of writing: each reader takes from the front of a byte string exactly what its
writer puts there, and leaves the rest.  So a value is read where its encoding stands and nowhere else,
but that any byte other than zero stands for truth (`Reads`).

* `takeNat_eq_ok`, `takeInt_eq_ok`, `takeFloat_eq_ok`, `takeText_eq_ok`: the readers of the parts.
* `decode_eq_ok`: reading in a sort order; a descending value is read from flipped bytes.
* `decodeAt_eq_ok`: the statement on offsets, together with what a failure is and with sequences.
-/

namespace RowGraph

namespace Bytes

/-! ## Numbers and texts as bytes -/

theorem ofBigEndian_append (s : Bytes) (b : UInt8) :
    ofBigEndian (s ++ [b]) = 256 * ofBigEndian s + b.toNat := by
  simp [ofBigEndian]

theorem ofBigEndian_bigEndian {w n : Nat} (h : n < Nat.pow 256 w) : ofBigEndian (bigEndian w n) = n := by
  induction w generalizing n with
  | zero =>
    have hn : n = 0 := by simpa using h
    rw [hn]
    rfl
  | succ w ih =>
    simp only [Nat.pow_eq, Nat.pow_succ] at h ih
    have hlow : (UInt8.ofNat n).toNat = n % 256 := UInt8.toNat_ofNat'
    rw [bigEndian, ofBigEndian_append, ih (by omega), hlow]
    omega

theorem ofBigEndian_lt (s : Bytes) : ofBigEndian s < Nat.pow 256 s.length := by
  induction s using List.reverseRecOn with
  | nil => exact Nat.one_pos
  | append_singleton s b ih =>
    have hb := b.toNat_lt
    rw [ofBigEndian_append, List.length_append, List.length_singleton]
    simp only [Nat.pow_eq, Nat.pow_succ] at ih ⊢
    omega

theorem bigEndian_ofBigEndian (s : Bytes) : bigEndian s.length (ofBigEndian s) = s := by
  induction s using List.reverseRecOn with
  | nil => rfl
  | append_singleton s b ih =>
    have hb := b.toNat_lt
    have hhigh : (256 * ofBigEndian s + b.toNat) / 256 = ofBigEndian s := by omega
    have hlow : UInt8.ofNat (256 * ofBigEndian s + b.toNat) = b := by
      apply UInt8.toNat_inj.mp
      rw [UInt8.toNat_ofNat']
      omega
    rw [ofBigEndian_append, List.length_append, List.length_singleton, bigEndian, hhigh, ih, hlow]

theorem toText?_eq_some {s : Bytes} {t : String} : toText? s = some t ↔ s = ofText t := by
  unfold toText? ofText String.fromUTF8?
  constructor
  · intro h
    split at h
    · obtain rfl := Option.some.inj h
      rfl
    · cases h
  · rintro rfl
    rw [dif_pos t.isValidUTF8]
    rfl

@[simp] theorem complement_append (s t : Bytes) :
    (s ++ t : Bytes).complement = s.complement ++ t.complement := List.map_append

@[simp] theorem complement_complement (s : Bytes) : s.complement.complement = s := by
  have hbyte : ((fun b : UInt8 => ~~~b) ∘ fun b => ~~~b) = id := funext fun b => UInt8.not_not
  rw [complement, complement, List.map_map, hbyte, List.map_id]

end Bytes

namespace Key

open Bytes (ofBigEndian_bigEndian ofBigEndian_lt bigEndian_ofBigEndian)

variable {s rest : Bytes}

/-! ## The readers of the parts -/

theorem takeNat_eq_ok {width n : Nat} {what : String} :
    takeNat width what s = .ok (n, rest) ↔
      n < Nat.pow 256 width ∧ s = Bytes.bigEndian width n ++ rest := by
  unfold takeNat
  constructor
  · intro h
    split at h
    · cases h
    · rename_i hlen
      obtain ⟨rfl, rfl⟩ := Prod.mk.inj (Except.ok.inj h)
      have hw : (s.take width).length = width := by
        rw [List.length_take]
        omega
      have hlt := ofBigEndian_lt (s.take width)
      have hback := bigEndian_ofBigEndian (s.take width)
      rw [hw] at hlt hback
      exact ⟨hlt, by rw [hback, List.take_append_drop]⟩
  · rintro ⟨hn, rfl⟩
    have hw := Bytes.length_bigEndian width n
    rw [if_neg (by rw [List.length_append]; omega), List.take_left' hw, List.drop_left' hw,
      ofBigEndian_bigEndian hn]

theorem takeNat64_eq_ok {n : Nat} :
    takeNat64 s = .ok (n, rest) ↔ n < Word.bound64 ∧ s = ofNat64 n ++ rest := takeNat_eq_ok

theorem takeInt_eq_ok {i : Int64} : takeInt s = .ok (i, rest) ↔ s = ofInt i ++ rest := by
  unfold takeInt
  rw [Outcome.bind_eq_ok]
  constructor
  · rintro ⟨⟨n, after⟩, hn, h⟩
    obtain ⟨rfl, rfl⟩ := Prod.mk.inj (Except.ok.inj h)
    obtain ⟨hlt, rfl⟩ := takeNat64_eq_ok.mp hn
    have hplace : ((Int64.ofInt ((n : Int) - Word.bound63)).toInt + Word.bound63).toNat = n := by
      unfold Word.bound64 at hlt
      rw [Int64.toInt_ofInt_of_le (by unfold Word.bound63; omega) (by unfold Word.bound63; omega)]
      omega
    unfold ofInt
    rw [hplace]
  · rintro rfl
    have hle := i.le_toInt
    refine ⟨_, takeNat64_eq_ok.mpr ⟨intPlace_lt i, rfl⟩, ?_⟩
    have hplace : (((i.toInt + Word.bound63).toNat : Nat) : Int) - Word.bound63 = i.toInt := by
      unfold Word.bound63
      omega
    show Except.ok (Int64.ofInt _, rest) = _
    rw [hplace, Int64.ofInt_toInt]

theorem floatAt_floatPlace (x : Binary64) : floatAt (floatPlace x) = x := by
  have hx := x.bits.toNat_lt
  cases x with
  | mk bits =>
    unfold floatAt
    refine congrArg Binary64.mk (UInt64.toNat_inj.mp ?_)
    unfold floatPlace Binary64.isNegative Binary64.signBit Word.bound63 Word.bound64
    dsimp only at hx ⊢
    rw [UInt64.toNat_ofNat']
    split <;> split <;> simp_all <;> omega

theorem floatPlace_floatAt {n : Nat} (h : n < Word.bound64) : floatPlace (floatAt n) = n := by
  unfold Word.bound64 at h
  unfold floatPlace floatAt Binary64.isNegative Binary64.signBit Word.bound63 Word.bound64
  dsimp only
  rw [UInt64.toNat_ofNat']
  split <;> split at * <;> simp_all <;> omega

theorem takeFloat_eq_ok {x : Binary64} : takeFloat s = .ok (x, rest) ↔ s = ofFloat x ++ rest := by
  unfold takeFloat
  rw [Outcome.bind_eq_ok]
  constructor
  · rintro ⟨⟨n, after⟩, hn, h⟩
    obtain ⟨rfl, rfl⟩ := Prod.mk.inj (Except.ok.inj h)
    obtain ⟨hlt, rfl⟩ := takeNat64_eq_ok.mp hn
    unfold ofFloat
    rw [floatPlace_floatAt hlt]
  · rintro rfl
    refine ⟨_, takeNat64_eq_ok.mpr ⟨floatPlace_lt x, rfl⟩, ?_⟩
    show Except.ok (floatAt _, rest) = _
    rw [floatAt_floatPlace]

/-- The bytes of a text are read up to the end mark, which no escaped byte holds. -/
theorem takeEscaped_eq_ok {text : Bytes} :
    takeEscaped s = .ok (text, rest) ↔ s = text.flatMap escapeByte ++ [0, 0] ++ rest := by
  constructor
  · intro h
    fun_induction takeEscaped s generalizing text with
    | case1 => cases h
    | case2 => cases h
    | case3 b c more hb ih =>
      obtain ⟨⟨tail, after⟩, htail, he⟩ := Outcome.bind_eq_ok.mp h
      obtain ⟨rfl, rfl⟩ := Prod.mk.inj (Except.ok.inj he)
      rw [List.flatMap_cons, escapeByte, if_neg hb, List.append_assoc, List.append_assoc,
        List.singleton_append, ← List.append_assoc, ← ih htail]
    | case4 b more hb =>
      obtain ⟨rfl, rfl⟩ := Prod.mk.inj (Except.ok.inj h)
      rw [not_not.mp hb]
      rfl
    | case5 b more hb hc ih =>
      obtain ⟨⟨tail, after⟩, htail, he⟩ := Outcome.bind_eq_ok.mp h
      obtain ⟨rfl, rfl⟩ := Prod.mk.inj (Except.ok.inj he)
      rw [not_not.mp hb, List.flatMap_cons, escapeByte, if_pos rfl, List.append_assoc,
        List.append_assoc, ← List.append_assoc _ [0, 0], ← ih htail]
      rfl
    | case6 => cases h
  · rintro rfl
    induction text with
    | nil => rfl
    | cons b text ih =>
      have htail : ∃ c more, text.flatMap escapeByte ++ [0, 0] ++ rest = c :: more := by
        cases h : text.flatMap escapeByte with
        | nil => exact ⟨0, 0 :: rest, rfl⟩
        | cons c more => exact ⟨c, more ++ [0, 0] ++ rest, rfl⟩
      rw [List.flatMap_cons, List.append_assoc, List.append_assoc, ← List.append_assoc _ [0, 0], escapeByte]
      split
      · rename_i hb
        rw [hb, List.cons_append, List.cons_append, List.nil_append, takeEscaped, if_neg (by decide),
          if_neg (by decide), if_pos rfl, ih]
        rfl
      · rename_i hb
        obtain ⟨c, more, hmore⟩ := htail
        rw [hmore] at ih ⊢
        rw [List.singleton_append, takeEscaped, if_pos hb, ih]
        rfl

theorem takeText_eq_ok {text : String} : takeText s = .ok (text, rest) ↔ s = ofText text ++ rest := by
  unfold takeText
  rw [Outcome.bind_eq_ok]
  constructor
  · rintro ⟨⟨bytes, after⟩, hbytes, h⟩
    dsimp only at h
    split at h
    · rename_i found hfound
      obtain ⟨rfl, rfl⟩ := Prod.mk.inj (Except.ok.inj h)
      rw [takeEscaped_eq_ok.mp hbytes, Bytes.toText?_eq_some.mp hfound, ofText]
    · cases h
  · rintro rfl
    refine ⟨(Bytes.ofText text, rest), takeEscaped_eq_ok.mpr rfl, ?_⟩
    dsimp only
    rw [Bytes.toText?_eq_some.mpr rfl]
    rfl

/-! ## Values -/

/-- The bytes that are read as an optional value: its encoding, and for truth also its tag with any other
payload but zero. -/
def Reads (order : SortOrder) (v : Option Value) (s : Bytes) : Prop :=
  s = encode v order ∨ v = some (.bool true) ∧ ∃ b, b ≠ 0 ∧ s = inOrder order [tag .bool, b]

theorem reads_of_decodeAsc {v : Option Value} (h : decodeAsc s = .ok (v, rest)) :
    ∃ read, Reads .asc v read ∧ s = read ++ rest := by
  cases s with
  | nil => cases h
  | cons t s =>
    unfold decodeAsc at h
    dsimp only at h
    split at h
    · rename_i ht
      obtain ⟨rfl, rfl⟩ := Prod.mk.inj (Except.ok.inj h)
      exact ⟨[t], .inl (by rw [ht]; rfl), rfl⟩
    split at h
    · rename_i ht
      subst ht
      cases s with
      | nil => cases h
      | cons b s =>
        obtain ⟨rfl, rfl⟩ := Prod.mk.inj (Except.ok.inj h)
        refine ⟨[tag .bool, b], ?_, rfl⟩
        by_cases hb : b = 0
        · rw [hb]
          exact .inl rfl
        · exact .inr ⟨by simp [hb], b, hb, rfl⟩
    split at h
    · rename_i ht
      obtain ⟨⟨i, after⟩, hi, he⟩ := Outcome.bind_eq_ok.mp h
      obtain ⟨rfl, rfl⟩ := Prod.mk.inj (Except.ok.inj he)
      exact ⟨ofValue (.int i), .inl rfl, by rw [ht, takeInt_eq_ok.mp hi]; rfl⟩
    split at h
    · rename_i ht
      obtain ⟨⟨x, after⟩, hx, he⟩ := Outcome.bind_eq_ok.mp h
      obtain ⟨rfl, rfl⟩ := Prod.mk.inj (Except.ok.inj he)
      exact ⟨ofValue (.float x), .inl rfl, by rw [ht, takeFloat_eq_ok.mp hx]; rfl⟩
    split at h
    · rename_i ht
      obtain ⟨⟨text, after⟩, htext, he⟩ := Outcome.bind_eq_ok.mp h
      obtain ⟨rfl, rfl⟩ := Prod.mk.inj (Except.ok.inj he)
      exact ⟨ofValue (.string text), .inl rfl, by rw [ht, takeText_eq_ok.mp htext]; rfl⟩
    split at h
    · rename_i ht
      obtain ⟨⟨n, after⟩, hn, he⟩ := Outcome.bind_eq_ok.mp h
      obtain ⟨rfl, rfl⟩ := Prod.mk.inj (Except.ok.inj he)
      obtain ⟨hlt, rfl⟩ := takeNat64_eq_ok.mp hn
      have hword : (UInt64.ofNat n).toNat = n := UInt64.toNat_ofNat_of_lt' hlt
      exact ⟨ofValue (.vertex ⟨UInt64.ofNat n⟩), .inl rfl, by rw [ht, ofValue, hword]; rfl⟩
    · cases h

theorem decodeAsc_ofValue (v : Value) (rest : Bytes) : decodeAsc (ofValue v ++ rest) = .ok (some v, rest) := by
  cases v with
  | bool b => cases b <;> rfl
  | int i =>
    show (takeInt (ofInt i ++ rest) >>= _) = _
    rw [takeInt_eq_ok.mpr rfl]
    rfl
  | float x =>
    show (takeFloat (ofFloat x ++ rest) >>= _) = _
    rw [takeFloat_eq_ok.mpr rfl]
    rfl
  | string text =>
    show (takeText (ofText text ++ rest) >>= _) = _
    rw [takeText_eq_ok.mpr rfl]
    rfl
  | vertex v =>
    show (takeNat64 (ofNat64 v.val.toNat ++ rest) >>= _) = _
    rw [takeNat64_eq_ok.mpr ⟨v.val.toNat_lt, rfl⟩]
    show Except.ok (some (Value.vertex ⟨UInt64.ofNat v.val.toNat⟩), rest) = _
    rw [UInt64.ofNat_toNat]

theorem decodeAsc_eq_ok {v : Option Value} :
    decodeAsc s = .ok (v, rest) ↔ ∃ read, Reads .asc v read ∧ s = read ++ rest := by
  refine ⟨reads_of_decodeAsc, ?_⟩
  rintro ⟨read, rfl | ⟨rfl, b, hb, rfl⟩, rfl⟩
  · cases v with
    | none => rfl
    | some v => exact decodeAsc_ofValue v rest
  · show Except.ok (some (Value.bool (b != 0)), rest) = _
    rw [bne_iff_ne.mpr hb]

theorem reads_complement {v : Option Value} : Reads .desc v s ↔ Reads .asc v s.complement := by
  have hflip (t : Bytes) : s = t.complement ↔ s.complement = t :=
    ⟨fun h => by rw [h, Bytes.complement_complement], fun h => by rw [← h, Bytes.complement_complement]⟩
  unfold Reads encode inOrder
  simp only [hflip]

/-- A value is read from what is read as it, with anything after that. -/
theorem decode_eq_ok {order : SortOrder} {v : Option Value} :
    decode order s = .ok (v, rest) ↔ ∃ read, Reads order v read ∧ s = read ++ rest := by
  cases order with
  | asc => exact decodeAsc_eq_ok
  | desc =>
    unfold decode
    rw [Outcome.bind_eq_ok]
    constructor
    · rintro ⟨⟨w, after⟩, hw, h⟩
      obtain ⟨rfl, rfl⟩ := Prod.mk.inj (Except.ok.inj h)
      obtain ⟨read, hread, hs⟩ := decodeAsc_eq_ok.mp hw
      refine ⟨read.complement, reads_complement.mpr (by rwa [Bytes.complement_complement]), ?_⟩
      rw [← Bytes.complement_complement s, hs, Bytes.complement_append]
    · rintro ⟨read, hread, rfl⟩
      refine ⟨(v, rest.complement), decodeAsc_eq_ok.mpr ⟨read.complement, reads_complement.mp hread,
        Bytes.complement_append _ _⟩, ?_⟩
      show Except.ok (v, rest.complement.complement) = _
      rw [Bytes.complement_complement]

/-! ## What cannot be read -/

/-- The failure says that the bytes make no sense. -/
def Corrupts (f : Failure) : Prop := ∃ what, f = .corruption what

variable {f : Failure}

theorem corrupts_takeNat64 (h : takeNat64 s = .error f) : Corrupts f := by
  unfold takeNat64 takeNat at h
  split at h
  · exact ⟨_, (Except.error.inj h).symm⟩
  · cases h

theorem corrupts_takeInt (h : takeInt s = .error f) : Corrupts f := by
  obtain h | ⟨n, -, h⟩ := Outcome.bind_eq_error.mp h
  · exact corrupts_takeNat64 h
  · cases h

theorem corrupts_takeFloat (h : takeFloat s = .error f) : Corrupts f := by
  obtain h | ⟨n, -, h⟩ := Outcome.bind_eq_error.mp h
  · exact corrupts_takeNat64 h
  · cases h

theorem corrupts_takeEscaped (h : takeEscaped s = .error f) : Corrupts f := by
  fun_induction takeEscaped s with
  | case1 => exact ⟨_, (Except.error.inj h).symm⟩
  | case2 => exact ⟨_, (Except.error.inj h).symm⟩
  | case3 b c more hb ih =>
    obtain h | ⟨tail, -, h⟩ := Outcome.bind_eq_error.mp h
    · exact ih h
    · cases h
  | case4 => cases h
  | case5 b more hb hc ih =>
    obtain h | ⟨tail, -, h⟩ := Outcome.bind_eq_error.mp h
    · exact ih h
    · cases h
  | case6 => exact ⟨_, (Except.error.inj h).symm⟩

theorem corrupts_takeText (h : takeText s = .error f) : Corrupts f := by
  obtain h | ⟨⟨bytes, rest⟩, -, h⟩ := Outcome.bind_eq_error.mp h
  · exact corrupts_takeEscaped h
  · dsimp only at h
    split at h
    · cases h
    · exact ⟨_, (Except.error.inj h).symm⟩

theorem corrupts_decodeAsc (h : decodeAsc s = .error f) : Corrupts f := by
  -- what follows a payload cannot fail, so that only the tag and the payload are left
  have payload {α : Type} {x : Outcome (α × Bytes)} {k : α × Bytes → Outcome (Option Value × Bytes)}
      (hx : x = .error f → Corrupts f) (hk : ∀ p, k p ≠ .error f) (he : x >>= k = .error f) :
      Corrupts f := by
    obtain he | ⟨p, -, he⟩ := Outcome.bind_eq_error.mp he
    · exact hx he
    · exact absurd he (hk p)
  cases s with
  | nil => exact ⟨_, (Except.error.inj h).symm⟩
  | cons t s =>
    unfold decodeAsc at h
    dsimp only at h
    split at h
    · cases h
    split at h
    · split at h
      · exact ⟨_, (Except.error.inj h).symm⟩
      · cases h
    split at h
    · exact payload corrupts_takeInt (fun p hp => by cases hp) h
    split at h
    · exact payload corrupts_takeFloat (fun p hp => by cases hp) h
    split at h
    · exact payload corrupts_takeText (fun p hp => by cases hp) h
    split at h
    · exact payload corrupts_takeNat64 (fun p hp => by cases hp) h
    · exact ⟨_, (Except.error.inj h).symm⟩

theorem corrupts_decode {order : SortOrder} (h : decode order s = .error f) : Corrupts f := by
  cases order with
  | asc => exact corrupts_decodeAsc h
  | desc =>
    obtain h | ⟨p, -, h⟩ := Outcome.bind_eq_error.mp h
    · exact corrupts_decodeAsc h
    · cases h

/-! ## Sequences and offsets -/

/-- Encoded values are read back one after another, whatever follows them. -/
theorem decodeAll_encodeAll {orders : List SortOrder} {xs : List (Option Value)}
    (h : xs.length = orders.length) (rest : Bytes) :
    decodeAll orders (encodeAll orders xs ++ rest) =
      .ok (xs.mapIdx fun i x => (x, encodeAll (orders.drop (i + 1)) (xs.drop (i + 1)) ++ rest)) := by
  induction orders generalizing xs with
  | nil =>
    obtain rfl := List.length_eq_zero_iff.mp h
    rfl
  | cons order orders ih =>
    obtain ⟨x, xs, rfl⟩ := List.exists_cons_of_length_eq_add_one h
    have hhead : decode order (encode x order ++ (encodeAll orders xs ++ rest)) =
        .ok (x, encodeAll orders xs ++ rest) := decode_eq_ok.mpr ⟨_, .inl rfl, rfl⟩
    rw [encodeAll_cons, List.append_assoc, decodeAll, hhead]
    show (decodeAll orders (encodeAll orders xs ++ rest) >>= fun found => _) = _
    rw [ih (Nat.succ.inj h), List.mapIdx_cons]
    rfl

/-- A value is read from an offset on up to another one exactly where the bytes between them are read as
it.  Anything else is corrupt, and encoded sequences are read back. -/
theorem decodeAt_eq_ok (order : SortOrder) (s : Bytes) {offset : Nat} (ho : offset ≤ s.length) :
    (∀ v stop, decodeAt order s offset = .ok (v, stop) ↔
      offset ≤ stop ∧ stop ≤ s.length ∧ Reads order v ((s.take stop).drop offset)) ∧
    (∀ f, decodeAt order s offset = .error f → Corrupts f) ∧
    ∀ (orders : List SortOrder) (xs : List (Option Value)) (rest : Bytes), xs.length = orders.length →
      decodeAll orders (encodeAll orders xs ++ rest) = .ok (xs.mapIdx fun i x =>
        (x, encodeAll (orders.drop (i + 1)) (xs.drop (i + 1)) ++ rest)) := by
  refine ⟨fun v stop => ?_, fun f h => ?_, fun orders xs rest h => decodeAll_encodeAll h rest⟩
  · unfold decodeAt
    rw [Outcome.bind_eq_ok, List.drop_take]
    constructor
    · rintro ⟨⟨w, rest⟩, hw, h⟩
      obtain ⟨rfl, rfl⟩ := Prod.mk.inj (Except.ok.inj h)
      obtain ⟨read, hread, hs⟩ := decode_eq_ok.mp hw
      have hlen : s.length - offset = read.length + rest.length := by
        rw [← List.length_drop, hs, List.length_append]
      have hread' : s.length - rest.length - offset = read.length := by omega
      refine ⟨by omega, by omega, ?_⟩
      rwa [hs, hread', List.take_left]
    · rintro ⟨hle, hstop, hread⟩
      have hsplit : s.drop offset = (s.drop offset).take (stop - offset) ++ s.drop stop := by
        have hdrop : (s.drop offset).drop (stop - offset) = s.drop stop := by
          rw [List.drop_drop]
          congr 1
          omega
        rw [← hdrop, List.take_append_drop]
      refine ⟨(v, s.drop stop), decode_eq_ok.mpr ⟨_, hread, hsplit⟩, ?_⟩
      have hlen : s.length - (s.drop stop).length = stop := by
        rw [List.length_drop]
        omega
      show Except.ok (v, s.length - (s.drop stop).length) = _
      rw [hlen]
  · obtain h | ⟨p, -, h⟩ := Outcome.bind_eq_error.mp h
    · exact corrupts_decode h
    · cases h

/-- Descending, a payload that is not the flipped one is truth as well. -/
theorem decodeAt_eq_ok_bool :
    decodeAt .desc [7, 0xEF, 5, 9] 1 = .ok (some (.bool true), 3) ∧
      decodeAll [.asc, .desc] (encodeAll [.asc, .desc] [some (.string "a\x00"), none] ++ [8]) =
        .ok [(some (.string "a\x00"), [0, 8]), (none, [8])] := by
  have h := decodeAt_eq_ok .desc [7, 0xEF, 5, 9] (show 1 ≤ 4 by decide)
  refine ⟨(h.1 (some (.bool true)) 3).mpr ⟨by decide, by decide, .inr ⟨rfl, 0xFA, by decide, by decide⟩⟩, ?_⟩
  exact h.2.2 [.asc, .desc] [some (.string "a\x00"), none] [8] rfl

end Key

end RowGraph
