import RowGraph.Json.Lexeme
import RowGraph.Proofs.JsonText
import RowGraph.Proofs.KeyReading

/-!
# Lexemes read back

What the spelling of a text or of a whole number stands for is the text or the number.  An escaped byte
takes one of three forms (`Escape`); each is passed over as one by the reader of lexemes and undone by the
reader of texts.  The digits of a number start with zero only if it is zero, and their value is the number.

* `isString_escaped`, `lexemeText?_escaped`: texts.
* `nat?_ofNat`, `int64?_ofInt`: whole numbers.
-/

namespace RowGraph.Json

variable {s rest ds : Bytes} {b : UInt8} {n : Nat}

/-! ## Texts -/

theorem hexValue?_hexDigit (h : n < 16) : hexValue? (ascii (Bytes.hexDigit n)) = some n := by
  revert n
  decide

/-- How a byte may be written between quotes: as it is, by a letter, or by its number. -/
inductive Escape (b : UInt8) : Bytes → Prop
  | plain : b ≠ ascii '"' → b ≠ ascii '\\' → ¬ b < 0x20 → Escape b [b]
  | letter (e : UInt8) : isEscapeLetter e = true → e ≠ ascii 'u' → escapeLetter? e = some b →
      Escape b [ascii '\\', e]
  | code (h₁ h₂ h₃ h₄ : UInt8) : b < 0x20 →
      (∀ h ∈ [h₁, h₂, h₃, h₄], (hexValue? h).isSome = true) →
      hexNumber? h₁ h₂ h₃ h₄ = some b.toNat → Escape b [ascii '\\', ascii 'u', h₁, h₂, h₃, h₄]

theorem escape_letter {e : UInt8} {text : String} (htext : asciiBytes text = [ascii '\\', e])
    (he : isEscapeLetter e = true) (hu : e ≠ ascii 'u') (hb : escapeLetter? e = some b) :
    Escape b (asciiBytes text) := by
  rw [htext]
  exact .letter e he hu hb

theorem escape_escapeByte (b : UInt8) : Escape b (escapeByte b) := by
  unfold escapeByte
  split_ifs with hquote hback h8 h12 h10 h13 h9 hcontrol
  · exact escape_letter (e := ascii '"') (by decide +kernel) (by decide +kernel) (by decide)
      (by subst b; decide)
  · exact escape_letter (e := ascii '\\') (by decide +kernel) (by decide +kernel) (by decide)
      (by subst b; decide)
  · exact escape_letter (e := ascii 'b') (by decide +kernel) (by decide +kernel) (by decide)
      (by subst b; decide)
  · exact escape_letter (e := ascii 'f') (by decide +kernel) (by decide +kernel) (by decide)
      (by subst b; decide)
  · exact escape_letter (e := ascii 'n') (by decide +kernel) (by decide +kernel) (by decide)
      (by subst b; decide)
  · exact escape_letter (e := ascii 'r') (by decide +kernel) (by decide +kernel) (by decide)
      (by subst b; decide)
  · exact escape_letter (e := ascii 't') (by decide +kernel) (by decide +kernel) (by decide)
      (by subst b; decide)
  · have hb : b.toNat < 32 := hcontrol
    have htext : asciiBytes "\\u00" ++ (Bytes.hexByte b).map ascii = [ascii '\\', ascii 'u', ascii '0', ascii '0',
        ascii (Bytes.hexDigit (b.toNat / 16)), ascii (Bytes.hexDigit (b.toNat % 16))] := by
      have hhead : asciiBytes "\\u00" = [ascii '\\', ascii 'u', ascii '0', ascii '0'] := by decide +kernel
      rw [hhead]
      rfl
    have hhigh : hexValue? (ascii (Bytes.hexDigit (b.toNat / 16))) = some (b.toNat / 16) :=
      hexValue?_hexDigit (by omega)
    have hlow : hexValue? (ascii (Bytes.hexDigit (b.toNat % 16))) = some (b.toNat % 16) :=
      hexValue?_hexDigit (by omega)
    have hzero : hexValue? (ascii '0') = some 0 := by decide
    rw [htext]
    refine .code _ _ _ _ hcontrol ?_ ?_
    · simp [hzero, hhigh, hlow]
    · have hsum : b.toNat / 16 * 16 + b.toNat % 16 = b.toNat := by omega
      simp [hexNumber?, hzero, hhigh, hlow, hsum]
  · exact .plain hquote hback hcontrol

theorem utf8EncodeChar_control (h : n < 32) : String.utf8EncodeChar (Char.ofNat n) = [UInt8.ofNat n] := by
  revert n
  decide +kernel

/-- The reader of lexemes passes over an escaped byte. -/
theorem Escape.stringLexeme? {t : Bytes} (h : Escape b t) (s : Bytes) :
    stringLexeme? (t ++ s) = (stringLexeme? s).map fun (u, after) => (t ++ u, after) := by
  cases h with
  | plain hquote hback hcontrol =>
    rw [List.singleton_append, Json.stringLexeme?.eq_def]
    dsimp only
    rw [if_neg hquote, if_neg hcontrol, if_neg hback]
    rfl
  | letter e he hu _ =>
    rw [List.cons_append, List.singleton_append, Json.stringLexeme?.eq_def]
    dsimp only
    rw [if_neg (by decide), if_neg (by decide), if_pos rfl, if_pos he]
    rfl
  | code h₁ h₂ h₃ h₄ _ hhex _ =>
    have hu : isEscapeLetter (ascii 'u') = false := by decide +kernel
    have hall : [h₁, h₂, h₃, h₄].all (fun h => (hexValue? h).isSome) = true := List.all_eq_true.mpr hhex
    simp only [List.cons_append, List.nil_append]
    rw [Json.stringLexeme?.eq_def]
    dsimp only
    rw [if_neg (by decide), if_neg (by decide), if_pos rfl, if_neg (by simp [hu]), if_pos rfl, if_pos hall]

/-- The reader of texts undoes an escape. -/
theorem Escape.unescape? {t : Bytes} (h : Escape b t) (s : Bytes) :
    unescape? (t ++ s) = (unescape? s).map (b :: ·) := by
  cases h with
  | plain _ hback _ =>
    rw [List.singleton_append, Json.unescape?.eq_def]
    dsimp only
    rw [if_pos hback]
  | letter e _ hu hb =>
    rw [List.cons_append, List.singleton_append, Json.unescape?.eq_def]
    dsimp only
    rw [if_neg (by decide), if_neg hu, hb]
  | code h₁ h₂ h₃ h₄ hcontrol _ hhex =>
    have hb : b.toNat < 32 := hcontrol
    have hsmall : b.toNat < 0xD800 ∨ 0xDFFF < b.toNat := .inl (by omega)
    simp only [List.cons_append, List.nil_append]
    rw [Json.unescape?.eq_def]
    dsimp only
    rw [if_neg (by decide), if_pos rfl, hhex]
    dsimp only
    rw [if_pos hsmall, utf8EncodeChar_control hb, UInt8.ofNat_toNat]
    simp only [List.singleton_append]

/-- An escaped text stands between its quotes as one string. -/
theorem isString_escaped (t : Bytes) : IsString (t.flatMap escapeByte) := by
  intro rest
  induction t with
  | nil =>
    rw [List.flatMap_nil, List.nil_append, stringLexeme?.eq_def]
    exact if_pos rfl
  | cons b t ih =>
    rw [List.flatMap_cons, List.append_assoc, (escape_escapeByte b).stringLexeme?, ih]
    rfl

theorem unescape?_escaped (t : Bytes) : unescape? (t.flatMap escapeByte) = some t := by
  induction t with
  | nil => rw [List.flatMap_nil, unescape?]
  | cons b t ih =>
    rw [List.flatMap_cons, (escape_escapeByte b).unescape?, ih]
    rfl

/-- An escaped text stands for itself. -/
theorem lexemeText?_escaped (t : String) : lexemeText? ((Bytes.ofText t).flatMap escapeByte) = some t := by
  rw [lexemeText?, unescape?_escaped]
  exact Bytes.toText?_eq_some.mpr rfl

theorem text?_ofText (t : String) : text? (ofText t) = some t := lexemeText?_escaped t

theorem wellFormed_ofText (t : String) : WellFormed (ofText t) := .string (isString_escaped _)

/-! ## Whole numbers -/

/-- The decimal digits of a number. -/
def digits (n : Nat) : Bytes := (Nat.toDigits 10 n).map ascii

theorem ascii_digitChar (h : n < 10) : ascii (Nat.digitChar n) = UInt8.ofNat (48 + n) := by
  revert n
  decide

theorem digits_of_lt (h : n < 10) : digits n = [UInt8.ofNat (48 + n)] := by
  rw [digits, Nat.toDigits_of_lt_base h, List.map_singleton, ascii_digitChar h]

theorem digits_of_le (h : 10 ≤ n) : digits n = digits (n / 10) ++ [UInt8.ofNat (48 + n % 10)] := by
  rw [digits, Nat.toDigits_of_base_le (by decide) h, List.map_append, List.map_singleton,
    ascii_digitChar (Nat.mod_lt n (by decide)), digits]

theorem digits_ne_nil (n : Nat) : digits n ≠ [] := by
  rw [digits, ne_eq, List.map_eq_nil_iff]
  exact Nat.toDigits_ne_nil

theorem isDigit_ascii {c : Char} (h : c.isDigit = true) : isDigit (ascii c) = true := by
  simp only [Char.isDigit, Bool.and_eq_true, decide_eq_true_eq, ge_iff_le, UInt32.le_iff_toNat_le] at h
  have hlow : 48 ≤ c.toNat := h.1
  have hhigh : c.toNat ≤ 57 := h.2
  have hbyte : (ascii c).toNat = c.toNat := by
    rw [ascii, UInt8.toNat_ofNat']
    omega
  have hzero : (ascii '0').toNat = 48 := rfl
  have hnine : (ascii '9').toNat = 57 := rfl
  simp only [isDigit, Bool.and_eq_true, decide_eq_true_eq, UInt8.le_iff_toNat_le]
  omega

theorem isDigits_digits (n : Nat) : IsDigits (digits n) := by
  refine ⟨digits_ne_nil n, ?_⟩
  intro d hd
  obtain ⟨c, hc, rfl⟩ := List.mem_map.mp hd
  exact isDigit_ascii (Nat.isDigit_of_mem_toDigits (by decide) (by decide) hc)

/-- Only the digits of zero start with zero. -/
theorem eq_zero_of_head (h : (digits n).head? = some (ascii '0')) : n = 0 := by
  induction n using Nat.strongRecOn with
  | ind n ih =>
    by_cases hn : n < 10
    · rw [digits_of_lt hn, List.head?_cons, Option.some.injEq, ← UInt8.toNat_inj, UInt8.toNat_ofNat'] at h
      have hzero : (ascii '0').toNat = 48 := rfl
      omega
    · have hhead : (digits (n / 10)).head? = some (ascii '0') := by
        rwa [digits_of_le (by omega), List.head?_append_of_ne_nil _ (digits_ne_nil _)] at h
      have hquotient : n / 10 = 0 := ih (n / 10) (by omega) hhead
      omega

theorem isWhole_digits (n : Nat) : IsWhole (digits n) := by
  refine ⟨isDigits_digits n, ?_⟩
  intro h
  rw [eq_zero_of_head h]
  rfl

theorem isUnsigned_digits (n : Nat) : IsUnsigned (digits n) :=
  ⟨digits n, [], [], by simp, isWhole_digits n, .inl rfl, .inl rfl⟩

theorem wellFormed_ofNat (n : Nat) : WellFormed (ofNat n) := .number (.inl (isUnsigned_digits n))

theorem wellFormed_ofInt (i : Int) : WellFormed (ofInt i) := by
  unfold ofInt
  split
  · exact .number (.inr ⟨_, isUnsigned_digits i.natAbs, rfl⟩)
  · exact .number (.inl (isUnsigned_digits i.natAbs))

theorem digitsValue_append (ds : Bytes) (d : UInt8) :
    digitsValue (ds ++ [d]) = 10 * digitsValue ds + digitValue d := by
  simp [digitsValue]

theorem digitValue_ofNat (h : n < 10) : digitValue (UInt8.ofNat (48 + n)) = n := by
  rw [digitValue, UInt8.toNat_ofNat']
  omega

/-- The value of the digits of a number is the number. -/
theorem digitsValue_digits (n : Nat) : digitsValue (digits n) = n := by
  induction n using Nat.strongRecOn with
  | ind n ih =>
    by_cases hn : n < 10
    · rw [digits_of_lt hn, ← List.nil_append [_], digitsValue_append, digitValue_ofNat hn]
      exact Nat.zero_add n
    · rw [digits_of_le (by omega), digitsValue_append, ih (n / 10) (by omega),
        digitValue_ofNat (Nat.mod_lt n (by decide))]
      omega

theorem spanDigits_self (h : IsDigits ds) : spanDigits ds = (ds, []) := by
  have hend : Lacks isDigit [] := by simp [Lacks]
  have hspan := spanDigits_append h.2 hend
  rwa [List.append_nil] at hspan

theorem spelling_digits (h : IsDigits ds) : spelling ds = ⟨false, ds, [], false, false, []⟩ := by
  obtain ⟨d, more, rfl⟩ := List.exists_cons_of_ne_nil h.1
  have hd : d ≠ ascii '-' := by
    rintro rfl
    exact absurd (h.2 _ List.mem_cons_self) (by decide)
  simp [spelling, hd, spanDigits_self h]

theorem spelling_minus (h : IsDigits ds) : spelling (ascii '-' :: ds) = ⟨true, ds, [], false, false, []⟩ := by
  simp [spelling, spanDigits_self h]

theorem number?_digits (h : n < Word.bound64) : number? (digits n) = some (.natural n) := by
  simp [number?, spelling_digits (isDigits_digits n), digitsValue_digits, h]

theorem number?_minus (h₁ : 1 ≤ n) (h : n ≤ Word.bound63) :
    number? (ascii '-' :: digits n) = some (.negative n) := by
  have hfits : n < Word.bound64 := Nat.lt_of_le_of_lt h (by decide)
  have hpos : n ≠ 0 := Nat.one_le_iff_ne_zero.mp h₁
  simp [number?, spelling_minus (isDigits_digits n), digitsValue_digits, h, hfits, hpos]

theorem nat?_ofNat {bound : Nat} (h : n < bound) (hword : n < Word.bound64) :
    nat? bound (ofNat n) = some n := by
  have hnumber := number?_digits hword
  rw [digits] at hnumber
  simp [nat?, ofNat, hnumber, h]

theorem int64?_ofInt (i : Int64) : int64? (ofInt i.toInt) = some i := by
  have hlow := i.le_toInt
  have hhigh := i.toInt_lt
  by_cases hneg : i.toInt < 0
  · have htext : ofInt i.toInt = number (ascii '-' :: digits i.toInt.natAbs) := by
      rw [ofInt, if_pos hneg, List.singleton_append, digits]
    have hnumber : number? (ascii '-' :: digits i.toInt.natAbs) = some (.negative i.toInt.natAbs) :=
      number?_minus (by omega) (by simp only [Word.bound63]; omega)
    have hback : -(i.toInt.natAbs : Int) = i.toInt := by omega
    rw [htext, int64?, hnumber]
    dsimp only
    rw [hback, Int64.ofInt_toInt]
  · have htext : ofInt i.toInt = number (digits i.toInt.natAbs) := by
      rw [ofInt, if_neg hneg, List.nil_append, digits]
    have hnumber : number? (digits i.toInt.natAbs) = some (.natural i.toInt.natAbs) :=
      number?_digits (by simp only [Word.bound64]; omega)
    have hfits : i.toInt.natAbs < Word.bound63 := by
      simp only [Word.bound63]
      omega
    rw [htext, int64?, hnumber]
    dsimp only
    rw [if_pos hfits, ← Int64.ofInt_eq_ofNat, Int.natAbs_of_nonneg (by omega), Int64.ofInt_toInt]

end RowGraph.Json
