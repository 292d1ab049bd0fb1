import Mathlib.Data.List.TakeDrop
import Mathlib.Data.List.TakeWhile
import RowGraph.Json.Tree

/-!
# Documents read back

A document whose numbers and strings are spelled as they should be is read back from the text that
`render` writes, whatever follows the text, as long as it cannot go on with a number (`value?_render`).
The induction is on the document; the steps that are left stay above the length of the text, since every
reader passes over at least one byte before it calls another.

* `numberLexeme?_append`: a number ends where neither digit, point nor exponent follow.
* `items?_render`, `members?_render`: what stands between brackets, given its parts.
* `parse?_render`: the statement for whole texts.
-/

namespace RowGraph.Json

variable {s rest l ds : Bytes} {b : UInt8}

/-! ## Numbers -/

/-- Digits, at least one. -/
def IsDigits (ds : Bytes) : Prop := ds ≠ [] ∧ ∀ d ∈ ds, isDigit d = true

/-- The whole part of a number: digits that do not start with zero, or one zero. -/
def IsWhole (ds : Bytes) : Prop := IsDigits ds ∧ (ds.head? = some (ascii '0') → ds = [ascii '0'])

/-- A point with digits, or nothing. -/
def IsPoint (l : Bytes) : Prop := l = [] ∨ ∃ ds, IsDigits ds ∧ l = ascii '.' :: ds

/-- An exponent with a sign and digits, or nothing. -/
def IsExponent (l : Bytes) : Prop :=
  l = [] ∨ ∃ e ds, (e = ascii '+' ∨ e = ascii '-') ∧ IsDigits ds ∧ l = ascii 'e' :: e :: ds

/-- The spelling of a number without its sign. -/
def IsUnsigned (l : Bytes) : Prop :=
  ∃ whole point exponent, l = whole ++ point ++ exponent ∧ IsWhole whole ∧ IsPoint point ∧ IsExponent exponent

/-- The spelling of a number. -/
def IsNumber (l : Bytes) : Prop := IsUnsigned l ∨ ∃ u, IsUnsigned u ∧ l = ascii '-' :: u

/-- The text cannot go on with a number: it is at its end or at a separator. -/
def Delimited (rest : Bytes) : Prop :=
  ∀ b ∈ rest.head?, b = ascii ',' ∨ b = ascii ']' ∨ b = ascii '\x7d'

/-- No byte of a class stands first. -/
def Lacks (p : UInt8 → Bool) (s : Bytes) : Prop := ∀ b ∈ s.head?, p b = false

theorem delimited_nil : Delimited [] := by simp [Delimited]

theorem spanDigits_append (hd : ∀ d ∈ ds, isDigit d = true) (hr : Lacks isDigit rest) :
    spanDigits (ds ++ rest) = (ds, rest) := by
  have hnone : rest.takeWhile isDigit = [] ∧ rest.dropWhile isDigit = rest := by
    cases rest with
    | nil => exact ⟨rfl, rfl⟩
    | cons b rest =>
      have hb : isDigit b = false := hr b rfl
      simp [hb]
  rw [spanDigits, List.span_eq_takeWhile_dropWhile, List.takeWhile_append_of_pos hd,
    List.dropWhile_append_of_pos hd, hnone.1, hnone.2, List.append_nil]

theorem wholePart?_append (hw : IsWhole ds) (hr : Lacks isDigit rest) :
    wholePart? (ds ++ rest) = some (ds, rest) := by
  unfold wholePart?
  rw [spanDigits_append hw.1.2 hr]
  obtain ⟨d, more, rfl⟩ := List.exists_cons_of_ne_nil hw.1.1
  have hzero : ¬ (d = ascii '0' ∧ more ≠ []) := by
    rintro ⟨rfl, hmore⟩
    exact hmore (List.cons.inj (hw.2 rfl)).2
  exact if_neg hzero

theorem pointPart?_append (hd : IsDigits ds) (hr : Lacks isDigit rest) :
    pointPart? (ascii '.' :: ds ++ rest) = some (ascii '.' :: ds, rest) := by
  unfold pointPart?
  rw [List.cons_append]
  dsimp only
  rw [if_pos rfl, spanDigits_append hd.2 hr]
  obtain ⟨d, more, rfl⟩ := List.exists_cons_of_ne_nil hd.1
  rfl

theorem pointPart?_missing (hr : Lacks (· == ascii '.') rest) : pointPart? rest = some ([], rest) := by
  unfold pointPart?
  cases rest with
  | nil => rfl
  | cons b rest =>
    have hb : b ≠ ascii '.' := by simpa using hr b rfl
    exact if_neg hb

theorem exponentPart?_append {e : UInt8} (he : e = ascii '+' ∨ e = ascii '-') (hd : IsDigits ds)
    (hr : Lacks isDigit rest) :
    exponentPart? (ascii 'e' :: e :: ds ++ rest) = some (ascii 'e' :: e :: ds, rest) := by
  unfold exponentPart?
  rw [List.cons_append, List.cons_append]
  dsimp only
  rw [if_pos (.inl rfl), exponentSign, if_pos he]
  dsimp only
  rw [spanDigits_append hd.2 hr]
  obtain ⟨d, more, rfl⟩ := List.exists_cons_of_ne_nil hd.1
  rfl

theorem exponentPart?_missing (hr : Lacks (fun b => b == ascii 'e' || b == ascii 'E') rest) :
    exponentPart? rest = some ([], rest) := by
  unfold exponentPart?
  cases rest with
  | nil => rfl
  | cons b rest =>
    have hb : ¬ (b = ascii 'e' ∨ b = ascii 'E') := by simpa using hr b rfl
    exact if_neg hb

theorem Delimited.lacks {p : UInt8 → Bool} (h : Delimited rest) (hcomma : p (ascii ',') = false)
    (hbracket : p (ascii ']') = false) (hbrace : p (ascii '\x7d') = false) : Lacks p rest := by
  intro b hb
  rcases h b hb with rfl | rfl | rfl
  · exact hcomma
  · exact hbracket
  · exact hbrace

/-- The parts of a number are read one after the other, each as far as it goes. -/
theorem IsUnsigned.parts_append (h : IsUnsigned l) (hr : Delimited rest) :
    ∃ whole point exponent, whole ++ (point ++ exponent) = l ∧
      wholePart? (l ++ rest) = some (whole, point ++ (exponent ++ rest)) ∧
      pointPart? (point ++ (exponent ++ rest)) = some (point, exponent ++ rest) ∧
      exponentPart? (exponent ++ rest) = some (exponent, rest) := by
  obtain ⟨whole, point, exponent, rfl, hwhole, hpoint, hexponent⟩ := h
  have hexp : exponentPart? (exponent ++ rest) = some (exponent, rest) ∧
      Lacks isDigit (exponent ++ rest) ∧ Lacks (· == ascii '.') (exponent ++ rest) := by
    rcases hexponent with rfl | ⟨e, ds, he, hds, rfl⟩
    · exact ⟨exponentPart?_missing (hr.lacks rfl rfl rfl), hr.lacks rfl rfl rfl, hr.lacks rfl rfl rfl⟩
    · refine ⟨exponentPart?_append he hds (hr.lacks rfl rfl rfl), ?_, ?_⟩ <;>
      · intro b hb
        obtain rfl : ascii 'e' = b := by simpa using hb
        rfl
  have hpt : pointPart? (point ++ (exponent ++ rest)) = some (point, exponent ++ rest) ∧
      Lacks isDigit (point ++ (exponent ++ rest)) := by
    rcases hpoint with rfl | ⟨ds, hds, rfl⟩
    · exact ⟨pointPart?_missing hexp.2.2, hexp.2.1⟩
    · refine ⟨pointPart?_append hds hexp.2.1, ?_⟩
      intro b hb
      obtain rfl : ascii '.' = b := by simpa using hb
      rfl
  refine ⟨whole, point, exponent, (List.append_assoc ..).symm, ?_, hpt.1, hexp.1⟩
  rw [List.append_assoc, List.append_assoc]
  exact wholePart?_append hwhole hpt.2

/-- A number without its sign starts with a digit. -/
theorem IsUnsigned.start (h : IsUnsigned l) : ∃ d more, l = d :: more ∧ isDigit d = true := by
  obtain ⟨whole, point, exponent, rfl, hwhole, -, -⟩ := h
  obtain ⟨d, more, rfl⟩ := List.exists_cons_of_ne_nil hwhole.1.1
  exact ⟨d, more ++ point ++ exponent, rfl, hwhole.1.2 d List.mem_cons_self⟩

/-- The spelling of a number is read as far as it goes. -/
theorem numberLexeme?_append (h : IsNumber l) (hr : Delimited rest) :
    numberLexeme? (l ++ rest) = some (l, rest) := by
  unfold numberLexeme?
  rcases h with h | ⟨l, h, rfl⟩
  · obtain ⟨d, more, rfl, hd⟩ := h.start
    obtain ⟨whole, point, exponent, hparts, hwhole, hpoint, hexponent⟩ := h.parts_append hr
    have hsign : d ≠ ascii '-' := by
      rintro rfl
      exact absurd hd (by decide)
    rw [List.cons_append] at hwhole
    simp [hsign, hwhole, hpoint, hexponent, hparts]
  · obtain ⟨whole, point, exponent, hparts, hwhole, hpoint, hexponent⟩ := h.parts_append hr
    simp [hwhole, hpoint, hexponent, hparts]

/-! ## Documents -/

/-- Between quotes the bytes are read as one string. -/
def IsString (t : Bytes) : Prop := ∀ rest, stringLexeme? (t ++ ascii '"' :: rest) = some (t, rest)

/-- All numbers and strings of the document are spelled as they should be. -/
inductive WellFormed : Json → Prop
  | null : WellFormed null
  | bool (b : Bool) : WellFormed (bool b)
  | number {l : Bytes} : IsNumber l → WellFormed (number l)
  | string {t : Bytes} : IsString t → WellFormed (string t)
  | array {items : List Json} : (∀ j ∈ items, WellFormed j) → WellFormed (array items)
  | object {members : List (Bytes × Json)} : (∀ m ∈ members, IsString m.1) →
      (∀ m ∈ members, WellFormed m.2) → WellFormed (object members)

theorem renderItems_eq (items : List Json) : renderItems items = items.map render := by
  induction items with
  | nil => rfl
  | cons j items ih => rw [renderItems, ih, List.map_cons]

/-- A member as it is written. -/
def memberText (m : Bytes × Json) : Bytes :=
  ascii '"' :: m.1 ++ [ascii '"', ascii ':'] ++ render m.2

theorem renderMembers_eq (members : List (Bytes × Json)) :
    renderMembers members = members.map memberText := by
  induction members with
  | nil => rfl
  | cons m members ih => rw [renderMembers, ih, List.map_cons, memberText]

theorem joined_cons_cons (separator part next : Bytes) (parts : List Bytes) :
    joined separator (part :: next :: parts) = part ++ separator ++ joined separator (next :: parts) := rfl

theorem skipBlanks_cons (h : isBlank b = false) : skipBlanks (b :: s) = b :: s := by
  rw [skipBlanks, List.dropWhile_cons_of_neg (by simp [h])]

theorem afterWord?_append (w s : Bytes) : afterWord? w (w ++ s) = some s := by
  induction w with
  | nil => rfl
  | cons b w ih => rw [List.cons_append, afterWord?, if_pos rfl, ih]

/-- A number starts with a sign or a digit, which nothing else does. -/
theorem IsNumber.start (h : IsNumber l) : ∃ b more, l = b :: more ∧ (b = ascii '-' ∨ isDigit b = true) := by
  rcases h with h | ⟨u, -, rfl⟩
  · obtain ⟨d, more, rfl, hd⟩ := h.start
    exact ⟨d, more, rfl, .inr hd⟩
  · exact ⟨ascii '-', u, rfl, .inl rfl⟩

theorem ne_of_starts {c : UInt8} (h : b = ascii '-' ∨ isDigit b = true) (hc : c ≠ ascii '-')
    (hc' : isDigit c = false) : b ≠ c := by
  rintro rfl
  rcases h with h | h
  · exact hc h
  · rw [h] at hc'
    cases hc'

/-- The text of a document starts with a byte that is no blank and ends no array. -/
theorem WellFormed.start {j : Json} (h : WellFormed j) :
    ∃ b more, render j = b :: more ∧ isBlank b = false ∧ b ≠ ascii ']' := by
  cases h with
  | null => exact ⟨ascii 'n', asciiBytes "ull", by decide +kernel, by decide, by decide⟩
  | bool b =>
    cases b with
    | true => exact ⟨ascii 't', asciiBytes "rue", by decide +kernel, by decide, by decide⟩
    | false => exact ⟨ascii 'f', asciiBytes "alse", by decide +kernel, by decide, by decide⟩
  | number hl =>
    obtain ⟨b, more, rfl, hb⟩ := hl.start
    refine ⟨b, more, rfl, ?_, ne_of_starts hb (by decide) (by decide)⟩
    have hblank (c : UInt8) (hc : c ≠ ascii '-') (hc' : isDigit c = false) : (b == c) = false :=
      beq_false_of_ne (ne_of_starts hb hc hc')
    unfold isBlank
    rw [hblank _ (by decide) (by decide), hblank _ (by decide) (by decide),
      hblank _ (by decide) (by decide), hblank _ (by decide) (by decide)]
    rfl
  | string _ => exact ⟨ascii '"', _, rfl, by decide, by decide⟩
  | array _ => exact ⟨ascii '[', _, rfl, by decide, by decide⟩
  | object _ _ => exact ⟨ascii '\x7b', _, rfl, by decide, by decide⟩

/-- The document is read back from its text, with enough steps left and whatever may follow. -/
def ReadsBack (j : Json) : Prop :=
  ∀ steps rest, (render j).length < steps → Delimited rest → value? steps (render j ++ rest) = some (j, rest)

theorem readsBack_of_succ {j : Json} (h : ∀ steps rest, (render j).length ≤ steps → Delimited rest →
    value? (steps + 1) (render j ++ rest) = some (j, rest)) : ReadsBack j := by
  intro steps rest hsteps hrest
  cases steps with
  | zero => omega
  | succ steps => exact h steps rest (Nat.le_of_lt_succ hsteps) hrest

theorem items?_render {items : List Json} (hne : items ≠ []) (h : ∀ j ∈ items, ReadsBack j) {steps : Nat}
    (hsteps : (joined [ascii ','] (items.map render)).length + 1 < steps) (rest : Bytes) :
    items? steps (joined [ascii ','] (items.map render) ++ ascii ']' :: rest) = some (items, rest) := by
  induction items generalizing steps with
  | nil => exact absurd rfl hne
  | cons j items ih =>
    obtain ⟨hj, hitems⟩ := List.forall_mem_cons.mp h
    cases steps with
    | zero => omega
    | succ steps =>
      cases items with
      | nil =>
        have hlen : (render j).length < steps := Nat.lt_of_succ_lt_succ hsteps
        have hclose : Delimited (ascii ']' :: rest) := by simp [Delimited]
        rw [List.map_cons, List.map_nil, joined, items?, hj steps _ hlen hclose]
        dsimp only
        rw [skipBlanks_cons (by decide)]
        exact if_pos rfl
      | cons k items =>
        rw [List.map_cons, List.map_cons, joined_cons_cons] at hsteps ⊢
        simp only [List.length_append, List.length_singleton] at hsteps
        have hcomma : Delimited (ascii ',' :: (joined [ascii ','] (render k :: items.map render) ++
            ascii ']' :: rest)) := by simp [Delimited]
        have hleft : (joined [ascii ','] ((k :: items).map render)).length + 1 < steps := by
          rw [List.map_cons]
          omega
        have hrest := ih (List.cons_ne_nil k items) hitems hleft
        rw [List.map_cons] at hrest
        rw [List.append_assoc, List.append_assoc, List.singleton_append, items?,
          hj steps _ (by omega) hcomma]
        dsimp only
        rw [skipBlanks_cons (by decide)]
        dsimp only
        rw [if_neg (by decide), if_pos rfl, hrest]
        rfl

theorem members?_render {members : List (Bytes × Json)} (hne : members ≠ [])
    (hnames : ∀ m ∈ members, IsString m.1) (h : ∀ m ∈ members, ReadsBack m.2) {steps : Nat}
    (hsteps : (joined [ascii ','] (members.map memberText)).length + 1 < steps) (rest : Bytes) :
    members? steps (joined [ascii ','] (members.map memberText) ++ ascii '\x7d' :: rest) =
      some (members, rest) := by
  induction members generalizing steps with
  | nil => exact absurd rfl hne
  | cons m members ih =>
    obtain ⟨name, item⟩ := m
    obtain ⟨hname, hnames⟩ := List.forall_mem_cons.mp hnames
    obtain ⟨hitem, hitems⟩ := List.forall_mem_cons.mp h
    dsimp only at hname hitem
    -- a member and the first byte after it, which is where its text ends
    have hmember {left : Nat} {after more : Bytes} {c : UInt8} (hlen : (render item).length < left)
        (hafter : Delimited after) (hfirst : skipBlanks after = c :: more) :
        members? (left + 1) (memberText (name, item) ++ after) =
          if c = ascii '\x7d' then some ([(name, item)], more)
          else if c = ascii ',' then (members? left more).map fun p => ((name, item) :: p.1, p.2)
          else none := by
      have htext : memberText (name, item) ++ after =
          ascii '"' :: (name ++ ascii '"' :: ascii ':' :: (render item ++ after)) := by
        simp [memberText]
      rw [htext, members?, skipBlanks_cons (by decide)]
      dsimp only
      rw [if_neg (by decide), hname]
      dsimp only
      rw [skipBlanks_cons (by decide)]
      dsimp only
      rw [if_neg (by decide)]
      simp only [hitem left _ hlen hafter, hfirst]
    have hlong : (render item).length + 1 < (memberText (name, item)).length := by
      simp only [memberText, List.length_append, List.length_cons]
      omega
    cases steps with
    | zero => omega
    | succ steps =>
      cases members with
      | nil =>
        rw [List.map_cons, List.map_nil, joined] at hsteps ⊢
        rw [hmember (by omega) (by simp [Delimited]) (skipBlanks_cons (by decide))]
        exact if_pos rfl
      | cons k members =>
        rw [List.map_cons, List.map_cons, joined_cons_cons] at hsteps ⊢
        simp only [List.length_append, List.length_singleton] at hsteps
        have hleft : (joined [ascii ','] ((k :: members).map memberText)).length + 1 < steps := by
          rw [List.map_cons]
          omega
        have hrest := ih (List.cons_ne_nil k members) hnames hitems hleft
        rw [List.map_cons] at hrest
        rw [List.append_assoc, List.append_assoc, List.singleton_append,
          hmember (by omega) (by simp [Delimited]) (skipBlanks_cons (by decide)), if_neg (by decide),
          if_pos rfl, hrest]
        rfl

/-- Parts written one after the other start as the first of them does. -/
theorem joined_start (separator : Bytes) {part more : Bytes} (ts : List Bytes)
    (h : part = b :: more) : ∃ tail, joined separator (part :: ts) = b :: tail := by
  subst h
  cases ts with
  | nil => exact ⟨more, rfl⟩
  | cons t ts => exact ⟨more ++ separator ++ joined separator (t :: ts), rfl⟩

/-! ### The kinds of documents -/

theorem readsBack_null : ReadsBack null := by
  refine readsBack_of_succ fun steps rest _ _ => ?_
  have htext : render null ++ rest = ascii 'n' :: (asciiBytes "ull" ++ rest) := rfl
  rw [htext, value?, skipBlanks_cons (by decide)]
  dsimp only
  rw [if_pos rfl, afterWord?_append]
  rfl

theorem readsBack_bool (b : Bool) : ReadsBack (bool b) := by
  refine readsBack_of_succ fun steps rest _ _ => ?_
  cases b with
  | true =>
    have htext : render (bool true) ++ rest = ascii 't' :: (asciiBytes "rue" ++ rest) := rfl
    rw [htext, value?, skipBlanks_cons (by decide)]
    dsimp only
    rw [if_neg (by decide), if_pos rfl, afterWord?_append]
    rfl
  | false =>
    have htext : render (bool false) ++ rest = ascii 'f' :: (asciiBytes "alse" ++ rest) := rfl
    rw [htext, value?, skipBlanks_cons (by decide)]
    dsimp only
    rw [if_neg (by decide), if_neg (by decide), if_pos rfl, afterWord?_append]
    rfl

theorem readsBack_number {l : Bytes} (hl : IsNumber l) : ReadsBack (number l) := by
  refine readsBack_of_succ fun steps rest _ hrest => ?_
  have hread := numberLexeme?_append hl hrest
  obtain ⟨b, more, hblank, rfl, hb⟩ : ∃ b more, isBlank b = false ∧ l = b :: more ∧
      (b = ascii '-' ∨ isDigit b = true) := by
    obtain ⟨b, more, hl', hb⟩ := hl.start
    obtain ⟨c, more', hc, hblank, -⟩ := (WellFormed.number hl).start
    rw [render, hl'] at hc
    exact ⟨b, more, (List.cons.inj hc).1 ▸ hblank, hl', hb⟩
  -- a number starts like no other kind of document
  have hother (c : UInt8) (hc : c ≠ ascii '-') (hc' : isDigit c = false) : b ≠ c :=
    ne_of_starts hb hc hc'
  rw [render, List.cons_append, value?, skipBlanks_cons hblank]
  dsimp only
  rw [if_neg (hother _ (by decide) (by decide)), if_neg (hother _ (by decide) (by decide)),
    if_neg (hother _ (by decide) (by decide)), if_neg (hother _ (by decide) (by decide)),
    if_neg (hother _ (by decide) (by decide)), if_neg (hother _ (by decide) (by decide)),
    ← List.cons_append, hread]
  rfl

theorem readsBack_string {t : Bytes} (ht : IsString t) : ReadsBack (string t) := by
  refine readsBack_of_succ fun steps rest _ _ => ?_
  have htext : render (string t) ++ rest = ascii '"' :: (t ++ ascii '"' :: rest) := by
    simp [render]
  rw [htext, value?, skipBlanks_cons (by decide)]
  dsimp only
  rw [if_neg (by decide), if_neg (by decide), if_neg (by decide), if_pos rfl, ht]
  rfl

theorem readsBack_array {items : List Json} (hitems : ∀ j ∈ items, WellFormed j)
    (hread : ∀ j ∈ items, ReadsBack j) : ReadsBack (array items) := by
  refine readsBack_of_succ fun steps rest hsteps _ => ?_
  have htext : render (array items) ++ rest =
      ascii '[' :: (joined [ascii ','] (items.map render) ++ ascii ']' :: rest) := by
    simp [render, renderItems_eq]
  have hlen : (joined [ascii ','] (items.map render)).length + 1 < steps := by
    simp only [render, renderItems_eq, List.length_append, List.length_cons, List.length_nil] at hsteps
    omega
  rw [htext, value?, skipBlanks_cons (by decide)]
  dsimp only
  rw [if_neg (by decide), if_neg (by decide), if_neg (by decide), if_neg (by decide), if_pos rfl]
  cases items with
  | nil => rfl
  | cons j items =>
    obtain ⟨c, more, hc, hblank, hclose⟩ := (hitems j List.mem_cons_self).start
    have hread := items?_render (List.cons_ne_nil j items) hread hlen rest
    obtain ⟨tail, htail⟩ := joined_start [ascii ','] (items.map render) hc
    rw [List.map_cons, htail, List.cons_append] at hread ⊢
    rw [skipBlanks_cons hblank]
    dsimp only
    rw [if_neg hclose, hread]
    rfl

theorem readsBack_object {members : List (Bytes × Json)} (hnames : ∀ m ∈ members, IsString m.1)
    (hread : ∀ m ∈ members, ReadsBack m.2) : ReadsBack (object members) := by
  refine readsBack_of_succ fun steps rest hsteps _ => ?_
  have htext : render (object members) ++ rest =
      ascii '\x7b' :: (joined [ascii ','] (members.map memberText) ++ ascii '\x7d' :: rest) := by
    simp [render, renderMembers_eq]
  have hlen : (joined [ascii ','] (members.map memberText)).length + 1 < steps := by
    simp only [render, renderMembers_eq, List.length_append, List.length_cons, List.length_nil] at hsteps
    omega
  rw [htext, value?, skipBlanks_cons (by decide)]
  dsimp only
  rw [if_neg (by decide), if_neg (by decide), if_neg (by decide), if_neg (by decide), if_neg (by decide),
    if_pos rfl]
  cases members with
  | nil => rfl
  | cons m members =>
    have hread := members?_render (List.cons_ne_nil m members) hnames hread hlen rest
    have hquote : memberText m = ascii '"' :: (m.1 ++ [ascii '"', ascii ':'] ++ render m.2) := rfl
    obtain ⟨tail, htail⟩ := joined_start [ascii ','] (members.map memberText) hquote
    rw [List.map_cons, htail, List.cons_append] at hread ⊢
    rw [skipBlanks_cons (by decide)]
    dsimp only
    rw [if_neg (by decide), hread]
    rfl

/-- Every well-formed document is read back from its text. -/
theorem value?_render {j : Json} (h : WellFormed j) : ReadsBack j := by
  induction h with
  | null => exact readsBack_null
  | bool b => exact readsBack_bool b
  | number hl => exact readsBack_number hl
  | string ht => exact readsBack_string ht
  | array hitems ih => exact readsBack_array hitems ih
  | object hnames _ ih => exact readsBack_object hnames ih

/-- A well-formed document is read from its own text, and nothing is left. -/
theorem parse?_render {j : Json} (h : WellFormed j) : parse? (render j) = some j := by
  have hread := value?_render h ((render j).length + 1) [] (Nat.lt_succ_self _) delimited_nil
  rw [List.append_nil] at hread
  rw [parse?, hread]
  rfl

end RowGraph.Json
