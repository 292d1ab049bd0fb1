import RowGraph.Json.Tree
import RowGraph.Decimal.Binary64
import RowGraph.Word

/-!
# What the lexemes of a JSON document stand for

Strings: escapes are written for the quote, the backslash and control characters only; all escapes
are read. Numbers: a spelling without point and exponent that fits 64 bits is a whole number, any
other is a floating-point number. That number is found from the digits that fit 64 bits and one
multiplication or division by a power of ten, so that it may miss the nearest one by a little when
there are more than fifteen digits.
-/

namespace RowGraph.Json

/-! ## Strings -/

/-- A byte of a text between quotes. -/
def escapeByte (b : UInt8) : Bytes :=
  if b = ascii '"' then asciiBytes "\\\""
  else if b = ascii '\\' then asciiBytes "\\\\"
  else if b = 8 then asciiBytes "\\b"
  else if b = 12 then asciiBytes "\\f"
  else if b = 10 then asciiBytes "\\n"
  else if b = 13 then asciiBytes "\\r"
  else if b = 9 then asciiBytes "\\t"
  else if b < 0x20 then asciiBytes "\\u00" ++ (Bytes.hexByte b).map ascii
  else [b]

/-- A text as a string. -/
def ofText (s : String) : Json := string ((Bytes.ofText s).flatMap escapeByte)

/-- The byte that an escape letter stands for. -/
def escapeLetter? (e : UInt8) : Option UInt8 :=
  if e = ascii '"' ∨ e = ascii '\\' ∨ e = ascii '/' then some e
  else if e = ascii 'b' then some 8
  else if e = ascii 'f' then some 12
  else if e = ascii 'n' then some 10
  else if e = ascii 'r' then some 13
  else if e = ascii 't' then some 9
  else none

/-- The number of four hexadecimal digits. -/
def hexNumber? (a b c d : UInt8) : Option Nat := do
  let a ← hexValue? a
  let b ← hexValue? b
  let c ← hexValue? c
  let d ← hexValue? d
  return ((a * 16 + b) * 16 + c) * 16 + d

/-- The code point of two surrogates. -/
def surrogatePair? (high low : Nat) : Option Nat :=
  if 0xD800 ≤ high ∧ high ≤ 0xDBFF ∧ 0xDC00 ≤ low ∧ low ≤ 0xDFFF then
    some (0x10000 + (high - 0xD800) * 0x400 + (low - 0xDC00))
  else none

/-- The bytes that an escaped text stands for. A surrogate needs its partner. -/
def unescape? : Bytes → Option Bytes
  | [] => some []
  | b :: rest =>
    if b ≠ ascii '\\' then (unescape? rest).map (b :: ·)
    else match rest with
      | [] => none
      | e :: more =>
        if e = ascii 'u' then
          match more with
          | a :: b :: c :: d :: after =>
            match hexNumber? a b c d with
            | none => none
            | some n =>
              if n < 0xD800 ∨ 0xDFFF < n then
                (unescape? after).map (String.utf8EncodeChar (Char.ofNat n) ++ ·)
              else match after with
                | s :: u :: a' :: b' :: c' :: d' :: last =>
                  if s = ascii '\\' ∧ u = ascii 'u' then
                    match (hexNumber? a' b' c' d').bind (surrogatePair? n) with
                    | none => none
                    | some p => (unescape? last).map (String.utf8EncodeChar (Char.ofNat p) ++ ·)
                  else none
                | _ => none
          | _ => none
        else match escapeLetter? e with
          | none => none
          | some b => (unescape? more).map (b :: ·)

/-- The text of what stands between quotes. -/
def lexemeText? (escaped : Bytes) : Option String := (unescape? escaped).bind Bytes.toText?

/-- The text of a string. -/
def text? : Json → Option String
  | string escaped => lexemeText? escaped
  | _ => none

/-! ## Numbers -/

/-- A number as its spelling tells. -/
inductive Number where
  /-- Without sign, point and exponent, below `2 ^ 64`. -/
  | natural (n : Nat)
  /-- Below zero, without point and exponent, not below `-2 ^ 63`. -/
  | negative (n : Nat)
  /-- Any other. -/
  | real (x : Binary64)
  deriving DecidableEq, Repr

/-- A whole number. -/
def ofNat (n : Nat) : Json := number ((Nat.toDigits 10 n).map ascii)

/-- A whole number with its sign. -/
def ofInt (i : Int) : Json :=
  number ((if i < 0 then [ascii '-'] else []) ++ (Nat.toDigits 10 i.natAbs).map ascii)

/-- The value of a digit. -/
def digitValue (b : UInt8) : Nat := b.toNat - 48

/-- The number of digits in base ten. -/
def digitsValue (ds : Bytes) : Nat := ds.foldl (fun n d => 10 * n + digitValue d) 0

/-- Takes in digits as long as the number stays below `2 ^ 64`; the others are left. -/
def absorb (n : Nat) : Bytes → Nat × Bytes
  | [] => (n, [])
  | d :: ds =>
    if 10 * n + digitValue d < Word.bound64 then absorb (10 * n + digitValue d) ds else (n, d :: ds)

/-- The floating-point number nearest to a power of ten. -/
def powerOfTen (k : Nat) : Binary64 := .ofNat (Nat.pow 10 k)

/-- Divides by a power of ten in strides of 308 places; zero stays zero. -/
def shiftDown (x : Binary64) (k : Nat) : (strides : Nat) → Binary64
  | 0 => x.div (powerOfTen k)
  | strides + 1 =>
    if k ≤ 308 then x.div (powerOfTen k)
    else if x.isZero then x
    else shiftDown (x.div (powerOfTen 308)) (k - 308) strides

/-- The floating-point number for `n * 10 ^ e`; none if it is too large for one. -/
def scaled? (n : Nat) (e : Int) : Option Binary64 :=
  let x := Binary64.ofNat n
  if e < 0 then some (shiftDown x e.natAbs (e.natAbs / 308))
  else if e ≤ 308 then
    let y := x.mul (powerOfTen e.natAbs)
    if y.isInfinite then none else some y
  else if x.isZero then some x
  else none

/-- The parts of a spelling. -/
structure Spelling where
  negative : Bool
  whole : Bytes
  /-- The digits after the point. -/
  fraction : Bytes
  /-- Is there an exponent? -/
  hasExponent : Bool
  exponentNegative : Bool
  /-- The digits of the exponent. -/
  exponent : Bytes
  deriving DecidableEq, Repr

/-- Takes the spelling of a number apart. -/
def spelling (lexeme : Bytes) : Spelling :=
  let (negative, s₀) := match lexeme with
    | [] => (false, [])
    | b :: rest => if b = ascii '-' then (true, rest) else (false, lexeme)
  let (whole, s₁) := spanDigits s₀
  let (fraction, s₂) := match s₁ with
    | [] => ([], [])
    | b :: rest => if b = ascii '.' then spanDigits rest else ([], s₁)
  match s₂ with
  | [] => ⟨negative, whole, fraction, false, false, []⟩
  | _ :: rest =>
    let (sign, digits) := exponentSign rest
    ⟨negative, whole, fraction, true, sign == [ascii '-'], digits⟩

/-- The floating-point number of a spelling; none if it is too large for one. An exponent beyond
`2 ^ 31` makes everything but zero too large or vanish. -/
def Spelling.real? (s : Spelling) : Option Binary64 :=
  let (n₀, left) := absorb 0 s.whole
  let (n, ignored) := absorb n₀ s.fraction
  let shift : Int := (left.length : Int) - ((s.fraction.length - ignored.length : Nat) : Int)
  let e := digitsValue s.exponent
  let x? :=
    if e < Word.bound31 then scaled? n (if s.exponentNegative then shift - e else shift + e)
    else if s.exponentNegative ∨ n = 0 then some (.ofNat 0)
    else none
  x?.map fun x => if s.negative then x.negate else x

/-- What a spelling stands for. -/
def number? (lexeme : Bytes) : Option Number :=
  let s := spelling lexeme
  let n := digitsValue s.whole
  if s.fraction = [] ∧ !s.hasExponent ∧ n < Word.bound64 then
    if !s.negative then some (.natural n)
    else if 1 ≤ n ∧ n ≤ Word.bound63 then some (.negative n)
    else some (.real (Binary64.ofNat n).negate)
  else s.real?.map .real

/-- The natural number below `bound` that a value is. -/
def nat? (bound : Nat) : Json → Option Nat
  | number lexeme =>
    match number? lexeme with
    | some (.natural n) => if n < bound then some n else none
    | _ => none
  | _ => none

/-- The signed 64-bit number that a value is. -/
def int64? : Json → Option Int64
  | number lexeme =>
    match number? lexeme with
    | some (.natural n) => if n < Word.bound63 then some (Int64.ofNat n) else none
    | some (.negative n) => some (Int64.ofInt (-n))
    | _ => none
  | _ => none

/-- The floating-point number that a value is; whole numbers are rounded. -/
def float? : Json → Option Binary64
  | number lexeme =>
    match number? lexeme with
    | some (.natural n) => some (.ofNat n)
    | some (.negative n) => some (.ofInt (-n))
    | some (.real x) => some x
    | none => none
  | _ => none

end RowGraph.Json
