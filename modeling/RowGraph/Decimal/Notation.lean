import RowGraph.Decimal.Shortest

/-!
# Writing numbers

The text of a number is its sign and its shortest decimal, laid out by a `Notation`: where the
positional form ends and the exponent form begins, and whether a whole number gets `.0`. The three
notations of this library are records here, next to the function that follows them.
-/

namespace RowGraph

/-- How the digits of a number are laid out. -/
structure NumberStyle where
  /-- Which of two equally near decimals is written. -/
  tie : Tie
  /-- The places of the decimal point, counted from the first digit, that are written positionally;
  all of them if absent. -/
  positional : Option (Int × Int)
  /-- Do whole numbers get `.0`? -/
  keepsPoint : Bool

namespace NumberStyle

/-- The text of a value: never an exponent, and no point in whole numbers. -/
def display : NumberStyle := ⟨.up, none, false⟩

/-- The stored text of a relation: numbers from `1e16` upwards and below `1e-5` have an exponent. -/
def stored : NumberStyle := ⟨.even, some (-4, 16), true⟩

/-- The text of a settings document: never an exponent, always a point. -/
def document : NumberStyle := ⟨.up, none, true⟩

/-- Zeros. -/
def zeros (n : Int) : List Char := List.replicate n.toNat '0'

/-- Digits with the decimal point after `place` of them. -/
def positionalDigits (style : NumberStyle) (digits : List Char) (place : Int) : List Char :=
  if place ≤ 0 then '0' :: '.' :: zeros (-place) ++ digits
  else if digits.length ≤ place then
    digits ++ zeros (place - digits.length) ++ (if style.keepsPoint then ['.', '0'] else [])
  else digits.take place.toNat ++ '.' :: digits.drop place.toNat

/-- An exponent with its sign. -/
def exponentText (e : Int) : List Char :=
  (if e < 0 then '-' else '+') :: Nat.toDigits 10 e.natAbs

/-- One digit before the point, then the exponent. -/
def exponentDigits (digits : List Char) (place : Int) : List Char :=
  let mantissa := match digits with
    | [] => []
    | [d] => [d]
    | d :: rest => d :: '.' :: rest
  mantissa ++ 'e' :: exponentText (place - 1)

/-- The digits of a decimal in a style. -/
def layOut (style : NumberStyle) (d : ShortDecimal) : List Char :=
  let digits := Nat.toDigits 10 d.digits
  let place := digits.length + d.exponent
  match style.positional with
  | none => style.positionalDigits digits place
  | some (first, last) =>
    if first ≤ place ∧ place ≤ last then style.positionalDigits digits place
    else exponentDigits digits place

/-- The text of a number without its sign; zero is written as a whole number. -/
def unsignedText (style : NumberStyle) (x : Binary64) : List Char :=
  if x.isNaN then "NaN".toList
  else if x.isInfinite then "inf".toList
  else if x.isZero then if style.keepsPoint then "0.0".toList else ['0']
  else style.layOut (Shortest.ofNumber style.tie x)

/-- The text of a number. A pattern that is not a number has no sign. -/
def text (style : NumberStyle) (x : Binary64) : String :=
  String.ofList <|
    if x.isNegative && !x.isNaN then '-' :: style.unsignedText x else style.unsignedText x

end NumberStyle

end RowGraph
