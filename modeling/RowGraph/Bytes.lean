/-!
# Byte strings

Keys, columns and stored values are byte strings, compared byte by byte from the front, a string
before its own extensions (the order of lists of bytes). Here are their hexadecimal text, numbers
written big-endian, the complement that reverses the order, and `nextAfter`, the least string above
every extension of a given one.
-/

namespace RowGraph

/-- A byte string. -/
abbrev Bytes := List UInt8

namespace Bytes

/-- Does `a` come before `b`? -/
def before (a b : Bytes) : Bool := compare a b == .lt

/-- The hexadecimal digit of a number below sixteen. -/
def hexDigit (n : Nat) : Char := Char.ofNat (if n < 10 then 48 + n else 87 + n)

/-- The two digits of a byte. -/
def hexByte (b : UInt8) : List Char := [hexDigit (b.toNat / 16), hexDigit (b.toNat % 16)]

/-- Two lower-case hexadecimal digits per byte. -/
def toHex (s : Bytes) : String := String.ofList (s.flatMap hexByte)

/-- The number of a hexadecimal digit, in either case. -/
def hexValue? (c : Char) : Option Nat :=
  if '0' ≤ c ∧ c ≤ '9' then some (c.toNat - 48)
  else if 'a' ≤ c ∧ c ≤ 'f' then some (c.toNat - 87)
  else if 'A' ≤ c ∧ c ≤ 'F' then some (c.toNat - 55)
  else none

/-- Reads pairs of hexadecimal digits. -/
def ofHexDigits : List Char → Option Bytes
  | [] => some []
  | [_] => none
  | a :: b :: rest => do
    let high ← hexValue? a
    let low ← hexValue? b
    let tail ← ofHexDigits rest
    return UInt8.ofNat (16 * high + low) :: tail

/-- Reads the text that `toHex` writes. -/
def ofHex? (s : String) : Option Bytes := ofHexDigits s.toList

/-- The last `width` base-256 digits of `n`, the most significant first. -/
def bigEndian : (width : Nat) → (n : Nat) → Bytes
  | 0, _ => []
  | width + 1, n => bigEndian width (n / 256) ++ [UInt8.ofNat n]

/-- The last `width` base-256 digits of `n`, the least significant first. -/
def littleEndian : (width : Nat) → (n : Nat) → Bytes
  | 0, _ => []
  | width + 1, n => UInt8.ofNat n :: littleEndian width (n / 256)

/-- The number whose base-256 digits are the bytes, the most significant first. -/
def ofBigEndian (s : Bytes) : Nat := s.foldl (fun n b => 256 * n + b.toNat) 0

/-- Every byte flipped, which turns the order around. -/
def complement (s : Bytes) : Bytes := s.map (~~~ ·)

/-- The least string above every string that starts with `s`: the last byte that is not `0xFF` is
raised and what follows it is dropped. A string of `0xFF` alone has nothing above its extensions. -/
def nextAfter : Bytes → Option Bytes
  | [] => none
  | b :: rest =>
    match nextAfter rest with
    | some up => some (b :: up)
    | none => if b = 0xFF then none else some [b + 1]

/-- The UTF-8 bytes of a text. -/
def ofText (s : String) : Bytes := s.toByteArray.data.toList

/-- The text whose UTF-8 bytes are given, if they are the bytes of one. -/
def toText? (s : Bytes) : Option String := String.fromUTF8? ⟨s.toArray⟩

end Bytes

end RowGraph
