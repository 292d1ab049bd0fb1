import RowGraph.Value
import RowGraph.Terms
import RowGraph.Failure
import RowGraph.Word

/-!
# Values in column keys

The encoding of optional values whose byte order is the order of the values. A tag names the kind;
numbers are written big-endian, shifted so that negative ones come first; in a text a zero byte is
written as `00 FF` and the text ends with `00 00`, so that no encoding starts another. An absent
value is the single greatest byte. In descending order every byte is flipped.
-/

namespace RowGraph.Key

/-- The byte of an absent value. -/
def absentTag : UInt8 := 0xFF

/-- The byte that starts a value of a kind. -/
def tag : ValueKind → UInt8
  | .bool => 0x10
  | .int => 0x20
  | .float => 0x30
  | .string => 0x40
  | .vertex => 0x50

/-- Eight bytes of a number below `2 ^ 64`. -/
def ofNat64 (n : Nat) : Bytes := Bytes.bigEndian 8 n

/-- Eight bytes of a signed number: the smallest one is all zeros. -/
def ofInt (i : Int64) : Bytes := ofNat64 (i.toInt + Word.bound63).toNat

/-- The place of a bit pattern among all patterns as a number: negative patterns are flipped, the
others come after them. -/
def floatPlace (x : Binary64) : Nat :=
  if x.isNegative then Word.bound64 - 1 - x.bits.toNat else x.bits.toNat + Word.bound63

/-- The pattern at a place. -/
def floatAt (n : Nat) : Binary64 :=
  ⟨UInt64.ofNat (if Word.bound63 ≤ n then n - Word.bound63 else Word.bound64 - 1 - n)⟩

/-- Eight bytes of a floating-point number. -/
def ofFloat (x : Binary64) : Bytes := ofNat64 (floatPlace x)

/-- A byte of a text. -/
def escapeByte (b : UInt8) : Bytes := if b = 0 then [0, 0xFF] else [b]

/-- A text: its bytes with zeros escaped, and the end mark. -/
def ofText (s : String) : Bytes := (Bytes.ofText s).flatMap escapeByte ++ [0, 0]

/-- A value, ascending. -/
def ofValue : Value → Bytes
  | .bool b => [tag .bool, if b then 1 else 0]
  | .int i => tag .int :: ofInt i
  | .float x => tag .float :: ofFloat x
  | .string s => tag .string :: ofText s
  | .vertex v => tag .vertex :: ofNat64 v.val.toNat

/-- Bytes in a sort order. -/
def inOrder : SortOrder → Bytes → Bytes
  | .asc, s => s
  | .desc, s => s.complement

/-- The encoding of an optional value in a sort order. -/
def encode (v : Option Value) (order : SortOrder) : Bytes :=
  inOrder order (match v with
    | some v => ofValue v
    | none => [absentTag])

/-- Values encoded one after another, each in its sort order. -/
def encodeAll (orders : List SortOrder) (values : List (Option Value)) : Bytes :=
  (List.zipWith encode values orders).flatten

/-! ## Reading -/

/-- The bytes end before `what` does. -/
def truncated (what : String) : Failure := .corruption (what ++ " truncated")

/-- Reads a fixed number of bytes as a number, and what follows them. -/
def takeNat (width : Nat) (what : String) (s : Bytes) : Outcome (Nat × Bytes) :=
  if s.length < width then .error (truncated what)
  else .ok (Bytes.ofBigEndian (s.take width), s.drop width)

/-- Reads eight bytes as a number. -/
def takeNat64 (s : Bytes) : Outcome (Nat × Bytes) := takeNat 8 "u64" s

/-- Reads four bytes as a number. -/
def takeNat32 (s : Bytes) : Outcome (Nat × Bytes) := takeNat 4 "u32" s

/-- Reads a signed number. -/
def takeInt (s : Bytes) : Outcome (Int64 × Bytes) := do
  let (n, rest) ← takeNat64 s
  return (Int64.ofInt ((n : Int) - Word.bound63), rest)

/-- Reads a floating-point number. -/
def takeFloat (s : Bytes) : Outcome (Binary64 × Bytes) := do
  let (n, rest) ← takeNat64 s
  return (floatAt n, rest)

/-- A byte as `0x` and two digits. -/
def byteText (b : UInt8) : String := "0x" ++ String.ofList (Bytes.hexByte b)

/-- Reads the bytes of a text up to its end mark. -/
def takeEscaped : Bytes → Outcome (Bytes × Bytes)
  | [] => .error (truncated "string key")
  | [_] => .error (truncated "string key")
  | b :: c :: rest =>
    if b ≠ 0 then do
      let (tail, after) ← takeEscaped (c :: rest)
      return (b :: tail, after)
    else if c = 0 then .ok ([], rest)
    else if c = 0xFF then do
      let (tail, after) ← takeEscaped rest
      return (0 :: tail, after)
    else .error (.corruption ("invalid string escape byte " ++ byteText c))

/-- Reads a text. -/
def takeText (s : Bytes) : Outcome (String × Bytes) := do
  let (bytes, rest) ← takeEscaped s
  match Bytes.toText? bytes with
  | some text => return (text, rest)
  | none => throw (.corruption "string key not UTF-8")

/-- Reads an optional value written ascending, and what follows it. Any byte but zero is true. -/
def decodeAsc : Bytes → Outcome (Option Value × Bytes)
  | [] => .error (truncated "value tag")
  | t :: rest =>
    if t = absentTag then .ok (none, rest)
    else if t = tag .bool then
      match rest with
      | [] => .error (truncated "bool value")
      | b :: after => .ok (some (.bool (b != 0)), after)
    else if t = tag .int then do
      let (i, after) ← takeInt rest
      return (some (.int i), after)
    else if t = tag .float then do
      let (x, after) ← takeFloat rest
      return (some (.float x), after)
    else if t = tag .string then do
      let (s, after) ← takeText rest
      return (some (.string s), after)
    else if t = tag .vertex then do
      let (n, after) ← takeNat64 rest
      return (some (.vertex ⟨UInt64.ofNat n⟩), after)
    else .error (.corruption ("unknown value tag " ++ byteText t))

/-- Reads an optional value in a sort order, and what follows it. -/
def decode (order : SortOrder) (s : Bytes) : Outcome (Option Value × Bytes) :=
  match order with
  | .asc => decodeAsc s
  | .desc => do
    let (v, rest) ← decodeAsc s.complement
    return (v, rest.complement)

/-- Reads an optional value from an offset on, and the offset after it. -/
def decodeAt (order : SortOrder) (s : Bytes) (offset : Nat) : Outcome (Option Value × Nat) := do
  let (v, rest) ← decode order (s.drop offset)
  return (v, s.length - rest.length)

/-- Reads values one after another, each in its sort order and with what follows it. -/
def decodeAll : List SortOrder → Bytes → Outcome (List (Option Value × Bytes))
  | [], _ => .ok []
  | order :: orders, s => do
    let (v, rest) ← decode order s
    return (v, rest) :: (← decodeAll orders rest)

/-- The least key above every extension of a key. -/
def successor (s : Bytes) : Outcome Bytes :=
  match s.nextAfter with
  | some up => .ok up
  | none => .error (.corruption "key prefix has no successor")

end RowGraph.Key
