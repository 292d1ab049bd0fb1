import RowGraph.Bytes

/-!
# The XXH64 digest

A digest of 64 bits. Four lanes take in stripes of 32 bytes, eight bytes each; what is left is mixed
in by words of eight and four bytes and at last byte by byte. Numbers are read least significant
byte first.
-/

namespace RowGraph.Xxh64

/-- The first multiplier. -/
def prime1 : UInt64 := 0x9E3779B185EBCA87

/-- The second multiplier. -/
def prime2 : UInt64 := 0xC2B2AE3D27D4EB4F

/-- The third multiplier. -/
def prime3 : UInt64 := 0x165667B19E3779F9

/-- The fourth multiplier. -/
def prime4 : UInt64 := 0x85EBCA77C2B2AE63

/-- The fifth multiplier. -/
def prime5 : UInt64 := 0x27D4EB2F165667C5

/-- A word turned left by `n` bits, for `n` from 1 to 63. -/
def turned (x : UInt64) (n : UInt64) : UInt64 := (x <<< n) ||| (x >>> (64 - n))

/-- The number of the first `width` bytes. -/
def word (width : Nat) (s : Bytes) : UInt64 :=
  UInt64.ofNat (Bytes.ofBigEndian (s.take width).reverse)

/-- A lane after a word. -/
def round (lane input : UInt64) : UInt64 := turned (lane + input * prime2) 31 * prime1

/-- The four lanes. -/
structure Lanes where
  first : UInt64
  second : UInt64
  third : UInt64
  fourth : UInt64
  deriving DecidableEq, Repr

namespace Lanes

/-- The lanes at the start. -/
def initial (seed : UInt64) : Lanes :=
  ⟨seed + prime1 + prime2, seed + prime2, seed, seed - prime1⟩

/-- The lanes after the first stripe of the bytes. -/
def stripe (l : Lanes) (s : Bytes) : Lanes :=
  ⟨round l.first (word 8 s), round l.second (word 8 (s.drop 8)),
    round l.third (word 8 (s.drop 16)), round l.fourth (word 8 (s.drop 24))⟩

/-- One lane mixed into a digest. -/
def merge (acc lane : UInt64) : UInt64 := (acc ^^^ round 0 lane) * prime1 + prime4

/-- The digest of the lanes. -/
def digest (l : Lanes) : UInt64 :=
  let acc := turned l.first 1 + turned l.second 7 + turned l.third 12 + turned l.fourth 18
  merge (merge (merge (merge acc l.first) l.second) l.third) l.fourth

end Lanes

/-- The lanes after all whole stripes, and the bytes that are left. -/
def stripes (l : Lanes) (s : Bytes) : Lanes × Bytes :=
  if 32 ≤ s.length then stripes (l.stripe s) (s.drop 32) else (l, s)
termination_by s.length
decreasing_by simp only [List.length_drop]; omega

/-- Mixes in the last bytes one by one. -/
def mixBytes (acc : UInt64) : Bytes → UInt64
  | [] => acc
  | b :: rest => mixBytes (turned (acc ^^^ (b.toUInt64 * prime5)) 11 * prime1) rest

/-- Mixes in a word of four bytes, if there is one, and what follows it. -/
def mixShort (acc : UInt64) (s : Bytes) : UInt64 :=
  if 4 ≤ s.length then
    mixBytes (turned (acc ^^^ (word 4 s * prime1)) 23 * prime2 + prime3) (s.drop 4)
  else mixBytes acc s

/-- Mixes in what the stripes left. -/
def mixRest (acc : UInt64) (s : Bytes) : UInt64 :=
  if 8 ≤ s.length then
    mixRest (turned (acc ^^^ round 0 (word 8 s)) 27 * prime1 + prime4) (s.drop 8)
  else mixShort acc s
termination_by s.length
decreasing_by simp only [List.length_drop]; omega

/-- Spreads every bit over the whole word. -/
def avalanche (acc : UInt64) : UInt64 :=
  let acc := (acc ^^^ (acc >>> 33)) * prime2
  let acc := (acc ^^^ (acc >>> 29)) * prime3
  acc ^^^ (acc >>> 32)

/-- The digest of a byte string. -/
def digest (seed : UInt64) (s : Bytes) : UInt64 :=
  let (lanes, rest) := stripes (.initial seed) s
  let start := if 32 ≤ s.length then lanes.digest else seed + prime5
  avalanche (mixRest (start + UInt64.ofNat s.length) rest)

end RowGraph.Xxh64
