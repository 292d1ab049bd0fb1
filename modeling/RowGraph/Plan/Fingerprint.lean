import RowGraph.Digest.Xxh64
import RowGraph.Plan.Compiled

/-!
# Fingerprints

A compiled query is told apart from others by the digest of its description in bytes: numbers are
written least significant byte first, and a list of unbounded length is preceded by its length.
-/

namespace RowGraph

namespace Fingerprint

/-- A number in one byte. -/
def byte (n : Nat) : Bytes := [UInt8.ofNat n]

/-- A number in four bytes. -/
def short (n : Nat) : Bytes := Bytes.littleEndian 4 n

/-- A number in eight bytes. -/
def long (n : Nat) : Bytes := Bytes.littleEndian 8 n

/-- A truth value in one byte. -/
def flag (b : Bool) : Bytes := byte b.toNat

/-- The place of a direction. -/
def ofDirection : Direction → Nat
  | .out => 0
  | .into => 1
  | .both => 2

/-- The place of a sort order. -/
def ofSortOrder : SortOrder → Nat
  | .asc => 0
  | .desc => 1

/-- The place of a comparison. -/
def ofComparison : Comparison → Nat
  | .eq => 0
  | .ne => 1
  | .lt => 2
  | .le => 3
  | .gt => 4
  | .ge => 5

/-- The place of a category. -/
def ofCategory : Category → Nat
  | .edge => 0
  | .property => 1
  | .relation => 2

/-- An optional part. -/
def optional (part : Option Bytes) : Bytes :=
  match part with
  | none => long 0
  | some s => long 1 ++ s

/-- A list of types. -/
def ofTypes (types : List TypeId) : Bytes :=
  long types.length ++ types.flatMap fun t => short t.val.toNat

/-- A value. -/
def ofValue (v : Value) : Bytes :=
  long v.kind.place ++ match v with
    | .bool b => flag b
    | .int i => long i.toUInt64.toNat
    | .float x => long x.bits.toNat
    | .string s => Bytes.ofText s ++ byte 0xFF
    | .vertex v => long v.val.toNat

mutual

/-- A condition. -/
def ofCondition : Condition → Bytes
  | .and cs => long 0 ++ long cs.length ++ ofConditions cs
  | .or cs => long 1 ++ long cs.length ++ ofConditions cs
  | .predicate key comparison value =>
    long 2 ++ short key.val.toNat ++ long (ofComparison comparison) ++ optional (value.map ofValue)
  | .category c => long 3 ++ long (ofCategory c)
  | .visibility system => long 4 ++ flag system
  | .relationType types => long 5 ++ ofTypes types
  | .direction v d => long 6 ++ long v.val.toNat ++ long (ofDirection d)
  | .incidence v adjacent => long 7 ++ long v.val.toNat ++ long adjacent.val.toNat

/-- Conditions one after another. -/
def ofConditions : List Condition → Bytes
  | [] => []
  | c :: cs => ofCondition c ++ ofConditions cs

end

/-- A read; one without a limit has the greatest. -/
def ofRead (r : PlannedRead) : Bytes :=
  r.slice.start ++ r.slice.stop ++ long (r.slice.limit.getD ReadLimit.most) ++
    byte (r.fitted.toNat + 2 * r.ordered.toNat)

/-- An order of results. -/
def ofOrder (o : ResultOrder) : Bytes :=
  ofTypes o.keys ++ optional (o.direction.map fun d => long (ofSortOrder d))

/-- A compiled query. -/
def ofQuery (q : CompiledQuery) : Bytes :=
  byte (ofDirection q.direction) ++ long q.limit ++ short q.reads.length ++
    q.reads.flatMap ofRead ++ ofOrder q.order ++ ofCondition q.condition

end Fingerprint

/-- The fingerprint of a compiled query. -/
def CompiledQuery.fingerprint (q : CompiledQuery) : UInt64 :=
  Xxh64.digest 0 (Fingerprint.ofQuery q)

end RowGraph
