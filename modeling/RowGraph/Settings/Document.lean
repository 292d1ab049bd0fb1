import RowGraph.Settings
import RowGraph.Toml.Document
import RowGraph.Toml.Quoting

/-!
# Settings as documents

A document has a section for queries, for locks and for retries. What it leaves out stays at its
default and what it says beyond the known keys is passed over. A document that cannot be read is
refused before its settings are looked at.
-/

namespace RowGraph

namespace Settings

/-- The keys of a section, in the order in which they are written. -/
def queryKeys : List String := ["hard_max_limit", "partition_dedup", "restrict_to_partitions"]

/-- The keys of the section on locks. -/
def lockKeys : List String := ["lock_store_suffix", "lock_expiry_ms"]

/-- The keys of the section on retries. -/
def retryKeys : List String := ["base_wait_ms", "jitter", "read_wait_ms", "write_wait_ms"]

/-- What is under a key; absent if there is something that does not suit. -/
def part? {α : Type} (entries : Toml.Entries) (key : String) (read : Toml → Option α) :
    Option (Option α) :=
  match entries.lookup key with
  | none => some none
  | some v => (read v).map some

/-- The parts of a section, none if the document has no such section. -/
def section? (root : Toml.Entries) (name : String) (keys : List String) : Option Toml.Entries := do
  let found ← part? root name (Toml.parts? keys)
  return found.getD []

/-- What a document changes. -/
def changeOf? (root : Toml.Entries) : Option Change := do
  let query ← section? root "query" queryKeys
  let locks ← section? root "locking" lockKeys
  let retry ← section? root "retry" retryKeys
  return {
    hardMaxLimit := ← part? query "hard_max_limit" Toml.natural?
    partitionDedup := ← part? query "partition_dedup" Toml.flag?
    restrictToPartitions := ← part? query "restrict_to_partitions" Toml.flag?
    lockSuffix := ← part? locks "lock_store_suffix" Toml.text?
    lockExpiryMillis := ← part? locks "lock_expiry_ms" Toml.natural?
    baseWaitMillis := ← part? retry "base_wait_ms" Toml.natural?
    jitter := ← part? retry "jitter" Toml.real?
    readWaitMillis := ← part? retry "read_wait_ms" Toml.natural?
    writeWaitMillis := ← part? retry "write_wait_ms" Toml.natural? }

/-- The settings that a document gives, if they can be worked with. -/
def ofDocument (document : String) : Outcome Settings :=
  match (Toml.read? document).bind changeOf? with
  | none => .error (.document "the document cannot be read")
  | some change => do
    let s := defaults.changed change
    s.validate
    return s

/-- A section with its assignments. -/
def sectionText (name : String) (assignments : List (String × String)) : String :=
  "[" ++ name ++ "]\n" ++
    String.join (assignments.map fun a => a.1 ++ " = " ++ a.2 ++ "\n")

/-- The document of settings; absent if a number is too large for one. -/
def document? (s : Settings) : Option String := do
  let query := sectionText "query" (queryKeys.zip [
    ← Toml.Quoting.ofNat? s.query.hardMaxLimit,
    Toml.Quoting.ofFlag s.query.partitionDedup,
    Toml.Quoting.ofFlag s.query.restrictToPartitions])
  let locks := sectionText "locking" (lockKeys.zip [
    Toml.Quoting.ofText s.locks.suffix,
    ← Toml.Quoting.ofNat? s.locks.expiryMillis])
  let retry := sectionText "retry" (retryKeys.zip [
    ← Toml.Quoting.ofNat? s.retry.baseWaitMillis,
    Toml.Quoting.ofReal s.retry.jitter,
    ← Toml.Quoting.ofNat? s.retry.readWaitMillis,
    ← Toml.Quoting.ofNat? s.retry.writeWaitMillis])
  return "\n".intercalate [query, locks, retry]

/-- The document of settings. -/
def toDocument (s : Settings) : Outcome String :=
  match s.document? with
  | none => .error (.document "a number is too large for a document")
  | some document => .ok document

/-- The document of settings, and whether it gives them back. -/
def roundTrip (s : Settings) : Outcome (String × Bool) := do
  let document ← s.toDocument
  let again ← ofDocument document
  return (document, decide (again = s))

end Settings

end RowGraph
