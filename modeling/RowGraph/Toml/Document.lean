import RowGraph.Toml.Lexeme

/-!
# Settings documents

A document is a sequence of lines: a header opens a table, another kind of header adds a table to a
row of tables, and an assignment puts a value at a key below the table that was opened last. Keys
with dots make the tables on their way. A table is opened or made by dotted keys once only, and a
key is assigned once only; a document that does otherwise cannot be read.
-/

namespace RowGraph

/-- How a table came to be. -/
inductive Toml.Origin where
  /-- It was written in braces and is complete. -/
  | braces
  /-- A header opened it. -/
  | header
  /-- It lies on the way to a table that a header opened. -/
  | onTheWay
  /-- It lies on the way of a dotted key. -/
  | dottedKey
  deriving DecidableEq, Repr

/-- What a document holds. -/
inductive Toml where
  | text (s : String)
  | integer (i : Int)
  | real (x : Binary64)
  | flag (b : Bool)
  /-- A date, a time or both. -/
  | moment
  | array (items : List Toml)
  | table (origin : Toml.Origin) (entries : List (String × Toml))
  /-- A row of tables that headers opened. -/
  | tables (rows : List (List (String × Toml)))
  deriving Repr, Inhabited

namespace Toml

/-- What a table holds under its keys, in order. -/
abbrev Entries := List (String × Toml)

namespace Entries

/-- The entries with another value under a key that is there already. -/
def replace (entries : Entries) (key : String) (v : Toml) : Entries :=
  entries.map fun e => if e.1 = key then (key, v) else e

/-- A change of the table opened last in a row of tables. -/
def changeLast (rows : List Entries) (f : Entries → Option Entries) : Option (List Entries) :=
  match rows.getLast? with
  | none => none
  | some last => (f last).map fun changed => rows.dropLast ++ [changed]

/-- Puts a value at a dotted key. Only tables that dotted keys made can be added to in this way. -/
def assign (v : Toml) : List String → Entries → Option Entries
  | [], _ => none
  | [key], entries =>
    if (entries.lookup key).isSome then none else some (entries ++ [(key, v)])
  | key :: next :: rest, entries =>
    match entries.lookup key with
    | none => do
      let inner ← assign v (next :: rest) []
      return entries ++ [(key, .table .dottedKey inner)]
    | some (.table .dottedKey inner) => do
      let inner ← assign v (next :: rest) inner
      return entries.replace key (.table .dottedKey inner)
    | some (.table .onTheWay inner) =>
      if rest.isEmpty then none
      else do
        let inner ← assign v (next :: rest) inner
        return entries.replace key (.table .onTheWay inner)
    | some (.tables rows) =>
      if rest.isEmpty then none
      else do
        let rows ← changeLast rows (assign v (next :: rest))
        return entries.replace key (.tables rows)
    | some _ => none

/-- Changes what is at the path of a header, making the tables on the way. In a row of tables the
last one counts. -/
def change (f : Option Toml → Option Toml) : List String → Entries → Option Entries
  | [], _ => none
  | [key], entries => do
    let v ← f (entries.lookup key)
    return if (entries.lookup key).isSome then entries.replace key v else entries ++ [(key, v)]
  | key :: next :: rest, entries =>
    match entries.lookup key with
    | none => do
      let inner ← change f (next :: rest) []
      return entries ++ [(key, .table .onTheWay inner)]
    | some (.table .braces _) => none
    | some (.table origin inner) => do
      let inner ← change f (next :: rest) inner
      return entries.replace key (.table origin inner)
    | some (.tables rows) => do
      let rows ← changeLast rows (change f (next :: rest))
      return entries.replace key (.tables rows)
    | some _ => none

/-- Opens the table at a path. One that lay on the way to another may still be opened. -/
def openTable (path : List String) (entries : Entries) : Option Entries :=
  entries.change (fun
    | none => some (.table .header [])
    | some (.table .onTheWay inner) => some (.table .header inner)
    | some _ => none) path

/-- Adds a table to the row at a path. -/
def openRow (path : List String) (entries : Entries) : Option Entries :=
  entries.change (fun
    | none => some (.tables [[]])
    | some (.tables rows) => some (.tables (rows ++ [[]]))
    | some _ => none) path

/-- Puts a value at a dotted key below the table that a header opened; the root has no header. -/
def assignBelow (header key : List String) (v : Toml) (entries : Entries) : Option Entries :=
  if header.isEmpty then entries.assign v key
  else entries.change (fun
    | some (.table origin inner) => (assign v key inner).map (.table origin)
    | some (.tables rows) => (changeLast rows (assign v key)).map .tables
    | _ => none) header

end Entries

/-! ## Values -/

open Reader Lexeme

/-- A value without parts. -/
def scalar : Reader Toml :=
  .text <$> string <|> .flag <$> truth <|> (do Lexeme.moment; return .moment) <|>
    .real <$> Lexeme.real <|> .integer <$> Lexeme.integer

/-- The items of an array after its bracket. A comma may follow the last one. -/
def items (item : Reader Toml) : (most : Nat) → Reader (List Toml)
  | 0 => failure
  | most + 1 => do
    gap
    match ← optional item with
    | none =>
      literally "]"
      return []
    | some first =>
      gap
      if ← accepts (literally ",") then return first :: (← items item most)
      literally "]"
      return [first]

/-- A key and its value. -/
def assignment (value : Reader Toml) : Reader (List String × Toml) := do
  let path ← key
  literally "="
  blanks
  return (path, ← value)

/-- The assignments between braces, on one line. -/
def bracedAssignments (value : Reader Toml) : Reader (List (List String × Toml)) := do
  let part := assignment value <* blanks
  literally "\x7b"
  let first ← optional part
  let more ← if first.isSome then many (literally "," *> part) else pure []
  blanks
  literally "\x7d"
  return first.toList ++ more

/-- A table in braces. -/
def braced (value : Reader Toml) : Reader Toml := do
  let assignments ← bracedAssignments value
  match assignments.foldlM (fun entries a => Entries.assign a.2 a.1 entries) [] with
  | some entries => return .table .braces entries
  | none => failure

/-- A value that is nested at most so deep. -/
def value : (nesting : Nat) → Reader Toml
  | 0 => scalar
  | nesting + 1 => do
    match ← peek with
    | some '[' =>
      literally "["
      fun s => (.array <$> items (value nesting) (s.length + 1)) s
    | some '\x7b' => braced (value nesting)
    | _ => scalar

/-! ## Lines -/

/-- A line of a document. -/
inductive Line where
  | blank
  | table (path : List String)
  | row (path : List String)
  | assignment (path : List String) (v : Toml)
  deriving Repr, Inhabited

/-- A header between brackets. -/
def header (opening closing : String) : Reader (List String) := do
  literally opening
  let path ← key
  literally closing
  lineEnd
  return path

/-- A line with the end that it has. -/
def line : Reader Line := do
  blanks
  match ← peek with
  | none => failure
  | some '#' =>
    comment
    newline <|> atEnd
    return .blank
  | some '\n' =>
    newline
    return .blank
  | some '\r' =>
    newline
    return .blank
  | some '[' => .row <$> header "[[" "]]" <|> .table <$> header "[" "]"
  | some _ =>
    let (path, v) ← assignment (value deepest)
    lineEnd
    return .assignment path v

/-- All lines of a document. A mark of the byte order may come first. -/
def lines : Reader (List Line) := do
  let _ ← optional (literally "\ufeff")
  let all ← many line
  blanks
  return all

/-- What a document says so far, and the header that its assignments go below. -/
structure Draft where
  header : List String
  root : Entries
  deriving Inhabited

/-- The draft after one more line. -/
def Draft.add (d : Draft) : Line → Option Draft
  | .blank => some d
  | .table path => (d.root.openTable path).map (⟨path, ·⟩)
  | .row path => (d.root.openRow path).map (⟨path, ·⟩)
  | .assignment path v => (d.root.assignBelow d.header path v).map (⟨d.header, ·⟩)

/-- What a document holds at its root. -/
def read? (document : String) : Option Entries := do
  let all ← lines.whole? document
  let d ← all.foldlM Draft.add ⟨[], []⟩
  return d.root

/-! ## Parts -/

/-- The text of a string. -/
def text? : Toml → Option String
  | text s => some s
  | _ => none

/-- A whole number that is not negative. -/
def natural? : Toml → Option Nat
  | integer i => if 0 ≤ i then some i.toNat else none
  | _ => none

/-- A number of either kind. -/
def real? : Toml → Option Binary64
  | real x => some x
  | integer i => some (.ofInt i)
  | _ => none

/-- A truth value. -/
def flag? : Toml → Option Bool
  | flag b => some b
  | _ => none

/-- The parts of a section whose keys are known: those of a table, or the items of an array one
after another. A date counts as a section without parts. -/
def parts? (keys : List String) : Toml → Option Entries
  | table _ entries => some entries
  | array items => some (keys.zip items)
  | tables rows => some (keys.zip (rows.map (table .header)))
  | moment => some []
  | _ => none

end Toml

end RowGraph
