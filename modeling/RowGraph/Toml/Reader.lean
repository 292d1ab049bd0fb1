/-!
# Readers

A reader takes characters off the front of a text and makes something of them, or fails. A reader
that fails takes nothing, so that another one can be tried in its place.
-/

namespace RowGraph

namespace Toml

/-- What is left of a text changes as it is read; reading may fail. -/
abbrev Reader (α : Type) := StateT (List Char) Option α

namespace Reader

variable {α : Type}

/-- The next character, which is left where it is. -/
def peek : Reader (Option Char) := fun s => some (s.head?, s)

/-- Takes a character of a class. -/
def char (p : Char → Bool) : Reader Char
  | [] => none
  | c :: rest => if p c then some (c, rest) else none

/-- Takes all characters of a class that come next, perhaps none. -/
def span (p : Char → Bool) : Reader (List Char) := fun s => some (s.takeWhile p, s.dropWhile p)

/-- Takes exactly these characters. -/
def literally (text : String) : Reader Unit := fun s =>
  if text.toList.isPrefixOf s then some ((), s.drop text.length) else none

/-- Succeeds only at the end of the text. -/
def atEnd : Reader Unit := fun s => if s.isEmpty then some ((), s) else none

/-- Reads at most `most` times, until reading fails. -/
def upTo (p : Reader α) : (most : Nat) → Reader (List α)
  | 0 => return []
  | most + 1 => do
    match ← optional p with
    | none => return []
    | some a => return a :: (← upTo p most)

/-- Reads again and again until reading fails. The reader has to take at least one character every
time, so that the text bounds how often this is. -/
def many (p : Reader α) : Reader (List α) := fun s => upTo p s.length s

/-- Reads a number of times. -/
def times (p : Reader α) : (n : Nat) → Reader (List α)
  | 0 => return []
  | n + 1 => do return (← p) :: (← times p n)

/-- Reads something that may be missing; did it come? -/
def accepts (p : Reader Unit) : Reader Bool := do return (← optional p).isSome

/-- Reads a whole text. -/
def whole? (p : Reader α) (text : String) : Option α :=
  (do
    let a ← p
    atEnd
    return a : Reader α).run' text.toList

end Reader

end Toml

end RowGraph
