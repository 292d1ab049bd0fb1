import RowGraph.Bytes
import RowGraph.Decimal.Notation
import RowGraph.Word

/-!
# Writing settings documents

How a text and a number are written so that reading gives them back. A text is written in the first
of several forms that needs no escapes: in double quotes, in single quotes, over lines in three
double quotes, over lines in three single quotes. If none of them will do it is escaped.
-/

namespace RowGraph

namespace Toml.Quoting

/-- The length of the longest run of a character. -/
def longestRun (c : Char) (s : List Char) : Nat :=
  (s.foldl (fun (longest, run) d =>
    let run := if d = c then run + 1 else 0
    (max longest run, run)) (0, 0)).1

/-- A character that no form holds as it is. -/
def needsNumber (c : Char) : Bool := (c < ' ' && c != '\t' && c != '\n') || c == '\x7f'

/-- A character by its number. -/
def numberText (c : Char) : List Char :=
  ['\\', 'u', '0', '0'] ++ (Bytes.hexByte (UInt8.ofNat c.toNat)).map Char.toUpper

/-- A character in an escaped text. -/
def escaped (overLines : Bool) (c : Char) : List Char :=
  if c = '\x08' then ['\\', 'b']
  else if c = '\t' then ['\\', 't']
  else if c = '\n' then if overLines then ['\n'] else ['\\', 'n']
  else if c = '\x0c' then ['\\', 'f']
  else if c = '\r' then ['\\', 'r']
  else if c = '\\' then ['\\', '\\']
  else if needsNumber c then numberText c
  else [c]

/-- A text between double quotes in which `room` quotes may follow each other after a run of `run`
quotes; the next one is escaped. -/
def escapedText (overLines : Bool) (room : Nat) : (run : Nat) → List Char → List Char
  | _, [] => []
  | run, '"' :: rest =>
    if run < room then '"' :: escapedText overLines room (run + 1) rest
    else '\\' :: '"' :: escapedText overLines room 0 rest
  | _, c :: rest => escaped overLines c ++ escapedText overLines room 0 rest

/-- A text in double quotes on one line. -/
def basicText (s : List Char) : List Char := '"' :: escapedText false 0 0 s ++ ['"']

/-- Three quotes, and a line end if the text has one. -/
def opening (quote : Char) (s : List Char) : List Char :=
  [quote, quote, quote] ++ if s.contains '\n' then ['\n'] else []

/-- A text over lines in three double quotes. -/
def basicBlock (s : List Char) : List Char :=
  opening '"' s ++ escapedText true 2 0 s ++ ['"', '"', '"']

/-- A text in the form that suits it. -/
def ofChars (s : List Char) : List Char :=
  let numbered := s.any needsNumber
  let backslash := s.contains '\\'
  let lines := s.contains '\n'
  let double := longestRun '"' s
  let single := longestRun '\'' s
  if !numbered && !backslash && double == 0 && !lines then basicText s
  else if !numbered && single == 0 && !lines then '\'' :: s ++ ['\'']
  else if !numbered && !backslash && double ≤ 2 then basicBlock s
  else if !numbered && single ≤ 2 then opening '\'' s ++ s ++ ['\'', '\'', '\'']
  else if lines then basicBlock s
  else basicText s

/-- A text. -/
def ofText (s : String) : String := String.ofList (ofChars s.toList)

/-- A floating-point number. What is not a number has no sign. -/
def ofReal (x : Binary64) : String :=
  if x.isNaN then "nan" else NumberStyle.document.text x

/-- A truth value. -/
def ofFlag (b : Bool) : String := if b then "true" else "false"

/-- A whole number; of 64 bits with the sign, it is less than half of all. -/
def ofNat? (n : Nat) : Option String := if n < Word.bound63 then some (toString n) else none

end Toml.Quoting

end RowGraph
