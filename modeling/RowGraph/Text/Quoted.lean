import RowGraph.Text.Unprintable
import RowGraph.Text.Extending
import RowGraph.Text.Ignorable

/-!
# Quoted text

A text between double quotes with everything that a reader could not see written as an escape: the
quote and the backslash, four control characters by a letter or digit, and by its code point every
other character that has no visible form, may be left out on display or would merge with the one
before it.
-/

namespace RowGraph.Text

/-- The lower-case hexadecimal digits of a number, without leading zeros. -/
def hexDigits (n : Nat) : List Char := Nat.toDigits 16 n

/-- The form of a character between quotes. -/
def quotedChar (c : Char) : List Char :=
  if c = '\x00' then ['\\', '0']
  else if c = '\t' then ['\\', 't']
  else if c = '\r' then ['\\', 'r']
  else if c = '\n' then ['\\', 'n']
  else if c = '\\' then ['\\', '\\']
  else if c = '"' then ['\\', '"']
  else if ' ' ≤ c ∧ c ≤ '~' then [c]
  else if isMerging c || isIgnorable c || isUnprintable c then
    ['\\', 'u', '\x7b'] ++ hexDigits c.toNat ++ ['\x7d']
  else [c]

/-- The text in double quotes. -/
def quoted (s : String) : String :=
  String.ofList ('"' :: s.toList.flatMap quotedChar ++ ['"'])

end RowGraph.Text
