import RowGraph.Bytes
import RowGraph.Decimal.Nearest
import RowGraph.Toml.Reader
import RowGraph.Word

/-!
# The lexemes of a settings document

Keys, the four kinds of strings, whole and floating-point numbers, truth values, dates and times,
and what may stand between them. A string in three quotes runs over lines; one or two quotes inside
it, or right before its end, belong to it. Whole numbers have 64 bits with the sign.
-/

namespace RowGraph

namespace Toml.Lexeme

open Reader

/-! ## Between lexemes -/

/-- A blank within a line. -/
def isBlank (c : Char) : Bool := c == ' ' || c == '\t'

/-- A character that may stand in a comment or a string. -/
def isPlain (c : Char) : Bool := c == '\t' || (' ' ≤ c && c != '\x7f')

/-- The blanks that come next, perhaps none. -/
def blanks : Reader Unit := do let _ ← span isBlank

/-- The end of a line. -/
def newline : Reader Unit := literally "\n" <|> literally "\r\n"

/-- A comment, without the end of its line. -/
def comment : Reader Unit := do
  literally "#"
  let _ ← span isPlain

/-- The rest of a line on which nothing but a comment may follow. -/
def lineEnd : Reader Unit := do
  blanks
  let _ ← optional comment
  newline <|> atEnd

/-- Blanks, line ends and comments, perhaps none. -/
def gap : Reader Unit := do
  let _ ← many (do
    blanks
    let _ ← optional comment
    newline)
  blanks

/-! ## Strings -/

/-- The number of hexadecimal digits. -/
def hexNumber (digits : List Char) : Nat :=
  digits.foldl (fun n c => 16 * n + (Bytes.hexValue? c).getD 0) 0

/-- Is it a hexadecimal digit? -/
def isHex (c : Char) : Bool := (Bytes.hexValue? c).isSome

/-- A character given by its number in hexadecimal digits. -/
def numbered (width : Nat) : Reader Char := do
  let n := hexNumber (← times (char isHex) width)
  if n.isValidChar then return Char.ofNat n else failure

/-- A character written with a backslash. -/
def escape : Reader Char := do
  literally "\\"
  match ← char fun _ => true with
  | 'b' => return '\x08'
  | 't' => return '\t'
  | 'n' => return '\n'
  | 'f' => return '\x0c'
  | 'r' => return '\r'
  | '"' => return '"'
  | '\\' => return '\\'
  | 'u' => numbered 4
  | 'U' => numbered 8
  | _ => failure

/-- A line end in a string, however it is written. -/
def lineBreak : Reader (List Char) := do
  newline
  return ['\n']

/-- A backslash that swallows the line end after it and all blanks and line ends that follow. -/
def joinedLines : Reader (List Char) := do
  literally "\\"
  blanks
  newline
  let _ ← span fun c => isBlank c || c == '\n'
  let _ ← many (do newline; span fun c => isBlank c || c == '\n')
  return []

/-- One character, as a text. -/
def single (p : Reader Char) : Reader (List Char) := do return [← p]

/-- A string on one line between two quotes. -/
def lineString (quote : String) (part : Reader (List Char)) : Reader String := do
  literally quote
  let parts ← many part
  literally quote
  return String.ofList parts.flatten

/-- One or two quotes that do not end a string over lines. -/
def innerQuotes (quote : Char) : Reader (List Char) := do
  let run ← span (· == quote)
  if 0 < run.length ∧ run.length < 3 then return run else failure

/-- A string over lines between three quotes. A line end right at its start is dropped. -/
def blockString (quote : Char) (part : Reader (List Char)) : Reader String := do
  literally (String.ofList [quote, quote, quote])
  let _ ← optional newline
  let parts ← many (part <|> innerQuotes quote)
  let closing ← span (· == quote)
  if 3 ≤ closing.length ∧ closing.length ≤ 5 then
    return String.ofList (parts.flatten ++ closing.drop 3)
  else failure

/-- A character that stands for itself between double quotes. -/
def unescaped : Reader Char := char fun c => isPlain c && c != '"' && c != '\\'

/-- A character between single quotes. -/
def verbatim : Reader Char := char fun c => isPlain c && c != '\''

/-- A string in double quotes, on one line. -/
def basicString : Reader String := lineString "\"" (single (unescaped <|> escape))

/-- A string in single quotes, on one line. -/
def literalString : Reader String := lineString "'" (single verbatim)

/-- A string of any kind. -/
def string : Reader String :=
  blockString '"' (single unescaped <|> lineBreak <|> joinedLines <|> single escape) <|>
    basicString <|> blockString '\'' (single verbatim <|> lineBreak) <|> literalString

/-! ## Keys -/

/-- A character of a key that needs no quotes. -/
def isBare (c : Char) : Bool := c.isAlphanum || c == '_' || c == '-'

/-- A key that needs no quotes. -/
def bareKey : Reader String := do
  let first ← char isBare
  return String.ofList (first :: (← span isBare))

/-- One part of a key, with the blanks around it. -/
def keyPart : Reader String := do
  blanks
  let part ← basicString <|> literalString <|> bareKey
  blanks
  return part

/-- How deep arrays, tables in braces and the parts of a key may be nested. -/
def deepest : Nat := 79

/-- A key: parts with dots between them. -/
def key : Reader (List String) := do
  let first ← keyPart
  let more ← many (do literally "."; keyPart)
  if more.length < deepest then return first :: more else failure

/-! ## Numbers -/

/-- Digits, which may have single underscores between them. -/
def digitRun (p : Char → Bool) : Reader (List Char) := do
  let first ← char p
  return first :: (← many (char p <|> (do literally "_"; char p)))

/-- The number of decimal digits. -/
def decimalNumber (digits : List Char) : Nat :=
  digits.foldl (fun n c => 10 * n + (c.toNat - 48)) 0

/-- A sign; is it a minus? -/
def sign : Reader Bool := do
  match ← optional (char fun c => c == '+' || c == '-') with
  | some c => return c == '-'
  | none => return false

/-- A sign and decimal digits, of which the first is not a useless zero. -/
def signedDigits : Reader (Bool × List Char) := do
  let negative ← sign
  let digits ← digitRun Char.isDigit
  if digits.head? = some '0' ∧ 1 < digits.length then failure
  return (negative, digits)

/-- A whole number if it has 64 bits. -/
def fitted (negative : Bool) (n : Nat) : Reader Int :=
  if n < Word.bound63 then return if negative then -n else n
  else if negative && n == Word.bound63 then return -n
  else failure

/-- Whole digits in another base than ten, after its mark. -/
def basedInteger (mark : String) (base : Nat) (p : Char → Bool) : Reader Int := do
  literally mark
  let digits ← digitRun p
  fitted false (digits.foldl (fun n c => base * n + (Bytes.hexValue? c).getD 0) 0)

/-- A whole number. -/
def integer : Reader Int :=
  basedInteger "0x" 16 isHex <|>
    basedInteger "0o" 8 (fun c => '0' ≤ c && c ≤ '7') <|>
    basedInteger "0b" 2 (fun c => c == '0' || c == '1') <|>
    (do
      let (negative, digits) ← signedDigits
      fitted negative (decimalNumber digits))

/-- The exponent of a floating-point number. -/
def exponent : Reader Int := do
  let _ ← char fun c => c == 'e' || c == 'E'
  let negative ← sign
  let n : Int := decimalNumber (← digitRun Char.isDigit)
  return if negative then -n else n

/-- The places after the point of a floating-point number. -/
def fraction : Reader (List Char) := do
  literally "."
  digitRun Char.isDigit

/-- A floating-point number in digits: it has a point, an exponent or both. A positive number
beyond the finite ones is refused. -/
def decimal : Reader Binary64 := do
  let (negative, digits) ← signedDigits
  let places ← optional fraction
  let shift ← optional exponent
  if places.isNone ∧ shift.isNone then failure
  let places := places.getD []
  let x := Binary64.ofDecimal negative (decimalNumber (digits ++ places))
    (shift.getD 0 - places.length)
  if x.isInfinite && !x.isNegative then failure
  return x

/-- Infinity, or what is not a number. -/
def special : Reader Binary64 := do
  let negative ← sign
  (do
    literally "inf"
    return Binary64.ofMagnitude negative Binary64.infinityBits) <|>
  (do
    literally "nan"
    return Binary64.ofMagnitude negative (Binary64.infinityBits + Binary64.fractionBound / 2))

/-- A floating-point number. -/
def real : Reader Binary64 := decimal <|> special

/-- A truth value. -/
def truth : Reader Bool :=
  (do literally "true"; return true) <|> (do literally "false"; return false)

/-! ## Dates and times -/

/-- A number of two digits within bounds. -/
def twoDigits (least most : Nat) : Reader Nat := do
  let n := decimalNumber (← times (char Char.isDigit) 2)
  if least ≤ n ∧ n ≤ most then return n else failure

/-- How many days a month has. -/
def monthDays (year month : Nat) : Nat :=
  if month = 2 then
    if year % 4 = 0 ∧ (year % 100 ≠ 0 ∨ year % 400 = 0) then 29 else 28
  else if month = 4 ∨ month = 6 ∨ month = 9 ∨ month = 11 then 30
  else 31

/-- A day of the calendar. -/
def date : Reader Unit := do
  let year := decimalNumber (← times (char Char.isDigit) 4)
  literally "-"
  let month ← twoDigits 1 12
  literally "-"
  let _ ← twoDigits 1 (monthDays year month)

/-- A time of day. -/
def time : Reader Unit := do
  let _ ← twoDigits 0 23
  literally ":"
  let _ ← twoDigits 0 59
  literally ":"
  let _ ← twoDigits 0 60
  let _ ← optional (do literally "."; let _ ← char Char.isDigit; span Char.isDigit)

/-- The distance of a time zone. -/
def zone : Reader Unit :=
  (do let _ ← char fun c => c == 'Z' || c == 'z') <|>
  (do
    let _ ← char fun c => c == '+' || c == '-'
    let _ ← twoDigits 0 23
    literally ":"
    let _ ← twoDigits 0 59)

/-- A date, a time or both. -/
def moment : Reader Unit :=
  (do
    date
    let _ ← optional (do
      let _ ← char fun c => c == 'T' || c == 't' || c == ' '
      time
      optional zone)) <|> time

end Toml.Lexeme

end RowGraph
