import RowGraph.Bytes

/-!
# JSON documents

A document as a tree of lexemes: a number is kept as it is spelled and a string as it is escaped,
so that a part of a document nobody asks for is never interpreted. `Json.render` writes a tree
without blanks; `Json.parse?` reads any spelling of one, and what it reads must fill the document.
-/

namespace RowGraph

/-- A JSON document. Members are kept in order, repeated ones included. -/
inductive Json where
  | null
  | bool (b : Bool)
  /-- A number by its spelling. -/
  | number (lexeme : Bytes)
  /-- A string by what stands between its quotes. -/
  | string (escaped : Bytes)
  | array (items : List Json)
  | object (members : List (Bytes × Json))
  deriving Repr, Inhabited

namespace Json

/-- The byte of an ASCII character. -/
def ascii (c : Char) : UInt8 := UInt8.ofNat c.toNat

/-- The bytes of an ASCII text. -/
def asciiBytes (s : String) : Bytes := s.toList.map ascii

/-- A decimal digit? -/
def isDigit (b : UInt8) : Bool := decide (ascii '0' ≤ b) && decide (b ≤ ascii '9')

/-! ## Writing -/

/-- Parts with a separator between them. -/
def joined (separator : Bytes) : List Bytes → Bytes
  | [] => []
  | [part] => part
  | part :: rest => part ++ separator ++ joined separator rest

mutual

/-- The document without blanks. -/
def render : Json → Bytes
  | null => asciiBytes "null"
  | bool true => asciiBytes "true"
  | bool false => asciiBytes "false"
  | number lexeme => lexeme
  | string escaped => ascii '"' :: escaped ++ [ascii '"']
  | array items => ascii '[' :: joined [ascii ','] (renderItems items) ++ [ascii ']']
  | object members => ascii '\x7b' :: joined [ascii ','] (renderMembers members) ++ [ascii '\x7d']

/-- The items of an array. -/
def renderItems : List Json → List Bytes
  | [] => []
  | item :: rest => render item :: renderItems rest

/-- The members of an object. -/
def renderMembers : List (Bytes × Json) → List Bytes
  | [] => []
  | (name, item) :: rest =>
    (ascii '"' :: name ++ [ascii '"', ascii ':'] ++ render item) :: renderMembers rest

end

/-! ## Reading -/

/-- Is the byte a blank? -/
def isBlank (b : UInt8) : Bool :=
  b == ascii ' ' || b == ascii '\n' || b == ascii '\t' || b == ascii '\r'

/-- The document after leading blanks. -/
def skipBlanks (s : Bytes) : Bytes := s.dropWhile isBlank

/-- What follows a given word. -/
def afterWord? : (word s : Bytes) → Option Bytes
  | [], s => some s
  | _ :: _, [] => none
  | w :: word, b :: s => if w = b then afterWord? word s else none

/-- Splits off the leading digits. -/
def spanDigits (s : Bytes) : Bytes × Bytes := s.span isDigit

/-- Reads the whole part of a number: one zero, or digits that do not start with one. -/
def wholePart? (s : Bytes) : Option (Bytes × Bytes) :=
  match spanDigits s with
  | ([], _) => none
  | (d :: ds, rest) => if d = ascii '0' ∧ ds ≠ [] then none else some (d :: ds, rest)

/-- Reads a point and at least one digit, if there is a point. -/
def pointPart? (s : Bytes) : Option (Bytes × Bytes) :=
  match s with
  | [] => some ([], [])
  | b :: rest =>
    if b = ascii '.' then
      match spanDigits rest with
      | ([], _) => none
      | (ds, after) => some (b :: ds, after)
    else some ([], s)

/-- Splits off the sign of an exponent. -/
def exponentSign (s : Bytes) : Bytes × Bytes :=
  match s with
  | [] => ([], [])
  | b :: rest => if b = ascii '+' ∨ b = ascii '-' then ([b], rest) else ([], s)

/-- Reads an exponent, if there is one. -/
def exponentPart? (s : Bytes) : Option (Bytes × Bytes) :=
  match s with
  | [] => some ([], [])
  | b :: rest =>
    if b = ascii 'e' ∨ b = ascii 'E' then
      let (sign, digits) := exponentSign rest
      match spanDigits digits with
      | ([], _) => none
      | (ds, after) => some (b :: sign ++ ds, after)
    else some ([], s)

/-- Reads the spelling of a number. -/
def numberLexeme? (s : Bytes) : Option (Bytes × Bytes) := do
  let (sign, s₀) := match s with
    | [] => ([], [])
    | b :: rest => if b = ascii '-' then ([b], rest) else ([], s)
  let (whole, s₁) ← wholePart? s₀
  let (point, s₂) ← pointPart? s₁
  let (exponent, s₃) ← exponentPart? s₂
  return (sign ++ whole ++ point ++ exponent, s₃)

/-- Is the byte one of the letters that may follow a backslash alone? -/
def isEscapeLetter (b : UInt8) : Bool := (asciiBytes "\"\\/bfnrt").contains b

/-- The number of a hexadecimal digit. -/
def hexValue? (b : UInt8) : Option Nat := Bytes.hexValue? (Char.ofNat b.toNat)

/-- Reads the rest of a string after its opening quote, as it is escaped. Control characters have
to be escaped, and a backslash has to start an escape. -/
def stringLexeme? : Bytes → Option (Bytes × Bytes)
  | [] => none
  | b :: rest =>
    if b = ascii '"' then some ([], rest)
    else if b < 0x20 then none
    else if b = ascii '\\' then
      match rest with
      | [] => none
      | e :: more =>
        if isEscapeLetter e then (stringLexeme? more).map fun (t, after) => (b :: e :: t, after)
        else if e = ascii 'u' then
          match more with
          | h₁ :: h₂ :: h₃ :: h₄ :: after =>
            if [h₁, h₂, h₃, h₄].all (fun h => (hexValue? h).isSome) then
              (stringLexeme? after).map fun (t, last) => (b :: e :: h₁ :: h₂ :: h₃ :: h₄ :: t, last)
            else none
          | _ => none
        else none
    else (stringLexeme? rest).map fun (t, after) => (b :: t, after)

mutual

/-- Reads a value, given more steps than the document has bytes. -/
def value? : (steps : Nat) → Bytes → Option (Json × Bytes)
  | 0, _ => none
  | steps + 1, s =>
    match skipBlanks s with
    | [] => none
    | b :: rest =>
      if b = ascii 'n' then (afterWord? (asciiBytes "ull") rest).map fun r => (null, r)
      else if b = ascii 't' then (afterWord? (asciiBytes "rue") rest).map fun r => (bool true, r)
      else if b = ascii 'f' then (afterWord? (asciiBytes "alse") rest).map fun r => (bool false, r)
      else if b = ascii '"' then (stringLexeme? rest).map fun (t, r) => (string t, r)
      else if b = ascii '[' then
        match skipBlanks rest with
        | [] => none
        | c :: after =>
          if c = ascii ']' then some (array [], after)
          else (items? steps (c :: after)).map fun (l, r) => (array l, r)
      else if b = ascii '\x7b' then
        match skipBlanks rest with
        | [] => none
        | c :: after =>
          if c = ascii '\x7d' then some (object [], after)
          else (members? steps (c :: after)).map fun (l, r) => (object l, r)
      else (numberLexeme? (b :: rest)).map fun (l, r) => (number l, r)

/-- Reads the items of an array and its closing bracket. -/
def items? : (steps : Nat) → Bytes → Option (List Json × Bytes)
  | 0, _ => none
  | steps + 1, s =>
    match value? steps s with
    | none => none
    | some (item, rest) =>
      match skipBlanks rest with
      | [] => none
      | c :: after =>
        if c = ascii ']' then some ([item], after)
        else if c = ascii ',' then (items? steps after).map fun (l, r) => (item :: l, r)
        else none

/-- Reads the members of an object and its closing brace. -/
def members? : (steps : Nat) → Bytes → Option (List (Bytes × Json) × Bytes)
  | 0, _ => none
  | steps + 1, s =>
    match skipBlanks s with
    | [] => none
    | q :: rest =>
      if q ≠ ascii '"' then none
      else match stringLexeme? rest with
        | none => none
        | some (name, afterName) =>
          match skipBlanks afterName with
          | [] => none
          | colon :: afterColon =>
            if colon ≠ ascii ':' then none
            else match value? steps afterColon with
              | none => none
              | some (item, rest) =>
                match skipBlanks rest with
                | [] => none
                | c :: after =>
                  if c = ascii '\x7d' then some ([(name, item)], after)
                  else if c = ascii ',' then
                    (members? steps after).map fun (l, r) => ((name, item) :: l, r)
                  else none

end

/-- Reads a document; nothing but blanks may follow it. -/
def parse? (s : Bytes) : Option Json :=
  match value? (s.length + 1) s with
  | some (j, rest) => if (skipBlanks rest).isEmpty then some j else none
  | none => none

end Json

end RowGraph
