/-!
# JSON texts

`Json.quote` writes a string literal: quotes, backslashes and control characters are escaped and
every other character stands for itself. `Json.parse?` reads a text by the standard grammar.

In a literal `\u` names a UTF-16 unit, so a character beyond the basic plane takes two. A unit of
such a pair without the other names no character: the literal is well formed but denotes no text.
Of numbers only the form is checked.
-/

namespace TypedCells

/-- A JSON value. -/
inductive Json where
  | null
  | bool (b : Bool)
  | number
  /-- A string, with its text if it denotes one. -/
  | string (text? : Option String)
  | array (items : List Json)
  /-- An object: its members in order, repeated keys included. -/
  | object (members : List (Option String × Json))

namespace Json

/-! ### Writing -/

/-- A character in a string literal. -/
def escape (c : Char) : List Char :=
  if c = '"' then ['\\', '"']
  else if c = '\\' then ['\\', '\\']
  else if c = '\x08' then ['\\', 'b']
  else if c = '\t' then ['\\', 't']
  else if c = '\n' then ['\\', 'n']
  else if c = '\x0c' then ['\\', 'f']
  else if c = '\r' then ['\\', 'r']
  else if c.toNat < 32 then
    ['\\', 'u', '0', '0', Nat.digitChar (c.toNat / 16), Nat.digitChar (c.toNat % 16)]
  else [c]

/-- The string literal for a text. -/
def quote (s : String) : String := "\"" ++ .ofList (s.toList.flatMap escape) ++ "\""

/-! ### Reading literals -/

/-- What stands in a literal: a character, or an escape that names a UTF-16 unit. -/
inductive Piece where
  | char (c : Char)
  | unit (n : Nat)

/-- The value of a hexadecimal digit. -/
def hexDigit? (c : Char) : Option Nat :=
  if '0' ≤ c ∧ c ≤ '9' then some (c.toNat - '0'.toNat)
  else if 'a' ≤ c ∧ c ≤ 'f' then some (c.toNat - 'a'.toNat + 10)
  else if 'A' ≤ c ∧ c ≤ 'F' then some (c.toNat - 'A'.toNat + 10)
  else none

/-- The unit with the given four hexadecimal digits. -/
def hexUnit? (a b c d : Char) : Option Nat := do
  return (((← hexDigit? a) * 16 + (← hexDigit? b)) * 16 + (← hexDigit? c)) * 16 + (← hexDigit? d)

/-- The character that a backslash and one letter stand for. -/
def unescape? : Char → Option Char
  | '"' => some '"'
  | '\\' => some '\\'
  | '/' => some '/'
  | 'b' => some '\x08'
  | 'f' => some '\x0c'
  | 'n' => some '\n'
  | 'r' => some '\r'
  | 't' => some '\t'
  | _ => none

/-- Reads a literal behind its opening quote, up to and with the closing one. -/
def readPieces : List Char → Option (List Piece × List Char)
  | [] => none
  | '"' :: cs => some ([], cs)
  | '\\' :: 'u' :: a :: b :: c :: d :: cs => do
    let n ← hexUnit? a b c d
    let (ps, cs) ← readPieces cs
    return (.unit n :: ps, cs)
  | '\\' :: c :: cs => do
    let c ← unescape? c
    let (ps, cs) ← readPieces cs
    return (.char c :: ps, cs)
  | c :: cs => do
    if c = '\\' ∨ c.toNat < 32 then none
    let (ps, cs) ← readPieces cs
    return (.char c :: ps, cs)

/-- A unit that opens a pair. -/
def isHighUnit (n : Nat) : Bool := 0xD800 ≤ n && n ≤ 0xDBFF

/-- A unit that closes a pair. -/
def isLowUnit (n : Nat) : Bool := 0xDC00 ≤ n && n ≤ 0xDFFF

/-- The text of a literal, unless a unit of a pair stands alone. -/
def piecesText? : List Piece → Option (List Char)
  | [] => some []
  | .char c :: ps => do return c :: (← piecesText? ps)
  | .unit m :: .unit n :: ps =>
    if isHighUnit m then
      if isLowUnit n then do
        return Char.ofNat ((m - 0xD800) * 0x400 + (n - 0xDC00) + 0x10000) :: (← piecesText? ps)
      else none
    else if isLowUnit m then none
    else do return Char.ofNat m :: (← piecesText? (.unit n :: ps))
  | .unit m :: ps =>
    if isHighUnit m || isLowUnit m then none
    else do return Char.ofNat m :: (← piecesText? ps)

/-- Reads a literal behind its opening quote. -/
def readLiteral (cs : List Char) : Option (Option String × List Char) := do
  let (ps, cs) ← readPieces cs
  return ((piecesText? ps).map .ofList, cs)

/-! ### Reading values -/

/-- The blanks between tokens. -/
def isBlank (c : Char) : Bool := c = ' ' || c = '\t' || c = '\n' || c = '\r'

/-- Passes blanks. -/
def skipBlanks (cs : List Char) : List Char := cs.dropWhile isBlank

/-- Passes one digit or more. -/
def skipDigits : List Char → Option (List Char)
  | c :: cs => if c.isDigit then some (cs.dropWhile Char.isDigit) else none
  | [] => none

/-- Passes the exponent of a number, if there is one. -/
def skipExponent : List Char → Option (List Char)
  | c :: cs =>
    if c = 'e' ∨ c = 'E' then
      match cs with
      | '+' :: cs => skipDigits cs
      | '-' :: cs => skipDigits cs
      | cs => skipDigits cs
    else some (c :: cs)
  | [] => some []

/-- Passes the fraction and the exponent of a number, if there are any. -/
def skipFraction : List Char → Option (List Char)
  | '.' :: cs => do skipExponent (← skipDigits cs)
  | cs => skipExponent cs

/-- Passes a number without its sign: no zero stands in front of other digits. -/
def skipUnsigned : List Char → Option (List Char)
  | '0' :: c :: cs => if c.isDigit then none else skipFraction (c :: cs)
  | '0' :: [] => some []
  | cs => do skipFraction (← skipDigits cs)

/-- Passes a number. -/
def skipNumber : List Char → Option (List Char)
  | '-' :: cs => skipUnsigned cs
  | cs => skipUnsigned cs

mutual

/-- Reads a value behind any blanks. An array or object nested in another takes two calls and one
character at least, so twice the length of a text is enough `fuel` for it. -/
def readValue : (fuel : Nat) → List Char → Option (Json × List Char)
  | 0, _ => none
  | fuel + 1, cs =>
    match skipBlanks cs with
    | 'n' :: 'u' :: 'l' :: 'l' :: cs => some (.null, cs)
    | 't' :: 'r' :: 'u' :: 'e' :: cs => some (.bool true, cs)
    | 'f' :: 'a' :: 'l' :: 's' :: 'e' :: cs => some (.bool false, cs)
    | '"' :: cs => do
      let (text?, cs) ← readLiteral cs
      return (.string text?, cs)
    | '[' :: cs =>
      match skipBlanks cs with
      | ']' :: cs => some (.array [], cs)
      | cs => do
        let (items, cs) ← readItems fuel cs
        return (.array items, cs)
    | '{' :: cs =>
      match skipBlanks cs with
      | '}' :: cs => some (.object [], cs)
      | cs => do
        let (members, cs) ← readMembers fuel cs
        return (.object members, cs)
    | cs => do return (.number, ← skipNumber cs)

/-- Reads the items of an array, with its closing bracket. -/
def readItems : (fuel : Nat) → List Char → Option (List Json × List Char)
  | 0, _ => none
  | fuel + 1, cs => do
    let (item, cs) ← readValue fuel cs
    match skipBlanks cs with
    | ',' :: cs =>
      let (items, cs) ← readItems fuel cs
      return (item :: items, cs)
    | ']' :: cs => return ([item], cs)
    | _ => none

/-- Reads the members of an object, with its closing brace. -/
def readMembers : (fuel : Nat) → List Char → Option (List (Option String × Json) × List Char)
  | 0, _ => none
  | fuel + 1, cs =>
    match skipBlanks cs with
    | '"' :: cs => do
      let (key, cs) ← readLiteral cs
      match skipBlanks cs with
      | ':' :: cs =>
        let (value, cs) ← readValue fuel cs
        match skipBlanks cs with
        | ',' :: cs =>
          let (members, cs) ← readMembers fuel cs
          return ((key, value) :: members, cs)
        | '}' :: cs => return ([(key, value)], cs)
        | _ => none
      | _ => none
    | _ => none

end

/-- The value that a whole text denotes. -/
def parse? (text : String) : Option Json := do
  let cs := text.toList
  let (v, rest) ← readValue (2 * cs.length + 1) cs
  if (skipBlanks rest).isEmpty then some v else none

end Json

end TypedCells
