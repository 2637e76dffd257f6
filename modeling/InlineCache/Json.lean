import InlineCache.Text

/-!
# JSON

A text is cut into tokens, and the tokens are read as one value.
-/

namespace InlineCache

/-! ### Values -/

/-- A number, as far as configurations need it. -/
structure JsonNumber where
  negative : Bool
  /-- The digits before the point. -/
  whole : Nat
  /-- There is neither a fraction nor an exponent. -/
  isInteger : Bool
deriving DecidableEq, Repr, Inhabited

inductive JsonValue where
  | null
  | bool (value : Bool)
  | number (number : JsonNumber)
  /-- A string; it has no text if an escape in it is half of a surrogate pair without the other. -/
  | string (text : Option String)
  | array (elements : List JsonValue)
  | object (members : List (Option String × JsonValue))
deriving Repr, Inhabited

namespace JsonValue

/-- The integer of a number that is neither negative nor written with a fraction or an exponent. -/
def nat? : JsonValue → Option Nat
  | .number n => if n.isInteger && !n.negative then some n.whole else none
  | _ => none

def bool? : JsonValue → Option Bool
  | .bool value => some value
  | _ => none

end JsonValue

/-! ### Tokens

A text is cut into brackets, colons, commas, names of constants, numbers and strings. Blanks between
tokens are spaces, tabs and the two line breaks.
-/

inductive JsonToken where
  | openObject
  | closeObject
  | openArray
  | closeArray
  | colon
  | comma
  | null
  | bool (value : Bool)
  | number (number : JsonNumber)
  | string (text : Option String)
deriving DecidableEq, Repr, Inhabited

namespace JsonToken

def isBlank (c : Char) : Bool := c == ' ' || c == '\t' || c == '\n' || c == '\r'

/-! ### Strings -/

/-- A piece of a string: a character, or half of a surrogate pair. -/
inductive Piece where
  | char (c : Char)
  | half (code : Nat)
deriving DecidableEq, Repr, Inhabited

/-- Is the code the first half of a surrogate pair? -/
def isHighHalf (code : Nat) : Bool := 0xD800 ≤ code && code < 0xDC00

/-- Is the code the second half of a surrogate pair? -/
def isLowHalf (code : Nat) : Bool := 0xDC00 ≤ code && code < 0xE000

def Piece.ofCode (code : Nat) : Piece :=
  if isHighHalf code || isLowHalf code then .half code else .char (Char.ofNat code)

/-- Join the pieces of a string. Each half must be part of a pair. -/
def Piece.join : List Piece → Option (List Char)
  | [] => some []
  | .char c :: rest => (join rest).map (c :: ·)
  | .half high :: .half low :: rest =>
    if isHighHalf high && isLowHalf low then
      (join rest).map (Char.ofNat (0x10000 + 0x400 * (high - 0xD800) + (low - 0xDC00)) :: ·)
    else none
  | .half _ :: _ => none

def hexDigit? (c : Char) : Option Nat :=
  if c.isDigit then some (c.toNat - '0'.toNat)
  else if 'a' ≤ c ∧ c ≤ 'f' then some (c.toNat - 'a'.toNat + 10)
  else if 'A' ≤ c ∧ c ≤ 'F' then some (c.toNat - 'A'.toNat + 10)
  else none

/-- The code of four hexadecimal digits. -/
def hexCode? (a b c d : Char) : Option Nat := do
  pure (0x1000 * (← hexDigit? a) + 0x100 * (← hexDigit? b) + 0x10 * (← hexDigit? c) +
    (← hexDigit? d))

/-- The character of an escape of one letter. -/
def escape? : Char → Option Char
  | '"' => some '"'
  | '\\' => some '\\'
  | '/' => some '/'
  | 'b' => some '\x08'
  | 'f' => some '\x0c'
  | 'n' => some '\n'
  | 'r' => some '\r'
  | 't' => some '\t'
  | _ => none

/-- Read the pieces of a string up to its closing quote. -/
def pieces? : List Char → Option (List Piece × List Char)
  | [] => none
  | '"' :: rest => some ([], rest)
  | '\\' :: 'u' :: a :: b :: c :: d :: rest => do
    let code ← hexCode? a b c d
    let (pieces, after) ← pieces? rest
    pure (.ofCode code :: pieces, after)
  | '\\' :: letter :: rest => do
    let c ← escape? letter
    let (pieces, after) ← pieces? rest
    pure (.char c :: pieces, after)
  | c :: rest =>
    if c.toNat < 0x20 || c == '\\' then none
    else do
      let (pieces, after) ← pieces? rest
      pure (.char c :: pieces, after)

def string? (chars : List Char) : Option (JsonToken × List Char) := do
  let (pieces, after) ← pieces? chars
  pure (.string ((Piece.join pieces).map String.ofList), after)

/-! ### Numbers -/

/-- Read one or more digits. -/
def digits? (chars : List Char) : Option (List Char × List Char) :=
  let digits := chars.takeWhile Char.isDigit
  if digits.isEmpty then none else some (digits, chars.dropWhile Char.isDigit)

/-- Read the digits before the point. Only the number zero starts with a zero. -/
def whole? (chars : List Char) : Option (Nat × List Char) := do
  let (digits, after) ← digits? chars
  if digits.length > 1 && digits.head? == some '0' then none
  else pure (Text.ofDigits digits, after)

/-- Skip a fraction, if there is one. The first component says that there is none. -/
def fraction? : List Char → Option (Bool × List Char)
  | '.' :: rest => (digits? rest).map fun (_, after) => (false, after)
  | chars => some (true, chars)

/-- Skip a sign. -/
def skipSign : List Char → List Char
  | '+' :: rest => rest
  | '-' :: rest => rest
  | chars => chars

/-- Skip an exponent, if there is one. The first component says that there is none. -/
def exponent? : List Char → Option (Bool × List Char)
  | 'e' :: rest => (digits? (skipSign rest)).map fun (_, after) => (false, after)
  | 'E' :: rest => (digits? (skipSign rest)).map fun (_, after) => (false, after)
  | chars => some (true, chars)

def number? (negative : Bool) (chars : List Char) : Option (JsonToken × List Char) := do
  let (whole, rest) ← whole? chars
  let (noFraction, rest) ← fraction? rest
  let (noExponent, rest) ← exponent? rest
  pure (.number { negative, whole, isInteger := noFraction && noExponent }, rest)

/-! ### Texts -/

/-- Read the token that a text starts with. -/
def next? : List Char → Option (JsonToken × List Char)
  | '{' :: rest => some (.openObject, rest)
  | '}' :: rest => some (.closeObject, rest)
  | '[' :: rest => some (.openArray, rest)
  | ']' :: rest => some (.closeArray, rest)
  | ':' :: rest => some (.colon, rest)
  | ',' :: rest => some (.comma, rest)
  | 'n' :: 'u' :: 'l' :: 'l' :: rest => some (.null, rest)
  | 't' :: 'r' :: 'u' :: 'e' :: rest => some (.bool true, rest)
  | 'f' :: 'a' :: 'l' :: 's' :: 'e' :: rest => some (.bool false, rest)
  | '"' :: rest => string? rest
  | '-' :: rest => number? true rest
  | chars => number? false chars

/-- Read all tokens of a text that has at most `fuel` characters. -/
def scan (fuel : Nat) (chars : List Char) : Option (List JsonToken) :=
  match fuel, chars.dropWhile isBlank with
  | _, [] => some []
  | 0, _ => none
  | fuel + 1, start => do
    let (token, rest) ← next? start
    let tokens ← scan fuel rest
    pure (token :: tokens)

/-- Cut a text into tokens. -/
def ofText? (text : String) : Option (List JsonToken) :=
  scan text.length text.toList

end JsonToken

/-! ### Reading

A JSON text is one value. The readers below take tokens from the front of a list and return the
rest. Each of them may call others `fuel` deep; a list of `n` tokens needs no more than `2 * n`
calls.
-/

namespace JsonValue

mutual

def read : Nat → List JsonToken → Option (JsonValue × List JsonToken)
  | 0, _ => none
  | _ + 1, .null :: rest => some (.null, rest)
  | _ + 1, .bool value :: rest => some (.bool value, rest)
  | _ + 1, .number n :: rest => some (.number n, rest)
  | _ + 1, .string text :: rest => some (.string text, rest)
  | _ + 1, .openArray :: .closeArray :: rest => some (.array [], rest)
  | fuel + 1, .openArray :: rest => do
    let (elements, after) ← readElements fuel rest
    pure (.array elements, after)
  | _ + 1, .openObject :: .closeObject :: rest => some (.object [], rest)
  | fuel + 1, .openObject :: rest => do
    let (members, after) ← readMembers fuel rest
    pure (.object members, after)
  | _ + 1, _ => none

/-- Read one or more elements up to the end of their array. -/
def readElements : Nat → List JsonToken → Option (List JsonValue × List JsonToken)
  | 0, _ => none
  | fuel + 1, tokens => do
    let (first, rest) ← read fuel tokens
    match rest with
    | .comma :: rest => do
      let (others, after) ← readElements fuel rest
      pure (first :: others, after)
    | .closeArray :: after => pure ([first], after)
    | _ => none

/-- Read one or more members up to the end of their object. -/
def readMembers : Nat → List JsonToken → Option (List (Option String × JsonValue) × List JsonToken)
  | 0, _ => none
  | fuel + 1, .string key :: .colon :: tokens => do
    let (first, rest) ← read fuel tokens
    match rest with
    | .comma :: rest => do
      let (others, after) ← readMembers fuel rest
      pure ((key, first) :: others, after)
    | .closeObject :: after => pure ([(key, first)], after)
    | _ => none
  | _ + 1, _ => none

end

/-- Read a text that is one value. -/
def ofText? (text : String) : Option JsonValue := do
  let tokens ← JsonToken.ofText? text
  match read (2 * tokens.length) tokens with
  | some (value, []) => some value
  | _ => none

end JsonValue

end InlineCache
