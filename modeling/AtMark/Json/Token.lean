import AtMark.Json
import AtMark.Search
import AtMark.Text.Numeral

/-!
# `Json.Token`: the tokens of JSON text

A text is JSON only if it falls into tokens: marks, names of constants, strings and numbers, with blanks
between them.  No two tokens can run together in JSON, so reading the longest number at each place loses
nothing.
-/

namespace AtMark.Json

open Search

/-- The tokens of JSON; a constant and a number stand for their values. -/
inductive Token where
  | openArray
  | closeArray
  | openObject
  | closeObject
  | comma
  | colon
  | string (s : Text)
  | atom (value : Json)
deriving Repr

/-- The blanks that may stand between tokens. -/
def isGap (c : Char) : Bool :=
  c == ' ' || c == '\t' || c == '\n' || c == '\r'

/-! ## Strings -/

/-- A unit of a string: a character, or a half of one written as an escape. -/
inductive StringUnit where
  | char (c : Char)
  | half (n : Nat)
deriving DecidableEq, Repr

/-- The value of a hexadecimal digit. -/
def hexDigit? (c : Char) : Option Nat :=
  if c.isDigit then some (c.toNat - '0'.toNat)
  else if 'a' ≤ c ∧ c ≤ 'f' then some (c.toNat - 'a'.toNat + 10)
  else if 'A' ≤ c ∧ c ≤ 'F' then some (c.toNat - 'A'.toNat + 10)
  else none

/-- The unit of a code: the codes of surrogates are halves of characters. -/
def unitOfCode (n : Nat) : StringUnit :=
  if 0xD800 ≤ n ∧ n < 0xE000 then .half n else .char (Char.ofNat n)

/-- The character that a letter behind a backslash stands for. -/
def escaped? : Char → Option Char
  | '"' => some '"'
  | '\\' => some '\\'
  | '/' => some '/'
  | 'b' => some '\x08'
  | 'f' => some '\x0c'
  | 'n' => some '\n'
  | 'r' => some '\r'
  | 't' => some '\t'
  | _ => none

/-- The units of a string, read from behind its opening quote, and what follows it. -/
def readUnits : Text → Option (List StringUnit × Text)
  | [] => none
  | '"' :: cs => some ([], cs)
  | '\\' :: 'u' :: a :: b :: c :: d :: cs => do
    let code := (((← hexDigit? a) * 16 + (← hexDigit? b)) * 16 + (← hexDigit? c)) * 16 + (← hexDigit? d)
    let (units, rest) ← readUnits cs
    return (unitOfCode code :: units, rest)
  | '\\' :: c :: cs => do
    let c ← escaped? c
    let (units, rest) ← readUnits cs
    return (.char c :: units, rest)
  | c :: cs =>
    if c.toNat < 0x20 then none
    else (readUnits cs).map fun (units, rest) => (.char c :: units, rest)

/-- The text of some units.  Two matching halves make a character.  A half alone is no character, so a text cannot
hold it and has U+FFFD in its place; this is a limit of texts here and not a rule of the format. -/
def joinUnits : List StringUnit → Text
  | [] => []
  | .char c :: units => c :: joinUnits units
  | .half high :: .half low :: units =>
    if high < 0xDC00 ∧ 0xDC00 ≤ low then
      Char.ofNat (0x10000 + (high - 0xD800) * 0x400 + (low - 0xDC00)) :: joinUnits units
    else '\uFFFD' :: joinUnits (.half low :: units)
  | .half _ :: units => '\uFFFD' :: joinUnits units

/-! ## Numbers -/

/-- The digits at the start and what follows them. -/
def digits (s : Text) : Text × Text :=
  (s.takeWhile Char.isDigit, s.dropWhile Char.isDigit)

/-- The whole part of a number: a zero, or digits that begin with another one. -/
def readWhole (s : Text) : Option (Text × Text) :=
  match s with
  | '0' :: cs => some (['0'], cs)
  | _ => if (digits s).1 = [] then none else some (digits s)

/-- The digits behind a point, if there is a point with digits behind it. -/
def readFraction (s : Text) : Option (Text × Text) :=
  match s with
  | '.' :: cs => if (digits cs).1 = [] then none else some (digits cs)
  | _ => none

/-- Does the text begin with an exponent's sign?  What follows it, and whether it is a minus. -/
def exponentSign : Text → Bool × Text
  | '-' :: cs => (true, cs)
  | '+' :: cs => (false, cs)
  | cs => (false, cs)

/-- The exponent behind its letter, if there are digits. -/
def readExponent (s : Text) : Option (Int × Text) :=
  let exponent (cs : Text) : Option (Int × Text) :=
    let (negative, cs) := exponentSign cs
    let (ds, rest) := digits cs
    if ds = [] then none else some (if negative then -(valueOf ds) else valueOf ds, rest)
  match s with
  | 'e' :: cs => exponent cs
  | 'E' :: cs => exponent cs
  | _ => none
where
  /-- The number that ASCII digits denote. -/
  valueOf (ds : Text) : Nat := Text.ofDigits (ds.map fun c => c.toNat - '0'.toNat)

/-- A number behind its sign, and what follows it.  With neither fraction nor exponent it is whole. -/
def readNumber (negative : Bool) (s : Text) : Option (Json × Text) := do
  let (whole, afterWhole) ← readWhole s
  let fraction := readFraction afterWhole
  let afterFraction := (fraction.map (·.2)).getD afterWhole
  let exponent := readExponent afterFraction
  let rest := (exponent.map (·.2)).getD afterFraction
  let places := (fraction.map (·.1)).getD []
  let value := readExponent.valueOf (whole ++ places)
  if fraction.isNone && exponent.isNone then
    return (.integer (if negative then -value else value), rest)
  return (.real (.ofDecimal negative value ((exponent.map (·.1)).getD 0 - places.length)), rest)

/-! ## Tokens -/

/-- The constants by name. -/
def constants : List (Text × Json) :=
  [("null", .null), ("true", .bool true), ("false", .bool false), ("NaN", .real .notANumber),
   ("Infinity", .real (.infinite false)), ("-Infinity", .real (.infinite true))]

/-- The constant at the start and what follows it. -/
def readConstant (s : Text) : Option (Json × Text) :=
  constants.findSome? fun (name, value) => (skip? name s).map fun rest => (value, rest)

/-- The constant or number at the start and what follows it. -/
def readAtom (s : Text) : Option (Json × Text) :=
  match readConstant s with
  | some found => some found
  | none =>
    match s with
    | '-' :: cs => readNumber true cs
    | _ => readNumber false s

/-- The token at the start and what follows it. -/
def readToken : Text → Option (Token × Text)
  | [] => none
  | '[' :: cs => some (.openArray, cs)
  | ']' :: cs => some (.closeArray, cs)
  | '{' :: cs => some (.openObject, cs)
  | '}' :: cs => some (.closeObject, cs)
  | ',' :: cs => some (.comma, cs)
  | ':' :: cs => some (.colon, cs)
  | '"' :: cs => (readUnits cs).map fun (units, rest) => (.string (joinUnits units), rest)
  | cs => (readAtom cs).map fun (value, rest) => (.atom value, rest)

/-- The tokens of a text, if it falls into tokens.  A token takes at least one character, so there are at
most as many as `bound` counts when it is the length of the text. -/
def tokensWithin (bound : Nat) (s : Text) : Option (List Token) :=
  match s.dropWhile isGap, bound with
  | [], _ => some []
  | _, 0 => none
  | rest, bound + 1 => do
    let (token, rest) ← readToken rest
    let more ← tokensWithin bound rest
    return token :: more

/-- The tokens of a text, if it falls into tokens. -/
def tokens (s : Text) : Option (List Token) :=
  tokensWithin s.length s

end AtMark.Json
