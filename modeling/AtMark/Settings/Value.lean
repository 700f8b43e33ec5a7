import AtMark.Json
import AtMark.Settings.Integer

/-!
# `Settings.Value`: reading the value of a setting

A value comes as JSON: a value given directly as it is, a variable of the environment as a string.  It is
read into the type of its setting where its meaning is plain, and otherwise there is a problem to report.

Which values are plain is the decision of the library that checks settings, not of this one (`Settings.Reading`).
-/

namespace AtMark

/-- Why a value cannot be taken. -/
inductive Problem where
  | notBool
  | unreadableBool
  | notInteger
  | unreadableInteger
  | integerTooLarge
  | fractional
  | notFinite
  | tooSmall
  | notText
  | notList
  | unknownSetting
  | frozen
deriving DecidableEq, Repr

/-- The name of a problem, as it is reported. -/
def Problem.name : Problem → Text
  | notBool => "bool_type"
  | unreadableBool => "bool_parsing"
  | notInteger => "int_type"
  | unreadableInteger => "int_parsing"
  | integerTooLarge => "int_parsing_size"
  | fractional => "int_from_float"
  | notFinite => "finite_number"
  | tooSmall => "greater_than_equal"
  | notText => "string_type"
  | notList => "list_type"
  | unknownSetting => "extra_forbidden"
  | frozen => "frozen_instance"

namespace Settings

/-! ## Binary numbers as integers -/

/-- Two to the 63rd, the bound of signed words. -/
def wordBound : Int := 0x8000000000000000

/-- The integer that a binary number is.  It must be finite, whole, and strictly between the bounds of signed
words. -/
def integerOfReal : Binary64 → Except Problem Int
  | .finite negative m q =>
    let (num, den) := Binary64.scaleByTwo m 1 q
    let magnitude : Int := (num / den : Nat)
    if num % den ≠ 0 then .error .fractional
    else if wordBound ≤ magnitude then .error .integerTooLarge
    else .ok (if negative then -magnitude else magnitude)
  | _ => .error .notFinite

/-! ## Truth values -/

/-- The words for true. -/
def trueWords : List Text := ["1", "true", "t", "yes", "y", "on"]

/-- The words for false. -/
def falseWords : List Text := ["0", "false", "f", "no", "n", "off"]

/-- The truth value of a word, in any case of its ASCII letters. -/
def boolOfWord (word : Text) : Except Problem Bool :=
  let word := word.map Char.toLower
  if trueWords.contains word then .ok true
  else if falseWords.contains word then .ok false
  else .error .unreadableBool

/-- The truth value of an integer.  One that is no signed word is not even considered. -/
def boolOfInteger (n : Int) : Except Problem Bool :=
  if n = 0 then .ok false
  else if n = 1 then .ok true
  else if -wordBound ≤ n ∧ n < wordBound then .error .unreadableBool
  else .error .notBool

/-- The truth value of a value. -/
def boolOf : Json → Except Problem Bool
  | .bool b => .ok b
  | .integer n => boolOfInteger n
  | .real x =>
    match integerOfReal x with
    | .ok n => boolOfInteger n
    | .error _ => .error .notBool
  | .string s => boolOfWord s
  | _ => .error .notBool

/-! ## Integers and texts -/

/-- The integer that a text denotes. -/
def integerOfText (s : Text) : Except Problem Int :=
  match Integer.read s with
  | .ok n => .ok n
  | .error .unreadable => .error .unreadableInteger
  | .error .tooLong => .error .integerTooLarge

/-- The integer of a value. -/
def integerOf : Json → Except Problem Int
  | .integer n => .ok n
  | .bool b => .ok (if b then 1 else 0)
  | .real x => integerOfReal x
  | .string s => integerOfText s
  | _ => .error .notInteger

/-- A limit of idle steps: an integer of at least one. -/
def limitOf (value : Json) : Except Problem Int := do
  let n ← integerOf value
  if n < 1 then .error .tooSmall else .ok n

/-- The text of a value. -/
def textOf : Json → Except Problem Text
  | .string s => .ok s
  | _ => .error .notText

end Settings
end AtMark
