import AtMark.Text.Basic

/-!
# `Text.Utf8`: text as bytes

A character is written as one to four bytes.  Reading goes byte by byte and holds the character in
progress in a `Pending` value; it splits any bytes into pieces, each of which is a character or a maximal
ill-formed part, so that one damaged byte costs no more than itself.  `decode?` accepts well-formed bytes
only; `decode` writes U+FFFD for each ill-formed part.
-/

namespace AtMark

/-- Raw bytes. -/
abbrev Bytes := List UInt8

namespace Utf8

/-- The bytes of a character, by the size of its code point. -/
def encodeChar (c : Char) : Bytes :=
  let n := c.toNat
  let tail (k : Nat) : UInt8 := UInt8.ofNat (0x80 + k % 0x40)
  if n < 0x80 then [UInt8.ofNat n]
  else if n < 0x800 then [UInt8.ofNat (0xC0 + n / 0x40), tail n]
  else if n < 0x10000 then [UInt8.ofNat (0xE0 + n / 0x1000), tail (n / 0x40), tail n]
  else [UInt8.ofNat (0xF0 + n / 0x40000), tail (n / 0x1000), tail (n / 0x40), tail n]

/-- The bytes of a text. -/
def encode (s : Text) : Bytes :=
  s.flatMap encodeChar

/-- A character in progress: its bits so far, the range of the next byte, and how many bytes follow
that one. -/
structure Pending where
  bits : Nat
  low : Nat
  high : Nat
  more : Nat
deriving DecidableEq, Repr

/-- What the first byte of a piece begins. -/
inductive Lead where
  | complete (c : Char)
  | opens (pending : Pending)
  | illFormed
deriving DecidableEq, Repr

/-- The reading of a first byte.  The range of the second byte shuts out overlong forms, surrogates and
code points beyond the last. -/
def lead (byte : UInt8) : Lead :=
  let b := byte.toNat
  if b < 0x80 then .complete (Char.ofNat b)
  else if b < 0xC2 then .illFormed
  else if b < 0xE0 then .opens ⟨b - 0xC0, 0x80, 0xBF, 0⟩
  else if b = 0xE0 then .opens ⟨0, 0xA0, 0xBF, 1⟩
  else if b = 0xED then .opens ⟨0xD, 0x80, 0x9F, 1⟩
  else if b < 0xF0 then .opens ⟨b - 0xE0, 0x80, 0xBF, 1⟩
  else if b = 0xF0 then .opens ⟨0, 0x90, 0xBF, 2⟩
  else if b < 0xF4 then .opens ⟨b - 0xF0, 0x80, 0xBF, 2⟩
  else if b = 0xF4 then .opens ⟨4, 0x80, 0x8F, 2⟩
  else .illFormed

/-- Does the byte continue the character in progress? -/
def Pending.accepts (p : Pending) (byte : UInt8) : Bool :=
  p.low ≤ byte.toNat && byte.toNat ≤ p.high

/-- The character in progress after a byte that continues it. -/
def Pending.push (p : Pending) (byte : UInt8) : Pending :=
  ⟨p.bits * 0x40 + (byte.toNat - 0x80), 0x80, 0xBF, p.more - 1⟩

/-- The pieces of the bytes, given the character in progress: a character, or `none` for an ill-formed
part. -/
def pieces : Option Pending → Bytes → List (Option Char)
  | none, [] => []
  | some _, [] => [none]
  | none, b :: bs =>
    match lead b with
    | .complete c => some c :: pieces none bs
    | .opens p => pieces (some p) bs
    | .illFormed => none :: pieces none bs
  | some p, b :: bs =>
    if p.accepts b then
      if p.more = 0 then some (Char.ofNat (p.push b).bits) :: pieces none bs
      else pieces (some (p.push b)) bs
    else
      match lead b with
      | .complete c => none :: some c :: pieces none bs
      | .opens q => none :: pieces (some q) bs
      | .illFormed => none :: none :: pieces none bs

/-- The character written for an ill-formed part. -/
def replacement : Char := '\uFFFD'

/-- The text of any bytes, U+FFFD for each ill-formed part. -/
def decode (bytes : Bytes) : Text :=
  (pieces none bytes).map (·.getD replacement)

/-- The text of well-formed bytes. -/
def decode? (bytes : Bytes) : Option Text :=
  (pieces none bytes).mapM id

end Utf8
end AtMark
