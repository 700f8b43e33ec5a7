import AtMark.Hook
import AtMark.Search

/-!
# `Hook.Edit`: ready-made render hooks
-/

namespace AtMark

/-- A simple edit of bytes, or a value that is not bytes at all. -/
inductive ByteEdit where
  | append (raw : Bytes)
  | prepend (raw : Bytes)
  | replace (old new : Bytes)
  | upper
  | truncate (size : Nat)
  | keep
  | foreign (kind : Foreign)
deriving DecidableEq, Repr

namespace ByteEdit

/-- The upper case of an ASCII letter; any other byte stays. -/
def upperByte (b : UInt8) : UInt8 :=
  if 'a'.toNat ≤ b.toNat ∧ b.toNat ≤ 'z'.toNat then b - 32 else b

/-- The hook that makes an edit. -/
def hook : ByteEdit → Bytes → HookOutput
  | append raw, input => .bytes (input ++ raw)
  | prepend raw, input => .bytes (raw ++ input)
  | replace old new, input => .bytes (Search.replaceAll old new input)
  | upper, input => .bytes (input.map upperByte)
  | truncate size, input => .bytes (input.take size)
  | keep, input => .bytes input
  | foreign kind, _ => .foreign kind

end ByteEdit
end AtMark
