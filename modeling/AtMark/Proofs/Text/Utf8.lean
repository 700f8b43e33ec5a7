import AtMark.Proofs.Source

/-!
# `Proofs.Text.Utf8`: text written as bytes and read again

## What is proved

The bytes of a text are read as the text.  Behind any bytes, well-formed or not, they are read as the text that they
are, and the bytes in front as they are alone (`Source.decode_bytes`).

## How

The bytes of a character are read as that character, whatever bytes follow (`Utf8.pieces_encodeChar`): its first
byte tells the range of the second, which shuts out no character that is written so.  As the first byte of a
character is none with which another one goes on, text is read behind any bytes as it was written
(`Utf8.decode_append_encode`).

No byte order mark lies across the place where such text begins, because its second and third bytes go on with a
character.  So what was shown of bytes holds of sources, where a mark at the start is dropped.

## What is not

How ill-formed bytes are read, except that they do not reach into the text behind them.  Each of their pieces is one
replacement character; where such a piece ends is said by the reader (`Utf8.pieces`), which takes the longest start of
a character that there is.
-/

namespace AtMark

namespace Utf8

/-! ## The bytes of a character -/

/-- The byte of the last six bits of a number. -/
def tailByte (n : Nat) : UInt8 :=
  UInt8.ofNat (0x80 + n % 0x40)

@[simp]
theorem toNat_tailByte (n : Nat) : (tailByte n).toNat = 0x80 + n % 0x40 := by
  simp only [tailByte, UInt8.toNat_ofNat']
  omega

theorem encodeChar_eq (c : Char) :
    encodeChar c =
      if c.toNat < 0x80 then [UInt8.ofNat c.toNat]
      else if c.toNat < 0x800 then [UInt8.ofNat (0xC0 + c.toNat / 0x40), tailByte c.toNat]
      else if c.toNat < 0x10000 then
        [UInt8.ofNat (0xE0 + c.toNat / 0x1000), tailByte (c.toNat / 0x40), tailByte c.toNat]
      else
        [UInt8.ofNat (0xF0 + c.toNat / 0x40000), tailByte (c.toNat / 0x1000), tailByte (c.toNat / 0x40),
          tailByte c.toNat] := rfl

/-! ### First bytes -/

theorem lead_one {n : Nat} (h : n < 0x80) : lead (UInt8.ofNat n) = .complete (Char.ofNat n) := by
  have hbyte : (UInt8.ofNat n).toNat = n := by
    simp only [UInt8.toNat_ofNat']
    omega
  simp only [lead, hbyte, if_pos h]

theorem lead_two {k : Nat} (hlow : 2 ≤ k) (hhigh : k < 0x20) :
    lead (UInt8.ofNat (0xC0 + k)) = .opens ⟨k, 0x80, 0xBF, 0⟩ := by
  have hbyte : (UInt8.ofNat (0xC0 + k)).toNat = 0xC0 + k := by
    simp only [UInt8.toNat_ofNat']
    omega
  simp only [lead, hbyte]
  rw [if_neg (by omega), if_neg (by omega), if_pos (by omega), Nat.add_sub_cancel_left]

theorem lead_three : ∀ k < 0x10, lead (UInt8.ofNat (0xE0 + k)) =
    .opens ⟨k, if k = 0 then 0xA0 else 0x80, if k = 0xD then 0x9F else 0xBF, 1⟩ := by
  decide +kernel

theorem lead_four : ∀ k < 5, lead (UInt8.ofNat (0xF0 + k)) =
    .opens ⟨k, if k = 0 then 0x90 else 0x80, if k = 4 then 0x8F else 0xBF, 2⟩ := by
  decide +kernel

/-! ### The bytes behind the first -/

theorem Pending.push_tailByte (p : Pending) (n : Nat) :
    p.push (tailByte n) = ⟨p.bits * 0x40 + n % 0x40, 0x80, 0xBF, p.more - 1⟩ := by
  have hbits : (tailByte n).toNat - 0x80 = n % 0x40 := by
    rw [toNat_tailByte]
    omega
  unfold push
  rw [hbits]

section Tail

variable {bits low high n : Nat} (hlow : low ≤ 0x80 + n % 0x40) (hhigh : 0x80 + n % 0x40 ≤ high)

include hlow hhigh

theorem Pending.accepts_tailByte (more : Nat) :
    Pending.accepts ⟨bits, low, high, more⟩ (tailByte n) = true := by
  simp only [accepts, toNat_tailByte, Bool.and_eq_true, decide_eq_true_eq]
  exact ⟨hlow, hhigh⟩

theorem pieces_tailByte (more : Nat) (rest : Bytes) :
    pieces (some ⟨bits, low, high, more + 1⟩) (tailByte n :: rest) =
      pieces (some ⟨bits * 0x40 + n % 0x40, 0x80, 0xBF, more⟩) rest := by
  rw [pieces, if_pos (Pending.accepts_tailByte hlow hhigh (more + 1)), if_neg (Nat.succ_ne_zero more),
    Pending.push_tailByte, Nat.add_sub_cancel]

theorem pieces_lastByte (rest : Bytes) :
    pieces (some ⟨bits, low, high, 0⟩) (tailByte n :: rest) =
      some (Char.ofNat (bits * 0x40 + n % 0x40)) :: pieces none rest := by
  rw [pieces, if_pos (Pending.accepts_tailByte hlow hhigh 0), if_pos rfl, Pending.push_tailByte]

end Tail

/-! ### Whole characters -/

/-- The bytes of a character are read as that character. -/
theorem pieces_encodeChar (c : Char) (rest : Bytes) :
    pieces none (encodeChar c ++ rest) = some c :: pieces none rest := by
  have hvalid : c.toNat < 0xD800 ∨ 0xDFFF < c.toNat ∧ c.toNat < 0x110000 := c.valid
  rw [encodeChar_eq]
  split
  next hone =>
    rw [List.singleton_append, pieces, lead_one hone, Char.ofNat_toNat]
  next hone =>
  split
  next htwo =>
    have hbits : c.toNat / 0x40 * 0x40 + c.toNat % 0x40 = c.toNat := by omega
    rw [List.cons_append, pieces, lead_two (by omega) (by omega)]
    dsimp only
    rw [List.singleton_append, pieces_lastByte (by omega) (by omega), hbits, Char.ofNat_toNat]
  next htwo =>
  split
  next hthree =>
    have hbits : (c.toNat / 0x1000 * 0x40 + c.toNat / 0x40 % 0x40) * 0x40 + c.toNat % 0x40 = c.toNat := by
      omega
    rw [List.cons_append, pieces, lead_three _ (by omega)]
    dsimp only
    rw [List.cons_append, pieces_tailByte (by split <;> omega) (by split <;> omega) 0,
      List.singleton_append, pieces_lastByte (by omega) (by omega), hbits, Char.ofNat_toNat]
  next hthree =>
    have hbits : ((c.toNat / 0x40000 * 0x40 + c.toNat / 0x1000 % 0x40) * 0x40 + c.toNat / 0x40 % 0x40) *
        0x40 + c.toNat % 0x40 = c.toNat := by
      omega
    rw [List.cons_append, pieces, lead_four _ (by omega)]
    dsimp only
    rw [List.cons_append, pieces_tailByte (by split <;> omega) (by split <;> omega) 1, List.cons_append,
      pieces_tailByte (by omega) (by omega) 0, List.singleton_append,
      pieces_lastByte (by omega) (by omega), hbits, Char.ofNat_toNat]

theorem beginsPiece_ofNat {n : Nat} (hbyte : n < 0x100) (h : n < 0x80 ∨ 0xBF < n) :
    BeginsPiece (UInt8.ofNat n) := by
  simp only [BeginsPiece, UInt8.toNat_ofNat']
  omega

/-- A character begins with a byte with which no other one goes on. -/
theorem beginsPiece_encodeChar (c : Char) : ∃ b bs, encodeChar c = b :: bs ∧ BeginsPiece b := by
  have hvalid : c.toNat < 0xD800 ∨ 0xDFFF < c.toNat ∧ c.toNat < 0x110000 := c.valid
  rw [encodeChar_eq]
  split_ifs with hone htwo hthree
  · exact ⟨_, _, rfl, beginsPiece_ofNat (by omega) (.inl hone)⟩
  · exact ⟨_, _, rfl, beginsPiece_ofNat (by omega) (.inr (by omega))⟩
  · exact ⟨_, _, rfl, beginsPiece_ofNat (by omega) (.inr (by omega))⟩
  · exact ⟨_, _, rfl, beginsPiece_ofNat (by omega) (.inr (by omega))⟩

/-! ## The bytes of a text -/

theorem encode_cons (c : Char) (s : Text) : encode (c :: s) = encodeChar c ++ encode s :=
  List.flatMap_cons

theorem beginsPiece_encode (s : Text) : ∀ b ∈ (encode s).head?, BeginsPiece b := by
  cases s with
  | nil => exact nofun
  | cons c s =>
      obtain ⟨b, bs, hbytes, hbegins⟩ := beginsPiece_encodeChar c
      rw [encode_cons, hbytes]
      rintro _ ⟨⟩
      exact hbegins

theorem decode_encode (s : Text) : decode (encode s) = s := by
  induction s with
  | nil => rfl
  | cons c s ih =>
      rw [encode_cons, decode, pieces_encodeChar, List.map_cons]
      exact congrArg (c :: ·) ih

/-- A text is read behind any bytes as it was written. -/
theorem decode_append_encode (bytes : Bytes) (s : Text) :
    decode (bytes ++ encode s) = decode bytes ++ s := by
  rw [decode_append bytes (beginsPiece_encode s), decode_encode]

end Utf8

/-! ## Sources of bytes -/

namespace Source

open Search

theorem encode_mark (s : Text) : Utf8.encode ('\uFEFF' :: s) = byteMark ++ Utf8.encode s :=
  Utf8.encode_cons '\uFEFF' s

/-- The bytes of a text begin with the byte order mark where the text does. -/
theorem dropByteMark_encode (s : Text) : dropByteMark (Utf8.encode s) = Utf8.encode (dropMark s) := by
  by_cases hmark : s.head? = some '\uFEFF'
  · obtain ⟨s, rfl⟩ := List.head?_eq_some_iff.mp hmark
    rw [encode_mark, dropByteMark, skip?_eq_some_iff.mpr rfl]
    rfl
  · have hskip : skip? byteMark (Utf8.encode s) = none := by
      rw [Option.eq_none_iff_forall_ne_some]
      intro rest hrest
      have hread : s = '\uFEFF' :: Utf8.decode rest :=
        calc s = Utf8.decode (Utf8.encode s) := (Utf8.decode_encode s).symm
          _ = Utf8.decode (byteMark ++ rest) := by rw [skip?_eq_some_iff.mp hrest]
          _ = '\uFEFF' :: Utf8.decode rest := rfl
      exact hmark (by rw [hread]; rfl)
    rw [dropMark_of_head hmark, dropByteMark, hskip]
    rfl

/-- No byte order mark lies across the place where text begins behind some bytes. -/
theorem dropByteMark_append_encode {raw : Bytes} (h : raw ≠ []) (s : Text) :
    dropByteMark (raw ++ Utf8.encode s) = dropByteMark raw ++ Utf8.encode s := by
  obtain ⟨b, raw, rfl⟩ := List.exists_cons_of_ne_nil h
  have hhead : ∀ y ∈ (Utf8.encode s).head?, y ∉ [0xBB, 0xBF] := by
    intro y hy hmem
    have hbegins := Utf8.beginsPiece_encode s y hy
    rcases List.mem_pair.mp hmem with rfl | rfl
    · exact absurd hbegins (by decide)
    · exact absurd hbegins (by decide)
  rw [dropByteMark, dropByteMark, byteMark, List.cons_append, skip?, skip?]
  split
  · rw [skip?_append_of_head hhead]
    cases skip? [0xBB, 0xBF] raw with
    | none => rfl
    | some rest => rfl
  · rfl

/-- The bytes of a text are read as the text is.  Behind any bytes, well-formed or not, they are read as the text
that they are, and the bytes in front as they are alone. -/
theorem decode_bytes :
    (∀ s : Text, (bytes (Utf8.encode s)).decode = (text s).decode) ∧
      ∀ (raw : Bytes) (s : Text), raw ≠ [] →
        (bytes (raw ++ Utf8.encode s)).decode = (bytes raw).decode ++ s := by
  refine ⟨fun s => ?_, fun raw s hraw => ?_⟩
  · simp only [decode, dropByteMark_encode, Utf8.decode_encode]
  · simp only [decode, dropByteMark_append_encode hraw, Utf8.decode_append_encode]

/-- Two of the three bytes of a mark, and a text that begins with one. -/
theorem decode_bytes_cut_mark :
    ([0xEF, 0xBB] : Bytes) ≠ [] ∧
      (bytes ([0xEF, 0xBB] ++ Utf8.encode "\uFEFFb")).decode = "\uFFFD\uFEFFb" := by
  have hraw : ([0xEF, 0xBB] : Bytes) ≠ [] := List.cons_ne_nil _ _
  exact ⟨hraw, decode_bytes.2 [0xEF, 0xBB] "\uFEFFb" hraw⟩

end Source
end AtMark
