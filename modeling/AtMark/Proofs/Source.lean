import AtMark.Proofs.Search
import AtMark.Proofs.Text.LineBreak
import AtMark.Source

/-!
# `Proofs.Source`: the byte order mark and the line ends of a source

## What is proved

The mark stands at the start of a text or nowhere, so it is dropped from the front part of a text alone
(`Source.dropMark_append`).

Bytes that begin with one outside 0x80 to 0xBF are read the same whatever bytes stand before them
(`Utf8.decode_append`), and the text of some bytes ends in a newline exactly when they end in its byte
(`Utf8.getLast?_decode_iff`).

A source whose lines end in newlines is rewritten to end them in carriage returns and newlines, in its text or
in its bytes (`Source.withReturns`).  Either way the text to be read is rewritten with it
(`Source.decode_withReturns`).

## How

The bytes of both characters of a line break are below 0x80, so they never continue a character in progress
(`Pending.GoesOn.ne_line`), and neither character belongs to the byte order mark.  So it does not matter that bytes may
be ill-formed: a line break that ends a piece of them ends it in both ways to write it.

## What is not

That rewriting can be undone, or that a source with carriage returns of its own is left as it was.  What reading makes
of the two kinds of line ends is in `Proofs.Token.LineBreak`.
-/

namespace AtMark

open Text

/-! ## The mark at the start of a source -/

namespace Source

theorem dropMark_append {a b : Text} (h : a ≠ []) :
    dropMark (a ++ b) = dropMark a ++ b := by
  cases a with
  | nil => exact absurd rfl h
  | cons c a =>
      by_cases hc : c = '\uFEFF'
      · subst hc
        rfl
      · simp [dropMark, hc]

theorem dropMark_of_head {b : Text} (h : b.head? ≠ some '\uFEFF') : dropMark b = b := by
  unfold dropMark
  split
  · exact absurd rfl h
  · rfl

theorem dropMark_suffix (a : Text) : dropMark a <:+ a := by
  unfold dropMark
  split
  · exact List.suffix_cons _ _
  · exact List.suffix_refl _

end Source

/-! ## Sequences with returns -/

namespace Search

variable {α : Type} [DecidableEq α]

/-- The sequence with `ret` before each `line` in it. -/
def withReturns (ret line : α) (s : List α) : List α :=
  replaceAll [line] [ret, line] s

variable {ret line : α} {s : List α}

theorem withReturns_nil : withReturns ret line [] = [] := by
  unfold withReturns
  rw [replaceAll_singleton, List.flatMap_nil]

theorem withReturns_line : withReturns ret line (line :: s) = ret :: line :: withReturns ret line s := by
  unfold withReturns
  rw [replaceAll_singleton, replaceAll_singleton, List.flatMap_cons, if_pos rfl]
  rfl

theorem withReturns_cons {c : α} (hc : c ≠ line) :
    withReturns ret line (c :: s) = c :: withReturns ret line s := by
  unfold withReturns
  rw [replaceAll_singleton, replaceAll_singleton, List.flatMap_cons, if_neg hc]
  rfl

/-- A mark without the two items stands before the rewriting where it stands after it. -/
theorem skip?_withReturns {mark : List α} (hret : ret ∉ mark) (hline : line ∉ mark) (s : List α) :
    skip? mark (withReturns ret line s) = (skip? mark s).map (withReturns ret line) := by
  induction mark generalizing s with
  | nil => rfl
  | cons m mark ih =>
      have hm : m ≠ ret ∧ m ≠ line := by
        constructor
        · rintro rfl
          exact hret List.mem_cons_self
        · rintro rfl
          exact hline List.mem_cons_self
      cases s with
      | nil =>
          rw [withReturns_nil]
          rfl
      | cons c s =>
          by_cases hc : c = line
          · subst hc
            rw [withReturns_line, skip?, skip?, if_neg hm.1, if_neg hm.2]
            rfl
          · rw [withReturns_cons hc, skip?, skip?,
              ih (fun h => hret (List.mem_cons_of_mem _ h)) fun h => hline (List.mem_cons_of_mem _ h)]
            split
            · rfl
            · rfl

end Search

/-! ## Bytes -/

namespace Utf8

open Search

/-- A byte with which no character goes on, so that a piece begins with it wherever it stands. -/
def BeginsPiece (b : UInt8) : Prop :=
  b.toNat < 0x80 ∨ 0xBF < b.toNat

instance (b : UInt8) : Decidable (BeginsPiece b) :=
  inferInstanceAs (Decidable (_ ∨ _))

/-- The next byte of a character in progress lies between 0x80 and 0xBF. -/
structure Pending.GoesOn (p : Pending) : Prop where
  low : 0x80 ≤ p.low
  high : p.high ≤ 0xBF

theorem Pending.GoesOn.push (p : Pending) (b : UInt8) : (p.push b).GoesOn :=
  ⟨Nat.le_refl 0x80, Nat.le_refl 0xBF⟩

theorem Pending.GoesOn.accepts_eq_false {p : Pending} (h : p.GoesOn) {b : UInt8} (hb : BeginsPiece b) :
    p.accepts b = false := by
  have hlow := h.low
  have hhigh := h.high
  simp only [accepts, Bool.and_eq_false_iff, decide_eq_false_iff_not]
  rcases hb with hb | hb
  · exact .inl (by omega)
  · exact .inr (by omega)

/-- The character in progress will not fit into one byte. -/
structure Pending.IsWide (p : Pending) : Prop extends p.GoesOn where
  wide : 2 ≤ p.bits ∨ p.more ≠ 0 ∧ (1 ≤ p.bits ∨ 0x82 ≤ p.low)

/-- A byte below 0x80 is a character, and any other one that a character begins with leaves bits to come. -/
theorem lead_induction {b : UInt8} {motive : Lead → Prop} (complete : motive (.complete (Char.ofNat b.toNat)))
    (opens : ∀ p : Pending, p.IsWide → motive (.opens p)) (illFormed : motive .illFormed) : motive (lead b) := by
  unfold lead
  dsimp only
  refine iteInduction (fun _ => complete) fun _ => ?_
  refine iteInduction (fun _ => illFormed) fun htwo => ?_
  refine iteInduction (fun _ => opens _ ⟨⟨Nat.le_refl _, Nat.le_refl _⟩, .inl (by dsimp only; omega)⟩) fun hthree => ?_
  refine iteInduction (fun _ => opens _ ⟨⟨by decide, by decide⟩, .inr (by decide)⟩) fun hfirst => ?_
  refine iteInduction (fun _ => opens _ ⟨⟨by decide, by decide⟩, .inl (by decide)⟩) fun _ => ?_
  refine iteInduction
    (fun _ => opens _ ⟨⟨Nat.le_refl _, Nat.le_refl _⟩, .inr ⟨Nat.succ_ne_zero _, .inl (by dsimp only; omega)⟩⟩) fun hfour => ?_
  refine iteInduction (fun _ => opens _ ⟨⟨by decide, by decide⟩, .inr (by decide)⟩) fun hfirst => ?_
  refine iteInduction
    (fun _ => opens _ ⟨⟨Nat.le_refl _, Nat.le_refl _⟩, .inr ⟨Nat.succ_ne_zero _, .inl (by dsimp only; omega)⟩⟩) fun _ => ?_
  exact iteInduction (fun _ => opens _ ⟨⟨by decide, by decide⟩, .inl (by decide)⟩) fun _ => illFormed

theorem isWide_of_lead {b : UInt8} {p : Pending} (h : lead b = .opens p) : p.IsWide := by
  have hall : ∀ q, lead b = .opens q → q.IsWide :=
    lead_induction (motive := fun found => ∀ q, found = .opens q → q.IsWide) nofun
      (fun p hp q hq => Lead.opens.inj hq ▸ hp) nofun
  exact hall p h

theorem goesOn_of_lead {b : UInt8} {p : Pending} (h : lead b = .opens p) : p.GoesOn :=
  (isWide_of_lead h).toGoesOn

theorem ne_line_of_lead {b : UInt8} {found : Lead} (h : lead b = found) (hfound : found ≠ .complete '\n') :
    b ≠ 0x0A := by
  rintro rfl
  exact hfound h.symm

theorem pieces_line (bytes : Bytes) :
    pieces none (0x0D :: 0x0A :: bytes) = some '\r' :: some '\n' :: pieces none bytes := rfl

/-- A character in progress is ill-formed where a piece begins. -/
theorem pieces_pending {p : Pending} (h : p.GoesOn) {tail : Bytes}
    (htail : ∀ b ∈ tail.head?, BeginsPiece b) : pieces (some p) tail = none :: pieces none tail := by
  cases tail with
  | nil => rfl
  | cons b tail =>
      have hrefuses : ¬p.accepts b = true := Bool.eq_false_iff.mp (h.accepts_eq_false (htail b rfl))
      cases hlead : lead b with
      | complete c => simp only [pieces, if_neg hrefuses, hlead]
      | opens q => simp only [pieces, if_neg hrefuses, hlead]
      | illFormed => simp only [pieces, if_neg hrefuses, hlead]

theorem Pending.GoesOn.ne_line {p : Pending} (hp : p.GoesOn) {b : UInt8} (h : p.accepts b = true) :
    b ≠ 0x0A := by
  rintro rfl
  rw [hp.accepts_eq_false (by decide)] at h
  cases h

/-- The text of some pieces. -/
def textOf (found : List (Option Char)) : Text :=
  found.map (·.getD replacement)

theorem returned_pieces (pending : Option Pending) (hpending : ∀ p ∈ pending, p.GoesOn) (bytes : Bytes) :
    Returned [] (textOf (pieces pending bytes))
      (textOf (pieces pending (withReturns 0x0D 0x0A bytes))) := by
  fun_induction pieces pending bytes with
  | case1 =>
      rw [withReturns_nil]
      exact .nil
  | case2 p =>
      rw [withReturns_nil]
      exact .cons replacement .nil
  | case3 b bytes c hlead ih =>
      by_cases hb : b = 0x0A
      · subst hb
        cases hlead
        rw [withReturns_line, pieces_line]
        exact .line (ih hpending)
      · rw [withReturns_cons hb, pieces, hlead]
        exact .cons c (ih hpending)
  | case4 b bytes p hlead ih =>
      rw [withReturns_cons (ne_line_of_lead hlead nofun), pieces, hlead]
      exact ih fun q hq => Option.mem_some.mp hq ▸ goesOn_of_lead hlead
  | case5 b bytes hlead ih =>
      rw [withReturns_cons (ne_line_of_lead hlead nofun), pieces, hlead]
      exact .cons replacement (ih hpending)
  | case6 p b bytes haccepts hmore ih =>
      rw [withReturns_cons ((hpending p rfl).ne_line haccepts), pieces, if_pos haccepts,
        if_pos hmore]
      exact .cons _ (ih nofun)
  | case7 p b bytes haccepts hmore ih =>
      rw [withReturns_cons ((hpending p rfl).ne_line haccepts), pieces, if_pos haccepts,
        if_neg hmore]
      exact ih fun q hq => Option.mem_some.mp hq ▸ .push p b
  | case8 p b bytes haccepts c hlead ih =>
      by_cases hb : b = 0x0A
      · subst hb
        cases hlead
        rw [withReturns_line, pieces_pending (hpending p rfl) (by rintro b ⟨⟩; decide), pieces_line]
        exact .cons replacement (.line (ih nofun))
      · rw [withReturns_cons hb, pieces, if_neg haccepts, hlead]
        exact .cons replacement (.cons c (ih nofun))
  | case9 p b bytes haccepts q hlead ih =>
      rw [withReturns_cons (ne_line_of_lead hlead nofun), pieces, if_neg haccepts, hlead]
      exact .cons replacement (ih fun r hr => Option.mem_some.mp hr ▸ goesOn_of_lead hlead)
  | case10 p b bytes haccepts hlead ih =>
      rw [withReturns_cons (ne_line_of_lead hlead nofun), pieces, if_neg haccepts, hlead]
      exact .cons replacement (.cons replacement (ih nofun))

/-! ### Bytes behind bytes -/

theorem pieces_append (pending : Option Pending) (hpending : ∀ p ∈ pending, p.GoesOn) (bytes : Bytes)
    {tail : Bytes} (htail : ∀ b ∈ tail.head?, BeginsPiece b) :
    pieces pending (bytes ++ tail) = pieces pending bytes ++ pieces none tail := by
  fun_induction pieces pending bytes with
  | case1 => rfl
  | case2 p => exact pieces_pending (hpending p rfl) htail
  | case3 b bytes c hlead ih =>
      rw [List.cons_append, pieces, hlead]
      exact congrArg (some c :: ·) (ih hpending)
  | case4 b bytes p hlead ih =>
      rw [List.cons_append, pieces, hlead]
      exact ih fun q hq => Option.mem_some.mp hq ▸ goesOn_of_lead hlead
  | case5 b bytes hlead ih =>
      rw [List.cons_append, pieces, hlead]
      exact congrArg (none :: ·) (ih hpending)
  | case6 p b bytes haccepts hmore ih =>
      rw [List.cons_append, pieces, if_pos haccepts, if_pos hmore, ih nofun, List.cons_append]
  | case7 p b bytes haccepts hmore ih =>
      rw [List.cons_append, pieces, if_pos haccepts, if_neg hmore]
      exact ih fun q hq => Option.mem_some.mp hq ▸ .push p b
  | case8 p b bytes haccepts c hlead ih =>
      rw [List.cons_append, pieces, if_neg haccepts, hlead]
      exact congrArg (none :: some c :: ·) (ih nofun)
  | case9 p b bytes haccepts q hlead ih =>
      rw [List.cons_append, pieces, if_neg haccepts, hlead]
      exact congrArg (none :: ·) (ih fun r hr => Option.mem_some.mp hr ▸ goesOn_of_lead hlead)
  | case10 p b bytes haccepts hlead ih =>
      rw [List.cons_append, pieces, if_neg haccepts, hlead]
      exact congrArg (none :: none :: ·) (ih nofun)

theorem decode_append (bytes : Bytes) {tail : Bytes} (htail : ∀ b ∈ tail.head?, BeginsPiece b) :
    decode (bytes ++ tail) = decode bytes ++ decode tail := by
  unfold decode
  rw [pieces_append none nofun bytes htail, List.map_append]

/-! ### The last newline -/

theorem Pending.IsWide.push {p : Pending} (h : p.IsWide) {b : UInt8} (hb : p.accepts b = true) :
    2 ≤ (p.push b).bits := by
  have hlow : p.low ≤ b.toNat := of_decide_eq_true (Bool.and_eq_true_iff.mp hb).1
  have hwide := h.wide
  have hstart := h.low
  show 2 ≤ p.bits * 0x40 + (b.toNat - 0x80)
  omega

theorem eq_of_ofNat_eq_newline {n : Nat} (h : Char.ofNat n = '\n') : n = 0x0A := by
  by_cases hn : n.isValidChar
  · have hchar : Char.ofNat n = Char.ofNatAux n hn := dif_pos hn
    rw [hchar] at h
    exact congrArg Char.toNat h
  · have hchar : Char.ofNat n = '\x00' := dif_neg hn
    rw [hchar] at h
    exact absurd h (by decide)

/-- A newline comes from its own byte. -/
theorem eq_of_lead_newline {b : UInt8} (h : lead b = .complete '\n') : b = 0x0A := by
  have hall : lead b = .complete '\n' → b = 0x0A :=
    lead_induction (motive := fun found => found = .complete '\n' → b = 0x0A)
      (fun hc => UInt8.toNat_inj.mp (eq_of_ofNat_eq_newline (Lead.complete.inj hc))) nofun nofun
  exact hall h

theorem pieces_eq_nil {pending : Option Pending} {bytes : Bytes} (h : pieces pending bytes = []) :
    bytes = [] := by
  fun_induction pieces pending bytes with
  | case1 => rfl
  | case2 => rfl
  | case4 b bytes p hlead ih =>
      obtain rfl := ih h
      exact absurd h (List.cons_ne_nil _ _)
  | case7 p b bytes haccepts hmore ih =>
      obtain rfl := ih h
      exact absurd h (List.cons_ne_nil _ _)
  | case3 => exact absurd h (List.cons_ne_nil _ _)
  | case5 => exact absurd h (List.cons_ne_nil _ _)
  | case6 => exact absurd h (List.cons_ne_nil _ _)
  | case8 => exact absurd h (List.cons_ne_nil _ _)
  | case9 => exact absurd h (List.cons_ne_nil _ _)
  | case10 => exact absurd h (List.cons_ne_nil _ _)

/-- Where the last piece is a newline, the last byte is. -/
theorem newline_suffix (pending : Option Pending) (hwide : ∀ p ∈ pending, p.IsWide) (bytes : Bytes)
    (h : [some '\n'] <:+ pieces pending bytes) : [0x0A] <:+ bytes := by
  have hcomplete : ∀ {b : UInt8} {bs : Bytes} {c : Char}, lead b = .complete c →
      ([some '\n'] <:+ pieces none bs → [0x0A] <:+ bs) → [some '\n'] <:+ some c :: pieces none bs →
      [0x0A] <:+ b :: bs := by
    intro b bs c hlead ih h
    rcases List.suffix_cons_iff.mp h with heq | hmore
    · obtain ⟨hc, hnil⟩ := List.cons.inj heq
      obtain rfl := pieces_eq_nil hnil.symm
      obtain rfl : '\n' = c := Option.some.inj hc
      rw [eq_of_lead_newline hlead]
    · exact (ih hmore).trans (List.suffix_cons b bs)
  have hillFormed : ∀ {found : List (Option Char)}, [some '\n'] <:+ none :: found → [some '\n'] <:+ found :=
    fun h => (List.suffix_cons_iff.mp h).resolve_left fun heq => absurd (List.cons.inj heq).1 nofun
  fun_induction pieces pending bytes with
  | case1 => exact absurd (List.suffix_nil.mp h) (List.cons_ne_nil _ _)
  | case2 => exact absurd (List.suffix_nil.mp (hillFormed h)) (List.cons_ne_nil _ _)
  | case3 b bytes c hlead ih => exact hcomplete hlead (ih hwide) h
  | case4 b bytes p hlead ih =>
      exact (ih (fun q hq => Option.mem_some.mp hq ▸ isWide_of_lead hlead) h).trans (List.suffix_cons b bytes)
  | case5 b bytes hlead ih => exact (ih hwide (hillFormed h)).trans (List.suffix_cons b bytes)
  | case6 p b bytes haccepts hmore ih =>
      rcases List.suffix_cons_iff.mp h with heq | hmore'
      · -- Two bits in front of the last six are more than a newline has.
        have hbits := eq_of_ofNat_eq_newline (Option.some.inj (List.cons.inj heq).1).symm
        have hp := hwide p rfl
        have hbefore : 2 ≤ p.bits := hp.wide.resolve_right fun h => h.1 hmore
        replace hbits : p.bits * 0x40 + (b.toNat - 0x80) = 0x0A := hbits
        omega
      · exact (ih nofun hmore').trans (List.suffix_cons b bytes)
  | case7 p b bytes haccepts hmore ih =>
      have hpush : ∀ q ∈ some (p.push b), q.IsWide := fun q hq =>
        Option.mem_some.mp hq ▸ ⟨.push p b, .inl ((hwide p rfl).push haccepts)⟩
      exact (ih hpush h).trans (List.suffix_cons b bytes)
  | case8 p b bytes haccepts c hlead ih => exact hcomplete hlead (ih nofun) (hillFormed h)
  | case9 p b bytes haccepts q hlead ih =>
      exact (ih (fun r hr => Option.mem_some.mp hr ▸ isWide_of_lead hlead) (hillFormed h)).trans
        (List.suffix_cons b bytes)
  | case10 p b bytes haccepts hlead ih =>
      exact (ih nofun (hillFormed (hillFormed h))).trans (List.suffix_cons b bytes)

/-- The text of some bytes ends in a newline exactly when the bytes do. -/
theorem getLast?_decode_iff {bytes : Bytes} :
    (decode bytes).getLast? = some '\n' ↔ bytes.getLast? = some 0x0A := by
  constructor
  · intro h
    rw [decode, List.getLast?_map, Option.map_eq_some_iff] at h
    obtain ⟨piece, hlast, hpiece⟩ := h
    obtain rfl : piece = some '\n' := by
      cases piece with
      | none => exact absurd hpiece (by decide)
      | some c => exact congrArg some hpiece
    rw [← List.singleton_suffix_iff_getLast?_eq_some] at hlast ⊢
    exact newline_suffix none nofun bytes hlast
  · intro h
    obtain ⟨front, rfl⟩ := List.getLast?_eq_some_iff.mp h
    rw [decode_append front (by rintro b ⟨⟩; decide)]
    exact List.getLast?_concat

end Utf8

/-! ## Sources -/

namespace Source

open Search

/-- The source with a carriage return before each newline, in its characters or in its bytes. -/
def withReturns : Source → Source
  | .bytes raw => .bytes (Search.withReturns 0x0D 0x0A raw)
  | .text content => .text (Search.withReturns '\r' '\n' content)

theorem dropByteMark_withReturns (raw : Bytes) :
    dropByteMark (Search.withReturns 0x0D 0x0A raw) = Search.withReturns 0x0D 0x0A (dropByteMark raw) := by
  unfold dropByteMark
  rw [skip?_withReturns (by decide) (by decide)]
  cases skip? byteMark raw with
  | none => rfl
  | some rest => rfl

theorem dropMark_withReturns (content : Text) :
    dropMark (Search.withReturns '\r' '\n' content) = Search.withReturns '\r' '\n' (dropMark content) := by
  cases content with
  | nil =>
      have hnil : dropMark [] = [] := rfl
      rw [withReturns_nil, hnil, withReturns_nil]
  | cons c s =>
      by_cases hmark : c = '\uFEFF'
      · subst hmark
        rw [withReturns_cons (by decide)]
        rfl
      · have hhead : (c :: s).head? ≠ some '\uFEFF' := fun h => hmark (Option.some.inj h)
        rw [dropMark_of_head hhead]
        refine dropMark_of_head ?_
        by_cases hc : c = '\n'
        · subst hc
          rw [withReturns_line]
          exact fun h => absurd (Option.some.inj h) (by decide)
        · rw [withReturns_cons hc]
          exact hhead

theorem dropByteMark_append (raw : Bytes) {tail : Bytes} (h : ∀ b ∈ tail.head?, b ∉ byteMark) :
    dropByteMark (raw ++ tail) = dropByteMark raw ++ tail := by
  unfold dropByteMark
  rw [skip?_append_of_head h]
  cases skip? byteMark raw with
  | none => rfl
  | some rest => rfl

theorem dropByteMark_suffix (raw : Bytes) : dropByteMark raw <:+ raw := by
  unfold dropByteMark
  cases hskip : skip? byteMark raw with
  | none => exact List.suffix_refl raw
  | some rest =>
      rw [skip?_eq_some_iff.mp hskip]
      exact List.suffix_append byteMark rest

/-- A source with carriage returns is read as the text of the source with carriage returns. -/
theorem decode_withReturns (source : Source) : Returned [] source.decode source.withReturns.decode := by
  cases source with
  | bytes raw =>
      unfold withReturns decode Utf8.decode
      dsimp only
      rw [dropByteMark_withReturns]
      exact Utf8.returned_pieces none nofun (dropByteMark raw)
  | text content =>
      unfold withReturns decode
      dsimp only
      rw [dropMark_withReturns]
      unfold Search.withReturns
      rw [replaceAll_singleton]
      exact Returned.flatMap (dropMark content)

end Source
end AtMark
