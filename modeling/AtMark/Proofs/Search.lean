import AtMark.Search
import Mathlib.Data.List.Infix

/-!
# `Proofs.Search`: what a search finds

A search fails exactly where the mark does not occur (`breakOn_eq_none_iff`), and what it finds it also finds
with more behind (`breakOn_append`), since the first occurrence stays the first.  What holds no item of the
mark can be put behind a text without any effect on the search (`breakOn_append_of_not_mem`), and what holds
no beginning of the mark can be put before it (`IsPassed`).

Replacing a mark that is a single item goes item by item (`replaceAll_singleton`), and in a row of words that are marks
or passed over it goes word by word (`replaceAll_flatMap`).  Both are the way in which replacements by several marks,
one after the other, are shown to reach what was written and nothing else.

There is a search for the last occurrence as well.  It has fewer laws, because a mark may overlap itself: what is
found last need not be found from the start when all are taken in turn.  What is used of it is that it fails where the
first search fails (`breakOnLast_eq_none_iff`) and that no other occurrence begins behind the one it finds
(`exists_breakOnLast`).

Nothing here is about characters.  The searches go over lists of any items, and texts and bytes are such lists.
-/

namespace AtMark.Search

variable {α : Type} [DecidableEq α] {mark s before after : List α}

theorem skip?_eq_none_iff : skip? mark s = none ↔ ¬mark <+: s := by
  rw [Option.eq_none_iff_forall_ne_some]
  constructor
  · rintro h ⟨rest, hrest⟩
    exact h rest (skip?_eq_some_iff.mpr hrest.symm)
  · intro h rest hrest
    exact h ⟨rest, (skip?_eq_some_iff.mp hrest).symm⟩

theorem breakOn_eq_none_iff : breakOn mark s = none ↔ ¬mark <:+: s := by
  induction s with
  | nil =>
      rw [breakOn, Option.map_eq_none_iff, skip?_eq_none_iff, List.infix_nil, List.prefix_nil]
  | cons x xs ih =>
      rw [breakOn, List.infix_cons_iff, not_or, ← ih, ← skip?_eq_none_iff]
      cases hskip : skip? mark (x :: xs) with
      | none => simp
      | some rest => simp

theorem breakOn_append (h : breakOn mark s = some (before, after)) (t : List α) :
    breakOn mark (s ++ t) = some (before, after ++ t) := by
  induction s generalizing before with
  | nil =>
      obtain ⟨rest, hrest, heq⟩ := Option.map_eq_some_iff.mp h
      cases heq
      obtain ⟨rfl, rfl⟩ := List.append_eq_nil_iff.mp (skip?_eq_some_iff.mp hrest).symm
      cases t with
      | nil => rfl
      | cons y t => rfl
  | cons x xs ih =>
      rw [breakOn] at h
      cases hskip : skip? mark (x :: xs) with
      | some rest =>
          rw [hskip] at h
          cases h
          have hmore : skip? mark (x :: (xs ++ t)) = some (after ++ t) := by
            rw [skip?_eq_some_iff, ← List.append_assoc, ← skip?_eq_some_iff.mp hskip]
            rfl
          rw [List.cons_append, breakOn, hmore]
      | none =>
          rw [hskip] at h
          obtain ⟨⟨b, a⟩, hb, heq⟩ := Option.map_eq_some_iff.mp h
          cases heq
          -- The mark fits into the rest, so it would stand at the start without the text behind, too.
          have hmore : skip? mark (x :: (xs ++ t)) = none := by
            rw [skip?_eq_none_iff] at hskip ⊢
            intro hprefix
            refine hskip (List.prefix_of_prefix_length_le hprefix (List.prefix_append (x :: xs) t) ?_)
            have hlength := length_of_breakOn hb
            rw [List.length_cons]
            omega
          rw [List.cons_append, breakOn, hmore, ih hb]
          rfl

theorem not_infix_of_breakOn (hmark : mark ≠ []) (h : breakOn mark s = some (before, after)) :
    ¬mark <:+: before := by
  intro hoccurs
  cases hfront : breakOn mark before with
  | none => exact breakOn_eq_none_iff.mp hfront hoccurs
  | some found =>
      obtain ⟨b, a⟩ := found
      -- It would be found again in the whole, before the first occurrence.
      have hagain := breakOn_append hfront (mark ++ after)
      rw [← List.append_assoc, ← eq_of_breakOn h, h] at hagain
      have hsame : before = b := (Prod.mk.inj (Option.some.inj hagain)).1
      have hlength := length_of_breakOn hfront
      have hpos := List.length_pos_iff.mpr hmark
      rw [hsame] at hlength
      omega

/-- An occurrence that is the first one of a text is also the first one of every part that holds it. -/
theorem breakOn_of_append {u : List α} (h : breakOn mark (u ++ s) = some (u ++ before, after)) :
    breakOn mark s = some (before, after) := by
  induction u with
  | nil => exact h
  | cons x u ih =>
      rw [List.cons_append, List.cons_append, breakOn] at h
      split at h
      · cases h
      · obtain ⟨⟨b, a⟩, hb, heq⟩ := Option.map_eq_some_iff.mp h
        cases heq
        exact ih hb

/-! ## Text behind and text before -/

/-- A text that begins with no item of the mark, put behind, does not change what is skipped. -/
theorem skip?_append_of_head {t : List α} (h : ∀ y ∈ t.head?, y ∉ mark) :
    skip? mark (s ++ t) = (skip? mark s).map (· ++ t) := by
  induction mark generalizing s with
  | nil => simp only [skip?, Option.map_some]
  | cons m ms ih =>
      cases s with
      | nil =>
          cases t with
          | nil => rfl
          | cons y t =>
              have hne : m ≠ y := fun heq => h y rfl (heq ▸ List.mem_cons_self)
              show (if m = y then _ else none) = none
              exact if_neg hne
      | cons x xs =>
          rw [List.cons_append, skip?, skip?]
          split
          · exact ih fun y hy hmem => h y hy (List.mem_cons_of_mem m hmem)
          · rfl

/-- A text without any item of the mark, put behind, does not change what is found. -/
theorem breakOn_append_of_not_mem {t : List α} (h : ∀ m ∈ mark, m ∉ t) :
    breakOn mark (s ++ t) = (breakOn mark s).map fun found => (found.1, found.2 ++ t) := by
  cases hbreak : breakOn mark s with
  | some found => exact breakOn_append hbreak t
  | none =>
      rw [Option.map_none, breakOn_eq_none_iff]
      rw [breakOn_eq_none_iff] at hbreak
      induction s with
      | nil =>
          rintro ⟨front, back, heq⟩
          cases mark with
          | nil => exact hbreak (List.nil_infix)
          | cons m ms =>
              refine h m List.mem_cons_self ?_
              rw [List.nil_append] at heq
              rw [← heq]
              simp
      | cons x xs ih =>
          rw [List.infix_cons_iff, not_or, ← skip?_eq_none_iff] at hbreak
          rw [List.cons_append, List.infix_cons_iff, not_or, ← skip?_eq_none_iff, ← List.cons_append,
            skip?_append_of_head fun y hy hm => h y hm (List.mem_of_mem_head? hy), hbreak.1]
          exact ⟨rfl, ih hbreak.2⟩

/-- An item that the mark does not hold parts a text: the mark occurs before it or behind it. -/
theorem infix_of_parted {β : Type} {mark s t : List β} {x : β} (hx : x ∉ mark)
    (h : mark <:+: s ++ x :: t) : mark <:+: s ∨ mark <:+: t := by
  have hnil : ∀ l : List β, x ∉ l → l <+: x :: t → l = [] := by
    intro l hl hprefix
    cases l with
    | nil => rfl
    | cons y l => exact absurd ((List.cons_prefix_cons.mp hprefix).1 ▸ List.mem_cons_self) hl
  rcases List.infix_append_iff.mp h with h | h | ⟨front, back, rfl, hfront, hback⟩
  · exact .inl h
  · rcases List.infix_cons_iff.mp h with h | h
    · rw [hnil mark hx h]
      exact .inl List.nil_infix
    · exact .inr h
  · rw [hnil back (fun hmem => hx (List.mem_append_right front hmem)) hback, List.append_nil]
    exact .inl hfront.isInfix

theorem breakOn_mark (mark t : List α) : breakOn mark (mark ++ t) = some ([], t) := by
  have hskip : skip? mark (mark ++ t) = some t := skip?_eq_some_iff.mpr rfl
  cases h : mark ++ t with
  | nil =>
      rw [h] at hskip
      rw [breakOn, hskip]
      rfl
  | cons x xs =>
      rw [h] at hskip
      rw [breakOn, hskip]

/-- What stands behind the first occurrence does not matter. -/
theorem breakOn_behind (h : breakOn mark s = some (before, after)) (t : List α) :
    breakOn mark (before ++ mark ++ t) = some (before, t) := by
  have hfront : breakOn mark (before ++ mark) = some (before, []) := by
    induction s generalizing before with
    | nil =>
        obtain ⟨rest, hrest, heq⟩ := Option.map_eq_some_iff.mp h
        cases heq
        obtain ⟨rfl, rfl⟩ := List.append_eq_nil_iff.mp (skip?_eq_some_iff.mp hrest).symm
        rfl
    | cons x xs ih =>
        rw [breakOn] at h
        cases hskip : skip? mark (x :: xs) with
        | some rest =>
            rw [hskip] at h
            cases h
            have hmark := breakOn_mark mark []
            rwa [List.append_nil] at hmark
        | none =>
            rw [hskip] at h
            obtain ⟨⟨b, a⟩, hb, heq⟩ := Option.map_eq_some_iff.mp h
            cases heq
            -- An earlier occurrence would not reach beyond this one, so it would be one of the whole.
            have hearlier : skip? mark (x :: (b ++ mark)) = none := by
              rw [skip?_eq_none_iff] at hskip ⊢
              intro hstart
              rw [eq_of_breakOn hb] at hskip
              exact hskip (hstart.trans (List.prefix_append (x :: (b ++ mark)) _))
            rw [List.cons_append, breakOn, hearlier, ih hb]
            rfl
  exact breakOn_append hfront t

/-- No occurrence of the mark begins in the text, whatever is behind: the search passes over it. -/
def IsPassed (mark s : List α) : Prop :=
  ∀ t, breakOn mark (s ++ t) = (breakOn mark t).map fun found => (s ++ found.1, found.2)

namespace IsPassed

variable {m x : α} {ms : List α}

theorem nil (mark : List α) : IsPassed mark [] := by
  intro t
  exact (Option.map_id' ..).symm

theorem append {s' : List α} (h : IsPassed mark s) (h' : IsPassed mark s') : IsPassed mark (s ++ s') := by
  intro t
  rw [List.append_assoc, h, h', Option.map_map]
  simp only [Function.comp_def, List.append_assoc]

theorem cons (hx : ∀ t, skip? mark (x :: (s ++ t)) = none) (h : IsPassed mark s) :
    IsPassed mark (x :: s) := by
  intro t
  rw [List.cons_append, breakOn, hx t, h t, Option.map_map]
  rfl

theorem of_not_mem (h : m ∉ s) : IsPassed (m :: ms) s := by
  induction s with
  | nil => exact nil _
  | cons x s ih =>
      rw [List.mem_cons, not_or] at h
      obtain ⟨hx, hs⟩ := h
      refine cons (fun t => ?_) (ih hs)
      rw [skip?, if_neg hx]

/-- A word that begins like the mark is passed over if neither is the beginning of the other. -/
theorem of_incomparable {ws : List α} (hws : m ∉ ws) (hleft : ¬m :: ms <+: m :: ws) (hright : ¬m :: ws <+: m :: ms) :
    IsPassed (m :: ms) (m :: ws) := by
  refine cons (fun t => ?_) (of_not_mem hws)
  rw [skip?_eq_none_iff]
  intro hprefix
  rcases List.prefix_or_prefix_of_prefix hprefix (List.prefix_append (m :: ws) t) with h | h
  · exact hleft h
  · exact hright h

/-- A text without the mark is passed over together with an item that the mark does not hold. -/
theorem of_not_infix (hs : ¬(m :: ms) <:+: s) (hx : x ∉ m :: ms) : IsPassed (m :: ms) (s ++ [x]) := by
  induction s with
  | nil => exact of_not_mem fun h => hx (List.mem_singleton.mp h ▸ List.mem_cons_self)
  | cons y s ih =>
      rw [List.infix_cons_iff, not_or] at hs
      refine cons (fun t => ?_) (ih hs.2)
      rw [skip?_eq_none_iff]
      intro hprefix
      have hprefix : m :: ms <+: y :: s ++ x :: t := by simpa using hprefix
      rcases List.prefix_or_prefix_of_prefix hprefix (List.prefix_append (y :: s) (x :: t)) with h | ⟨rest, hrest⟩
      · exact hs.1 h
      · rw [← hrest] at hprefix hx hs
        cases rest with
        | nil => exact hs.1 ⟨[], by simp⟩
        | cons z rest =>
            obtain ⟨rfl, -⟩ := List.cons_prefix_cons.mp ((List.prefix_append_right_inj (y :: s)).mp hprefix)
            exact hx (List.mem_append_right _ List.mem_cons_self)

theorem breakOn_eq (h : IsPassed mark s) (t : List α) : breakOn mark (s ++ (mark ++ t)) = some (s, t) := by
  rw [h, breakOn_mark, Option.map_some, List.append_nil]

theorem breakOn_eq_none (h : IsPassed (m :: ms) s) : breakOn (m :: ms) s = none := by
  have hs := h []
  rw [List.append_nil] at hs
  rw [hs]
  rfl

end IsPassed

theorem breakOn_singleton {m : α} (h : m ∉ s) (t : List α) : breakOn [m] (s ++ m :: t) = some (s, t) :=
  (IsPassed.of_not_mem h).breakOn_eq t

theorem not_mem_of_breakOn_singleton {m : α} (h : breakOn [m] s = some (before, after)) :
    m ∉ before := by
  induction s generalizing before with
  | nil => cases h
  | cons x xs ih =>
      rw [breakOn, skip?] at h
      split at h
      · next hskip =>
        cases h
        exact List.not_mem_nil
      · next hskip =>
        obtain ⟨⟨b, a⟩, hb, heq⟩ := Option.map_eq_some_iff.mp h
        cases heq
        rw [List.mem_cons, not_or]
        refine ⟨?_, ih hb⟩
        rintro rfl
        rw [if_pos rfl] at hskip
        cases hskip

theorem breakOn_singleton_eq_none_iff {m : α} : breakOn [m] s = none ↔ m ∉ s := by
  rw [breakOn_eq_none_iff, List.singleton_infix_iff]

/-! ## The last occurrence -/

theorem breakOnLast_eq_none {m : α} {ms : List α} (h : m ∉ s) : breakOnLast (m :: ms) s = none := by
  induction s with
  | nil => rfl
  | cons x s ih =>
      rw [List.mem_cons, not_or] at h
      obtain ⟨hx, hs⟩ := h
      rw [breakOnLast, ih hs, skip?, if_neg hx]
      rfl

theorem breakOnLast_eq_none_iff : breakOnLast mark s = none ↔ ¬mark <:+: s := by
  induction s with
  | nil => rw [breakOnLast, Option.map_eq_none_iff, skip?_eq_none_iff, List.infix_nil, List.prefix_nil]
  | cons x xs ih =>
      rw [breakOnLast, List.infix_cons_iff, not_or, ← ih, ← skip?_eq_none_iff]
      cases hlast : breakOnLast mark xs with
      | none => simp
      | some found => simp

theorem breakOnLast_append {t : List α} (h : breakOnLast mark t = some (before, after)) (s : List α) :
    breakOnLast mark (s ++ t) = some (s ++ before, after) := by
  induction s with
  | nil => exact h
  | cons x s ih =>
      rw [List.cons_append, breakOnLast, ih]
      rfl

/-- The last occurrence of a mark does not begin before any other one. -/
theorem exists_breakOnLast (hmark : mark ≠ []) (s t : List α) :
    ∃ before after, breakOnLast mark (s ++ (mark ++ t)) = some (before, after) ∧ after <:+ t := by
  obtain ⟨m, ms, rfl⟩ := List.exists_cons_of_ne_nil hmark
  induction s with
  | nil =>
      rw [List.nil_append, List.cons_append, breakOnLast]
      cases hlast : breakOnLast (m :: ms) (ms ++ t) with
      | none =>
          have hskip : skip? (m :: ms) (m :: (ms ++ t)) = some t := skip?_eq_some_iff.mpr rfl
          refine ⟨[], t, ?_, List.suffix_refl t⟩
          rw [hskip]
          rfl
      | some found =>
          obtain ⟨before, after⟩ := found
          have heq := eq_of_breakOnLast hlast
          have hlength := congrArg List.length heq
          simp only [List.length_append, List.length_cons] at hlength
          have hwhole : after <:+ ms ++ t := heq ▸ List.suffix_append _ _
          exact ⟨m :: before, after, rfl,
            List.suffix_of_suffix_length_le hwhole (List.suffix_append ms t) (by omega)⟩
  | cons x s ih =>
      obtain ⟨before, after, hlast, hafter⟩ := ih
      refine ⟨x :: before, after, ?_, hafter⟩
      rw [List.cons_append, breakOnLast, hlast]

/-- A mark is the last one if it does not begin again. -/
theorem breakOnLast_mark {m : α} {ms : List α} (hms : m ∉ ms) (hs : m ∉ s) :
    breakOnLast (m :: ms) (m :: ms ++ s) = some ([], s) := by
  have hskip : skip? (m :: ms) (m :: (ms ++ s)) = some s := skip?_eq_some_iff.mpr rfl
  rw [List.cons_append, breakOnLast, breakOnLast_eq_none (List.not_mem_append hms hs), hskip]
  rfl

/-! ## Replacing -/

theorem replaceAll_of_some {new : List α} (hmark : mark ≠ []) (h : breakOn mark s = some (before, after)) :
    replaceAll mark new s = before ++ new ++ replaceAll mark new after := by
  rw [replaceAll, dif_neg hmark]
  split
  · next hnone =>
    rw [h] at hnone
    cases hnone
  · next hsome =>
    rw [h] at hsome
    cases hsome
    rfl

theorem replaceAll_of_none {new : List α} (hmark : mark ≠ []) (h : breakOn mark s = none) :
    replaceAll mark new s = s := by
  rw [replaceAll, dif_neg hmark]
  split
  · rfl
  · next hsome =>
    rw [h] at hsome
    cases hsome

theorem replaceAll_nil {new : List α} (hmark : mark ≠ []) : replaceAll mark new [] = [] := by
  cases mark with
  | nil => exact absurd rfl hmark
  | cons m ms => exact replaceAll_of_none hmark rfl

theorem replaceAll_of_skip {new : List α} (hmark : mark ≠ []) {rest : List α} (h : skip? mark s = some rest) :
    replaceAll mark new s = new ++ replaceAll mark new rest := by
  rw [skip?_eq_some_iff.mp h]
  exact replaceAll_of_some hmark (breakOn_mark mark rest)

theorem replaceAll_cons {new : List α} (hmark : mark ≠ []) {x : α} (h : skip? mark (x :: s) = none) :
    replaceAll mark new (x :: s) = x :: replaceAll mark new s := by
  have hbreak : breakOn mark (x :: s) = (breakOn mark s).map fun found => (x :: found.1, found.2) := by
    rw [breakOn, h]
  cases hrest : breakOn mark s with
  | none =>
      rw [hrest] at hbreak
      rw [replaceAll_of_none hmark hrest, replaceAll_of_none hmark hbreak]
  | some found =>
      rw [hrest] at hbreak
      rw [replaceAll_of_some hmark hrest, replaceAll_of_some hmark hbreak]
      rfl

theorem replaceAll_append {m : α} {ms new : List α} (h : m ∉ s) (t : List α) :
    replaceAll (m :: ms) new (s ++ t) = s ++ replaceAll (m :: ms) new t := by
  induction s with
  | nil => rfl
  | cons x s ih =>
      rw [List.mem_cons, not_or] at h
      rw [List.cons_append, replaceAll_cons (List.cons_ne_nil m ms) (if_neg h.1), ih h.2, List.cons_append]

theorem IsPassed.replaceAll_append {new : List α} (hmark : mark ≠ []) (h : IsPassed mark s) (t : List α) :
    replaceAll mark new (s ++ t) = s ++ replaceAll mark new t := by
  have hbreak := h t
  cases hrest : breakOn mark t with
  | none =>
      rw [hrest] at hbreak
      rw [replaceAll_of_none hmark hrest, replaceAll_of_none hmark hbreak]
  | some found =>
      rw [hrest] at hbreak
      rw [replaceAll_of_some hmark hrest, replaceAll_of_some hmark hbreak, List.append_assoc, List.append_assoc,
        List.append_assoc]

/-- In a row of words of which each is the mark or passed over, a mark is replaced wherever it was written. -/
theorem replaceAll_flatMap {β : Type} {new : List α} (hmark : mark ≠ []) {write write' : β → List α} {words : List β}
    (h : ∀ w ∈ words, write w = mark ∧ write' w = new ∨ IsPassed mark (write w) ∧ write' w = write w) :
    replaceAll mark new (words.flatMap write) = words.flatMap write' := by
  induction words with
  | nil => exact replaceAll_nil hmark
  | cons w words ih =>
      obtain ⟨hw, hwords⟩ := List.forall_mem_cons.mp h
      rw [List.flatMap_cons, List.flatMap_cons]
      rcases hw with ⟨hsame, hnew⟩ | ⟨hpassed, hkept⟩
      · rw [hsame, hnew, replaceAll_of_skip hmark (skip?_eq_some_iff.mpr rfl), ih hwords]
      · rw [hpassed.replaceAll_append hmark, hkept, ih hwords]

/-- The text with the first occurrence of a mark replaced, if there is one. -/
def replaceFirst (mark new s : List α) : List α :=
  match breakOn mark s with
  | none => s
  | some (before, after) => before ++ new ++ after

theorem replaceFirst_eq_self (new : List α) (h : ¬mark <:+: s) : replaceFirst mark new s = s := by
  rw [replaceFirst, breakOn_eq_none_iff.mpr h]

theorem replaceFirst_of_some (new : List α) (h : breakOn mark s = some (before, after)) :
    replaceFirst mark new s = before ++ new ++ after := by
  rw [replaceFirst, h]

theorem replaceAll_singleton (m : α) (new s : List α) :
    replaceAll [m] new s = s.flatMap fun c => if c = m then new else [c] := by
  have hmark : [m] ≠ [] := List.cons_ne_nil m []
  induction s with
  | nil => exact replaceAll_nil hmark
  | cons c s ih =>
      rw [List.flatMap_cons, ← ih]
      by_cases hc : c = m
      · rw [if_pos hc, hc]
        exact replaceAll_of_skip hmark (if_pos rfl)
      · rw [if_neg hc]
        exact replaceAll_cons hmark (if_neg (Ne.symm hc))

end AtMark.Search
