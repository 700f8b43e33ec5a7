import AtMark.Proofs.Position.Line
import AtMark.Proofs.Text.Words

/-!
# `Proofs.Token.Escape`: escapes, word by word

## What is proved

An escape is looked for anywhere in a text, but it does not reach beyond its word, and the mark holds no blank.  So
resolving the escapes of a text comes down to single words: the first doubled at sign of a word loses one of the two,
and all else stays, the blanks among it (`Escape.resolve_eq_mapWords`).  What a word needs to come out as it is, is one
more at sign in that place, and so any text can be written (`Escape.resolve_words`).

Prose is cut at its escapes by a reader of its own, which gives them out one by one and drops blanks on the way.  What
matters of its tokens is their text without blanks and how many of them are owned, and in these two it agrees with
resolving the escapes of the text (`Position.readProse_resolved`).

## How

Both readers keep to the same laws: a text that the search passes over only comes before (`Prose.tokens_passed`), and a
word with an escape is one owned token (`Prose.tokens_word`).  The reader of prose by positions gives the same tokens as
the one that goes over the text itself, so what holds of the one holds of the other.

## What is not

Which blanks prose keeps.  Its tokens are trimmed, so between two of them any blanks may have stood.
-/

namespace AtMark

open Search Text

variable {c : Char} {s u w before after : Text}

/-! ## Resolving escapes -/

namespace Escape

theorem occursIn_iff : occursIn s = true ↔ mark <:+: s := by
  rw [occursIn, Option.isSome_iff_ne_none, Ne, breakOn_eq_none_iff, not_not]

/-- The search for an escape goes through the first text and on in the second. -/
def GoesOn (u s : Text) : Prop :=
  breakOn mark (u ++ s) = (breakOn mark s).map fun found => (u ++ found.1, found.2)

theorem goesOn_blanks (hu : ∀ c ∈ u, isBlank c = true) (s : Text) : GoesOn u s :=
  IsPassed.of_not_mem (fun hmem => absurd (hu '@' hmem) (by decide)) s

/-- Neither does one begin in a word without an escape, since the word ends at a blank. -/
theorem goesOn_word (hw : ¬mark <:+: w) (hs : ∀ c ∈ s.head?, isBlank c = true) : GoesOn w s := by
  cases s with
  | nil =>
      show breakOn mark (w ++ []) = _
      rw [List.append_nil, breakOn_eq_none_iff.mpr hw]
      rfl
  | cons c s =>
      have hmark : c ∉ mark := by
        intro hmem
        have hsolid : ∀ d ∈ mark, isBlank d = false := by decide
        exact Bool.noConfusion ((hsolid c hmem).symm.trans (hs c rfl))
      have hblank : GoesOn [c] s := goesOn_blanks (by simpa using hs) s
      have hboth : GoesOn (w ++ [c]) s := IsPassed.of_not_infix hw hmark s
      unfold GoesOn at hblank hboth ⊢
      rw [List.append_assoc] at hboth
      rw [← List.singleton_append, hblank, hboth, Option.map_map]
      simp only [Function.comp_def, List.append_assoc]

theorem resolve_append (h : GoesOn u s) : resolve (u ++ s) = u ++ resolve s := by
  cases hs : breakOn mark s with
  | none =>
      rw [GoesOn, hs] at h
      rw [resolve_of_none h, resolve_of_none hs]
  | some found =>
      rw [GoesOn, hs] at h
      rw [resolve_of_some h, resolve_of_some hs]
      simp only [List.append_assoc]

/-- The first doubled at sign of the word becomes a single one. -/
def resolveWord (w : Text) : Text :=
  replaceFirst mark ['@'] w

/-- The first doubled at sign of the word gets one more. -/
def escapeWord (w : Text) : Text :=
  replaceFirst mark ['@', '@', '@'] w

theorem resolveWord_escapeWord (w : Text) : resolveWord (escapeWord w) = w := by
  unfold resolveWord escapeWord
  cases h : breakOn mark w with
  | none =>
      have hnone := breakOn_eq_none_iff.mp h
      rw [replaceFirst_eq_self _ hnone, replaceFirst_eq_self _ hnone]
  | some found =>
      obtain ⟨before, after⟩ := found
      have hsplit : before ++ ['@', '@', '@'] ++ after = before ++ mark ++ '@' :: after := by
        rw [List.append_assoc, List.append_assoc]
        rfl
      rw [replaceFirst_of_some _ h, hsplit, replaceFirst_of_some _ (breakOn_behind h _), eq_of_breakOn h,
        List.append_assoc, List.append_assoc]
      rfl

theorem isWord_replaceFirst {new : Text} (hne : new ≠ []) (hnew : ∀ c ∈ new, isSolid c = true) (hw : IsWord w) :
    IsWord (replaceFirst mark new w) := by
  unfold replaceFirst
  split
  · exact hw
  · next before after h =>
    obtain ⟨-, hsolid⟩ := hw
    rw [eq_of_breakOn h] at hsolid
    refine ⟨List.append_ne_nil_of_left_ne_nil (List.append_ne_nil_of_right_ne_nil _ hne) _, fun c hc => ?_⟩
    rcases List.mem_append.mp hc with hc | hc
    · rcases List.mem_append.mp hc with hc | hc
      · exact hsolid c (List.mem_append_left _ (List.mem_append_left _ hc))
      · exact hnew c hc
    · exact hsolid c (List.mem_append_right _ hc)

theorem isWord_resolveWord (w : Text) (hw : IsWord w) : IsWord (resolveWord w) :=
  isWord_replaceFirst (by decide) (by decide) hw

theorem isWord_escapeWord (w : Text) (hw : IsWord w) : IsWord (escapeWord w) :=
  isWord_replaceFirst (by decide) (by decide) hw

theorem isSolid_of_breakOn (hw : IsWord w) (h : breakOn mark w = some (before, after)) :
    (∀ c ∈ before, isSolid c = true) ∧ ∀ c ∈ after, isSolid c = true := by
  have hsplit := eq_of_breakOn h
  constructor
  · intro c hc
    refine hw.2 c ?_
    rw [hsplit]
    exact List.mem_append_left _ (List.mem_append_left _ hc)
  · intro c hc
    refine hw.2 c ?_
    rw [hsplit]
    exact List.mem_append_right _ hc

theorem resolve_eq_mapWords (s : Text) : resolve s = mapWords resolveWord s := by
  induction s using words_induction with
  | nil => rw [mapWords, resolve_of_none rfl]
  | blank c s hc ih =>
      have hblank := resolve_append (goesOn_blanks (u := [c]) (by simpa using hc) s)
      rw [mapWords_blank hc, ← ih]
      exact hblank
  | word w s hw hs ih =>
      rw [mapWords_append hw hs, ← ih]
      cases h : breakOn mark w with
      | none =>
          have hnone := breakOn_eq_none_iff.mp h
          rw [resolveWord, replaceFirst_eq_self _ hnone, resolve_append (goesOn_word hnone hs)]
      | some found =>
          obtain ⟨before, after⟩ := found
          have hafter := (isSolid_of_breakOn hw h).2
          have hstop := isSolid_eq_false_of_head hs
          rw [resolveWord, replaceFirst_of_some _ h, resolve_of_some (breakOn_append h s),
            takeWhile_append_of_head hafter hstop, dropWhile_append_of_head hafter hstop, List.append_assoc before ['@']]
          rfl

/-- Escapes are resolved word by word.  In each word that holds a doubled at sign the first of them becomes a single
one; other words and all blanks stay as they are.  The text is said to have been changed exactly if there is a doubled
at sign in it.  So every text can be written: it comes back if each of those words gets one more at sign. -/
theorem resolve_words (s : Text) :
    resolve s = mapWords resolveWord s ∧
      words (resolve s) = (words s).map resolveWord ∧
      (resolve s).filter isBlank = s.filter isBlank ∧
      (occursIn s = true ↔ mark <:+: s) ∧
      resolve (mapWords escapeWord s) = s := by
  have hresolve := resolve_eq_mapWords s
  refine ⟨hresolve, ?_, ?_, occursIn_iff, ?_⟩
  · rw [hresolve, words_mapWords isWord_resolveWord]
  · rw [hresolve, filter_isBlank_mapWords isWord_resolveWord]
  · rw [resolve_eq_mapWords, mapWords_mapWords isWord_escapeWord]
    exact mapWords_eq_self (fun w _ => resolveWord_escapeWord w) s

end Escape

/-! ## Prose -/

/-- The texts of tokens, one behind the other, without blanks. -/
def Token.solidText (ts : List Token) : Text :=
  (ts.flatMap Token.lexeme).filter isSolid

namespace Prose

open Escape Token

theorem solidText_append (ts us : List Token) : solidText (ts ++ us) = solidText ts ++ solidText us := by
  unfold solidText
  rw [List.flatMap_append, List.filter_append]

theorem filter_isSolid_of_blank (hu : ∀ c ∈ u, isBlank c = true) : u.filter isSolid = [] := by
  refine List.filter_eq_nil_iff.mpr fun c hc => ?_
  rw [isSolid, hu c hc]
  exact Bool.false_ne_true

theorem tokens_last (h : breakOn mark s = none) :
    solidText (tokens s) = s.filter isSolid ∧ (tokens s).countP Token.owned = 0 := by
  obtain ⟨tail, htail, hs⟩ := trimEnd_append_tail isTrailing s
  have htrim : (trimEnd isTrailing s).filter isSolid = s.filter isSolid := by
    have hblank := filter_isSolid_of_blank fun c hc => isBlank_of_isTrailing (htail c hc)
    conv => right; rw [← hs, List.filter_append, hblank, List.append_nil]
  rw [tokens_eq (breakOn_eq_none_iff.mp h), ← htrim, contentUnlessEmpty]
  split
  · next hnil =>
    rw [List.isEmpty_iff.mp hnil]
    exact ⟨rfl, rfl⟩
  · exact ⟨congrArg (List.filter isSolid) (List.append_nil _), rfl⟩

/-- The piece before an escape has its text, without blanks, whether it is given out or not. -/
theorem tokens_before (before : Text) :
    let ts : List Token := if allBlank before then [] else [⟨.content, before, false⟩]
    solidText ts = before.filter isSolid ∧ ts.countP Token.owned = 0 := by
  dsimp only
  split
  · next hblank => exact ⟨(filter_isSolid_of_blank (List.all_eq_true.mp hblank)).symm, rfl⟩
  · exact ⟨congrArg (List.filter isSolid) (List.append_nil _), rfl⟩

theorem tokens_next (h : breakOn mark s = some (before, after)) :
    solidText (tokens s) = before.filter isSolid ++ ('@' :: after.takeWhile isSolid ++
        solidText (tokens ((after.dropWhile isSolid).dropWhile isIndent))) ∧
      (tokens s).countP Token.owned =
        (tokens ((after.dropWhile isSolid).dropWhile isIndent)).countP Token.owned + 1 := by
  obtain ⟨htext, hcount⟩ := tokens_before before
  have hword : ('@' :: after.takeWhile isSolid).filter isSolid = '@' :: after.takeWhile isSolid := by
    refine List.filter_eq_self.mpr (List.forall_mem_cons.mpr ⟨rfl, fun c hc => ?_⟩)
    exact List.mem_takeWhile_imp hc
  constructor
  · rw [tokens_of_some h, solidText_append, htext, ← List.singleton_append, solidText_append]
    show _ ++ ((('@' :: after.takeWhile isSolid) ++ []).filter isSolid ++ _) = _
    rw [List.append_nil, hword]
  · rw [tokens_of_some h, List.countP_append, hcount, List.countP_cons_of_pos rfl, Nat.zero_add]

/-- What the search goes through comes before, and adds no owned token. -/
theorem tokens_passed (h : GoesOn u s) :
    solidText (tokens (u ++ s)) = u.filter isSolid ++ solidText (tokens s) ∧
      (tokens (u ++ s)).countP Token.owned = (tokens s).countP Token.owned := by
  cases hs : breakOn mark s with
  | none =>
      rw [GoesOn, hs] at h
      obtain ⟨htext, hcount⟩ := tokens_last hs
      obtain ⟨htext', hcount'⟩ := tokens_last h
      exact ⟨by rw [htext', htext, List.filter_append], hcount'.trans hcount.symm⟩
  | some found =>
      rw [GoesOn, hs] at h
      obtain ⟨htext, hcount⟩ := tokens_next hs
      obtain ⟨htext', hcount'⟩ := tokens_next h
      exact ⟨by rw [htext', htext, List.filter_append, List.append_assoc], hcount'.trans hcount.symm⟩

theorem tokens_word (hw : IsWord w) (hs : ∀ c ∈ s.head?, isBlank c = true) (hescape : mark <:+: w) :
    solidText (tokens (w ++ s)) = resolveWord w ++ solidText (tokens s) ∧
      (tokens (w ++ s)).countP Token.owned = (tokens s).countP Token.owned + 1 := by
  obtain ⟨⟨before, after⟩, h⟩ := Option.isSome_iff_exists.mp (occursIn_iff.mpr hescape)
  obtain ⟨hbefore, hafter⟩ := isSolid_of_breakOn hw h
  have hstop := isSolid_eq_false_of_head hs
  obtain ⟨htext, hcount⟩ := tokens_next (breakOn_append h s)
  rw [takeWhile_append_of_head hafter hstop, dropWhile_append_of_head hafter hstop] at htext
  rw [dropWhile_append_of_head hafter hstop] at hcount
  -- The blanks that are skipped behind the escape make no difference.
  have hblanks : ∀ c ∈ s.takeWhile isIndent, isBlank c = true :=
    fun c hc => isBlank_of_isIndent (List.mem_takeWhile_imp hc)
  obtain ⟨hskipped, hcount'⟩ := tokens_passed (goesOn_blanks hblanks (s.dropWhile isIndent))
  rw [List.takeWhile_append_dropWhile, filter_isSolid_of_blank hblanks, List.nil_append] at hskipped
  rw [List.takeWhile_append_dropWhile] at hcount'
  refine ⟨?_, by rw [hcount, hcount']⟩
  rw [htext, hskipped, List.filter_eq_self.mpr hbefore, resolveWord, replaceFirst_of_some _ h]
  simp only [List.append_assoc, List.cons_append, List.nil_append]

theorem tokens_resolved (s : Text) :
    solidText (tokens s) = (resolve s).filter isSolid ∧
      (tokens s).countP Token.owned = (words s).countP occursIn := by
  induction s using words_induction with
  | nil =>
      rw [tokens_eq (by decide), resolve_of_none rfl]
      exact ⟨rfl, rfl⟩
  | blank c s hc ih =>
      have hblank : GoesOn [c] s := goesOn_blanks (by simpa using hc) s
      obtain ⟨htext, hcount⟩ := tokens_passed hblank
      have hresolve := resolve_append hblank
      rw [List.singleton_append] at htext hcount hresolve
      exact ⟨by rw [htext, hresolve, List.filter_append, ih.1], by rw [hcount, words_blank hc, ih.2]⟩
  | word w s hw hs ih =>
      have hsolid : ∀ {v : Text}, IsWord v → v.filter isSolid = v := fun hv => List.filter_eq_self.mpr hv.2
      rw [resolve_eq_mapWords, mapWords_append hw hs, ← resolve_eq_mapWords, List.filter_append,
        hsolid (isWord_resolveWord w hw), words_append hw hs, ← ih.1]
      by_cases hescape : mark <:+: w
      · obtain ⟨htext, hcount⟩ := tokens_word hw hs hescape
        exact ⟨htext, by rw [hcount, List.countP_cons_of_pos (occursIn_iff.mpr hescape), ih.2]⟩
      · obtain ⟨htext, hcount⟩ := tokens_passed (goesOn_word hescape hs)
        rw [hsolid hw] at htext
        refine ⟨by rw [htext, resolveWord, replaceFirst_eq_self _ hescape], ?_⟩
        rw [hcount, List.countP_cons_of_neg (mt occursIn_iff.mp hescape), ih.2]

theorem lexeme_ne_nil_of_mem_tokens (s : Text) : ∀ t ∈ tokens s, t.kind = .content ∧ t.lexeme ≠ [] := by
  fun_induction tokens s with
  | case1 s h =>
      intro t ht
      unfold contentUnlessEmpty at ht
      split at ht
      · exact absurd ht List.not_mem_nil
      · next hne =>
        obtain rfl := List.mem_singleton.mp ht
        exact ⟨rfl, fun hnil => hne (List.isEmpty_iff.mpr hnil)⟩
  | case2 s before after h ih =>
      intro t ht
      rcases List.mem_append.mp ht with ht | ht
      · split at ht
        · exact absurd ht List.not_mem_nil
        · next hblank =>
          obtain rfl := List.mem_singleton.mp ht
          refine ⟨rfl, ?_⟩
          rintro rfl
          exact hblank rfl
      · rcases List.mem_cons.mp ht with rfl | ht
        · exact ⟨rfl, List.cons_ne_nil _ _⟩
        · exact ih t ht

end Prose

/-- Prose between two positions of a source has the text that resolving its escapes gives, blanks aside.  Each word
with an escape is an owned token, and no token is empty. -/
theorem Position.readProse_resolved {source : Text} {start stop : Nat} (hstart : start ≤ stop)
    (hstop : stop ≤ source.length) :
    readProse source stop start = .ok (Prose.tokens (slice source start stop)) ∧
      ((Prose.tokens (slice source start stop)).flatMap Token.lexeme).filter isSolid =
        (Escape.resolve (slice source start stop)).filter isSolid ∧
      (Prose.tokens (slice source start stop)).countP Token.owned =
        (words (slice source start stop)).countP Escape.occursIn ∧
      ∀ t ∈ Prose.tokens (slice source start stop), t.kind = .content ∧ t.lexeme ≠ [] := by
  obtain ⟨htext, hcount⟩ := Prose.tokens_resolved (slice source start stop)
  exact ⟨readProse_eq (Stands.slice_of_le hstart hstop), htext, hcount, Prose.lexeme_ne_nil_of_mem_tokens _⟩

/-- Escapes at both ends of words and in their middle, a run of four at signs, and blanks of several kinds. -/
theorem Position.readProse_resolved_blanks :
    2 ≤ 23 ∧ 23 ≤ "# a@@b@@ \t@@@@c\u2003@@ d  \r\n@@".toList.length ∧
      readProse "# a@@b@@ \t@@@@c\u2003@@ d  \r\n@@" 23 2 =
        .ok [⟨.content, "a", false⟩, ⟨.content, "@b@@", true⟩, ⟨.content, "@@@c", true⟩, ⟨.content, "@", true⟩,
          ⟨.content, "d", false⟩] ∧
      (words (slice "# a@@b@@ \t@@@@c\u2003@@ d  \r\n@@" 2 23)).countP Escape.occursIn = 3 := by
  have hstart : 2 ≤ 23 := by decide
  have hstop : 23 ≤ "# a@@b@@ \t@@@@c\u2003@@ d  \r\n@@".toList.length := by decide
  obtain ⟨hread, -, hcount, -⟩ := readProse_resolved hstart hstop
  refine ⟨hstart, hstop, ?_, ?_⟩
  · rw [hread]
    decide +kernel
  · decide +kernel

end AtMark
