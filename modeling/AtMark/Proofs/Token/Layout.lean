import AtMark.Proofs.Token.Form

/-!
# `Proofs.Token.Layout`: the tokens of a line in the order of their texts

`Laid s ts rest` says that the texts of the tokens stand in `s`, one behind the other, and all of them before
`rest`; a token that is owned has its text from elsewhere and may stand anywhere in the list.  This is what a
reader promises that gives `ts` and leaves `rest`, and two readings in turn make one (`Laid.trans`).

Here the promise is kept reader by reader, up to the step at a line (`Line.laid_scan`).  A list that is given up
is no exception: its items are those of its own line, and the reader goes on behind that line.  Nor are escapes: a
content without one has the text that it was made of, and a content with one is owned (`Escape.laid_contentToken`).

The promise is about texts and not about positions.  A text may stand in a source more than once, and which of the
places is meant is settled only when all tokens of a stream are placed in turn (`Proofs.Token.Order`).  The step at a
fence is not in here, because its body may lose carriage returns and then stands nowhere (`Proofs.Token.Slice`).
-/

namespace AtMark

open Text

/-- The texts of the tokens that are not owned stand in the first text, one behind the other, and before the
last text. -/
inductive Laid : Text → List Token → Text → Prop
  | nil {s rest : Text} : rest <:+ s → Laid s [] rest
  | owned {s rest : Text} {t : Token} {ts : List Token} : t.owned = true → Laid s ts rest → Laid s (t :: ts) rest
  | slice {s s' rest : Text} {t : Token} {ts : List Token} :
      t.lexeme ++ s' <:+ s → Laid s' ts rest → Laid s (t :: ts) rest

namespace Laid

variable {s s' u rest rest' : Text} {t : Token} {ts us : List Token}

theorem refl (s : Text) : Laid s [] s :=
  .nil (List.suffix_refl s)

theorem of_suffix (hs : s <:+ u) (h : Laid s ts rest) : Laid u ts rest := by
  induction h with
  | nil hrest => exact .nil (hrest.trans hs)
  | owned ht _ ih => exact .owned ht (ih hs)
  | slice hslice hmore _ => exact .slice (hslice.trans hs) hmore

/-- One reading and then another. -/
theorem trans (h : Laid s ts s') (h' : Laid s' us rest) : Laid s (ts ++ us) rest := by
  induction h with
  | nil hrest => exact h'.of_suffix hrest
  | owned ht _ ih => exact .owned ht (ih h')
  | slice hslice _ ih => exact .slice hslice (ih h')

theorem leave (h : Laid s ts rest) (hrest : rest' <:+ rest) : Laid s ts rest' := by
  have hboth := h.trans (.nil hrest)
  rwa [List.append_nil] at hboth

/-- More text behind. -/
theorem followedBy (h : Laid s ts rest) (u : Text) : Laid (s ++ u) ts (rest ++ u) := by
  have hsuffix : ∀ {a b : Text}, a <:+ b → a ++ u <:+ b ++ u := by
    rintro a b ⟨front, rfl⟩
    exact ⟨front, (List.append_assoc ..).symm⟩
  induction h with
  | nil hrest => exact .nil (hsuffix hrest)
  | owned ht _ ih => exact .owned ht ih
  | slice hslice _ ih =>
      refine .slice ?_ ih
      rw [← List.append_assoc]
      exact hsuffix hslice

/-- The tokens of a piece of a text, as tokens of the text up to the end of the piece. -/
theorem within (h : Laid s ts rest) (hs : s ++ s' <:+ u) : Laid u ts s' :=
  ((h.leave List.nil_suffix).followedBy s').of_suffix hs

theorem of_part (h : Laid s ts rest) (hs : s <:+: u) : Laid u ts [] := by
  obtain ⟨front, back, rfl⟩ := hs
  have hback : s ++ back <:+ front ++ s ++ back := ⟨front, (List.append_assoc ..).symm⟩
  exact (h.within hback).leave List.nil_suffix

theorem one (hs : t.lexeme ++ rest <:+ s) : Laid s [t] rest :=
  .slice hs (.refl rest)

theorem contentUnlessEmpty (owned : Bool) (hs : u ++ rest <:+ s) :
    Laid s (Token.contentUnlessEmpty u owned) rest := by
  unfold Token.contentUnlessEmpty
  split
  · exact .nil ((List.suffix_append u rest).trans hs)
  · exact .one hs

end Laid

/-! ## Prose -/

/-- A content token is owned, or has the text that it was made of. -/
theorem Escape.laid_contentToken (s : Text) : Laid s [contentToken s] [] := by
  cases howned : occursIn s with
  | true => exact .owned howned (.nil List.nil_suffix)
  | false =>
      have hbreak : Search.breakOn mark s = none :=
        Option.isSome_eq_false_iff.mp howned |> Option.isNone_iff_eq_none.mp
      exact .one ⟨[], (List.append_nil _).trans (resolve_of_none hbreak)⟩

theorem Prose.laid_tokens (s : Text) : Laid s (tokens s) [] := by
  fun_induction tokens s with
  | case1 s hbreak =>
      obtain ⟨tail, -, hs⟩ := trimEnd_append_tail isTrailing s
      exact (Laid.contentUnlessEmpty false ⟨[], hs⟩).leave (List.nil_suffix (l := tail))
  | case2 s before after hbreak ih =>
      have hs : s = before ++ (Escape.mark ++ after) := by
        rw [Search.eq_of_breakOn hbreak, List.append_assoc]
      have hbefore : Laid s (if allBlank before then [] else [⟨.content, before, false⟩])
          (Escape.mark ++ after) := by
        split
        · rw [hs]
          exact .nil (List.suffix_append _ _)
        · rw [hs]
          exact .one (List.suffix_refl _)
      have hafter : (after.dropWhile isSolid).dropWhile isIndent <:+ Escape.mark ++ after :=
        ((List.dropWhile_suffix isIndent).trans (List.dropWhile_suffix isSolid)).trans (List.suffix_append _ _)
      exact hbefore.trans (.owned rfl (ih.of_suffix hafter))

/-! ## Parameter lists -/

namespace Quoted

/-- The token of a value. -/
def token (q : Quoted) : Token :=
  ⟨.parameterValue, q.value, q.owned⟩

/-- A value that is not owned stands at the start, and what is left stands behind it. -/
theorem eq_append_of_not_owned (s : Text) :
    (read s).owned = false → ∃ close, s = (read s).value ++ (close ++ (read s).rest) := by
  fun_induction read s with
  | case1 => exact fun _ => ⟨[], rfl⟩
  | case2 cs => exact fun _ => ⟨['"'], rfl⟩
  | case3 c cs ih => exact fun howned => Bool.noConfusion howned
  | case4 c cs _ _ ih =>
      intro howned
      obtain ⟨close, hcs⟩ := ih howned
      exact ⟨close, congrArg (c :: ·) hcs⟩

theorem laid_token (s : Text) : Laid s [(read s).token] (read s).rest := by
  cases howned : (read s).owned with
  | true => exact .owned howned (.nil (rest_suffix s))
  | false =>
      obtain ⟨close, hs⟩ := eq_append_of_not_owned s howned
      have hvalue : (read s).token.lexeme ++ (close ++ (read s).rest) <:+ s := ⟨[], hs.symm⟩
      exact (Laid.one hvalue).leave (List.suffix_append close _)

end Quoted

namespace Parameters

theorem laid_readValue (s : Text) : Laid s [(readValue s).token] (readValue s).rest := by
  have h := List.dropWhile_suffix isIndent (l := s)
  unfold readValue
  split
  · next cs hcs =>
    rw [hcs] at h
    exact (Quoted.laid_token cs).of_suffix ((List.suffix_cons _ cs).trans h)
  · exact .one (List.IsSuffix.trans ⟨[], List.takeWhile_append_dropWhile⟩ h)

theorem laid_readAssigned (s : Text) : Laid s [(readAssigned s).token] (readAssigned s).rest := by
  have h := List.dropWhile_suffix isIndent (l := s)
  unfold readAssigned
  split
  · next cs hcs =>
    rw [hcs] at h
    exact (laid_readValue cs).of_suffix ((List.suffix_cons _ cs).trans h)
  · exact .one (List.suffix_refl s)

theorem laid_readItem (c : Char) (cs : Text) : Laid (c :: cs) (readItem c cs).1.tokens (readItem c cs).2 :=
  .slice ⟨[], congrArg (c :: ·) (Name.take_append_rest cs)⟩ (laid_readAssigned (Name.rest cs))

theorem laid_scan (s : Text) : Laid s (scan s).tokens (scan s).rest := by
  fun_induction scan s with
  | case1 => exact .refl []
  | case2 cs => exact .nil (List.suffix_cons _ cs)
  | case3 c cs _ _ ih => exact (laid_readItem c cs).trans ih
  | case4 c cs _ _ ih => exact ih.of_suffix (List.suffix_cons c cs)

theorem laid_recover (s : Text) : Laid s (recover s).tokens (recover s).rest := by
  unfold recover
  split
  · exact laid_scan s
  · exact (laid_scan (firstLine s)).within ⟨[], firstLine_append_fromLineEnd s⟩

end Parameters

/-! ## Lines outside a fence -/

namespace Line

theorem infix_of_heading? {s text : Text} {level : Nat} (h : heading? s = some (level, text)) :
    text <:+: s := by
  unfold heading? at h
  dsimp only at h
  split at h
  · cases h
    refine (isInfix_trim isBlank _).trans ?_
    exact ((List.dropWhile_suffix isIndent).trans (List.dropWhile_suffix (· == '#'))).isInfix
  · cases h

theorem laid_headingTokens (level : Nat) (text : Text) : Laid text (headingTokens level text) [] := by
  refine .owned rfl (.owned rfl (.owned rfl ?_))
  split
  · exact .nil List.nil_suffix
  · exact Escape.laid_contentToken text

theorem laid_tailTokens (tail : Text) : Laid tail (tailTokens tail) [] := by
  unfold tailTokens
  split
  · next front hfront =>
    obtain rfl := Search.cutEnd?_eq_some_iff.mp hfront
    split
    · exact Escape.laid_contentToken _
    · have hbody : Laid front (if trimEnd isIndent front = [] then []
          else [Escape.contentToken (trimEnd isIndent front)]) [] := by
        split
        · exact .nil List.nil_suffix
        · exact (Escape.laid_contentToken _).of_part (isPrefix_trimEnd isIndent front).isInfix
      exact (hbody.within (List.suffix_refl _)).trans (.one (List.suffix_refl _))
  · split
    · exact .nil List.nil_suffix
    · exact Escape.laid_contentToken tail

namespace LineForm

theorem laid_ofMark (s : Text) : Laid ('@' :: s) (ofMark s).tokens [] := by
  unfold ofMark
  dsimp only
  split
  · exact Prose.laid_tokens _
  · split
    · split
      · have hprose : Laid s (Prose.tokens (s.dropWhile isIndent)) [] :=
          (Prose.laid_tokens _).of_suffix (List.dropWhile_suffix isIndent)
        exact .slice (List.suffix_refl _) hprose
      · exact Prose.laid_tokens _
    · split
      · exact Prose.laid_tokens _
      · exact .nil List.nil_suffix

theorem laid_ofBody (s : Text) : Laid s (ofBody s).tokens [] := by
  unfold ofBody
  split
  · exact laid_ofMark _
  · split
    · next level text hheading =>
      refine (laid_headingTokens level text).of_part ?_
      exact (infix_of_heading? hheading).trans (isPrefix_trimEnd isTrailing s).isInfix
    · exact Prose.laid_tokens s

theorem laid_ofLine (line : Text) : Laid line (ofLine line).tokens [] := by
  unfold ofLine
  dsimp only
  split
  · exact .nil List.nil_suffix
  · split
    · next hcore =>
      have hmarker : Token.endMarker <:+: line := hcore ▸ isInfix_trim isTrailing line
      have hone : Laid Token.endMarker [Token.blockEnd] [] := .one (List.suffix_refl _)
      exact hone.of_part hmarker
    · exact (laid_ofBody _).of_suffix (List.dropWhile_suffix isIndent)

end LineForm

theorem laid_parameters (s : Text) : Laid s (parameters s).tokens (parameters s).rest := by
  unfold parameters
  split
  · next inner => exact (Parameters.laid_recover inner).of_suffix (List.suffix_cons _ inner)
  · exact .refl s

/-- The tokens of what follows on the line, up to the next line. -/
theorem laid_line {s line : Text} {ts : List Token} (h : Laid line ts []) (hline : line <:+: firstLine s) :
    Laid s ts (afterLine s) := by
  have hwithin := (h.of_part hline).within ⟨[], firstLine_append_fromLineEnd s⟩
  exact hwithin.leave (List.drop_suffix 1 (fromLineEnd s))

theorem laid_scanDirective (fenced : List Text) (name s : Text) :
    Laid (name ++ s) (scanDirective fenced name s).tokens (scanDirective fenced name s).next.rest := by
  have hheader : Laid (name ++ s) (⟨.directive, name, false⟩ :: (parameters s).tokens) (parameters s).rest :=
    .slice (List.suffix_refl _) (laid_parameters s)
  by_cases hname : name ∈ fenced
  · rw [scanDirective_fenced hname]
    exact hheader.leave (Fence.bodyStart_suffix name _)
  · rw [scanDirective_unfenced hname]
    exact hheader.trans (laid_line (laid_tailTokens _) (isInfix_trim _ _))

/-- The step at a line gives tokens whose texts stand one behind the other before what it leaves. -/
theorem laid_scan (fenced : List Text) (s : Text) : Laid s (scan fenced s).tokens (scan fenced s).next.rest := by
  rcases scan_cases fenced s with ⟨name, r, -, hr, hscan⟩ | ⟨-, hscan⟩
  · rw [hscan]
    refine (laid_scanDirective fenced name _).of_suffix ?_
    rw [← hr]
    exact List.dropWhile_suffix isIndent
  · rw [hscan]
    exact laid_line (LineForm.laid_ofLine _) (List.infix_refl _)

end Line
end AtMark
