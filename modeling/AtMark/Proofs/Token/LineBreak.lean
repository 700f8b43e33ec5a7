import AtMark.Proofs.Search
import AtMark.Proofs.Text.LineBreak
import AtMark.Proofs.Token.Header

/-!
# `Proofs.Token.LineBreak`: line ends do not matter

## What is proved

A source may end its lines in newlines or in carriage returns and newlines: its stream is the same, as long as no
quoted value can run over a line end and keep it.  Hence the two hypotheses: no double quote, and no carriage return but
those of the line ends (`ofSource_withReturns`).  The run may be followed through a source that mixes both ways as well
(`unguarded_returned`).

## How

The two sources are read side by side, and what is left of them stays related (`Text.Returned`).  A line of the one is
the line of the other but for a carriage return at its end, which no form of a line looks at (`LineForm.ofLine_append`),
so lines read alike.  Lists may run over lines, so their readers are followed item by item (`Parameters.scan_returned`),
and without quotes an item never does.  Bodies lose the carriage returns at the ends of their lines anyway
(`Fence.read_returned`).

## What is not

Carriage returns elsewhere, and quoted values with line ends in them.  Such a value is kept as it was written, so with
other line ends it is another value.
-/

namespace AtMark

open Text

/-! ## Lines outside a fence -/

section Lines
variable {e s t : Text}

namespace Prose

theorem tokens_append_lineTail (he : IsLineTail e) (s : Text) : tokens (s ++ e) = tokens s := by
  fun_induction tokens s with
  | case1 s hbreak =>
      rw [Search.breakOn_eq_none_iff] at hbreak
      have hmore : ¬Escape.mark <:+: s ++ e := by
        intro hinfix
        rcases he with rfl | rfl
        · rw [List.append_nil] at hinfix
          exact hbreak hinfix
        · rcases List.infix_concat_iff.mp hinfix with hsuffix | hinfix
          · -- An escape does not end in a carriage return.
            obtain ⟨front, hfront⟩ := hsuffix
            have hlast := congrArg List.getLast? hfront
            rw [List.getLast?_append, List.getLast?_concat] at hlast
            exact absurd (Option.some.inj hlast) (by decide)
          · exact hbreak hinfix
      rw [tokens_eq hmore, trimEnd_append_lineTail he rfl]
  | case2 s before after hbreak ih =>
      have hsolid : (after ++ e).takeWhile isSolid = after.takeWhile isSolid :=
        (Returned.append e after).takeWhile_eq he (by decide) (by decide)
      rw [tokens_of_some (Search.breakOn_append hbreak e), hsolid,
        dropWhile_append_lineTail he (by decide), dropWhile_append_lineTail he (by decide), ih]

end Prose

namespace Line.LineForm

/-- The reading of a line with some text behind it that does not count. -/
def append (e : Text) : LineForm → LineForm
  | loneMark text => loneMark (text ++ e)
  | prose text => prose (text ++ e)
  | form => form

theorem append_eq_directive_iff {name : Text} {form : LineForm} :
    form.append e = directive name ↔ form = directive name := by
  cases form <;> simp [append]

theorem append_tokens (he : IsLineTail e) (form : LineForm) : (form.append e).tokens = form.tokens := by
  cases form with
  | loneMark text => exact congrArg (List.cons _) (Prose.tokens_append_lineTail he text)
  | prose text => exact Prose.tokens_append_lineTail he text
  | skipped => rfl
  | closer => rfl
  | heading level text => rfl
  | directive name => rfl

theorem head?_append_lineTail_eq (he : IsLineTail e) (s : Text) :
    (s ++ e).head? = some '@' ↔ s.head? = some '@' := by
  cases s with
  | nil => rcases he with rfl | rfl <;> simp
  | cons c s => rfl

theorem ofMark_append (he : IsLineTail e) (s : Text) : ofMark (s ++ e) = (ofMark s).append e := by
  have htake : Name.take (s ++ e) = Name.take s :=
    (Returned.append e s).takeWhile_eq he (by decide) (by decide)
  have htrailing : (s ++ e).head?.all isTrailing = s.head?.all isTrailing := by
    cases s with
    | nil => rcases he with rfl | rfl <;> rfl
    | cons c s => rfl
  unfold ofMark
  dsimp only
  rw [htake, htrailing, dropWhile_append_lineTail he (by decide)]
  by_cases hmark : s.head? = some '@'
  · rw [if_pos hmark, if_pos ((head?_append_lineTail_eq he s).mpr hmark)]
    rfl
  · rw [if_neg hmark, if_neg fun h => hmark ((head?_append_lineTail_eq he s).mp h)]
    split
    · split
      · rfl
      · rfl
    · split
      · rfl
      · rfl

theorem ofBody_append (he : IsLineTail e) (s : Text) : ofBody (s ++ e) = (ofBody s).append e := by
  cases s with
  | nil => rcases he with rfl | rfl <;> rfl
  | cons c s =>
      by_cases hc : c = '@'
      · subst hc
        exact ofMark_append he s
      · rw [List.cons_append, ofBody_of_head hc, ofBody_of_head hc, ← List.cons_append,
          trimEnd_append_lineTail he rfl]
        cases heading? (trimEnd isTrailing (c :: s)) with
        | none => rfl
        | some found => rfl

theorem ofLine_append (he : IsLineTail e) (line : Text) :
    ofLine (line ++ e) = (ofLine line).append e := by
  unfold ofLine
  dsimp only
  rw [trim_append_lineTail he rfl, dropWhile_append_lineTail he (by decide), ofBody_append he]
  split
  · rfl
  · split
    · rfl
    · rfl

end Line.LineForm
end Lines

/-! ## Parameter lists

Each reader finds the same, and leaves a text that is related to what it leaves of the other. -/

namespace Parameters

variable {e s t : Text}

theorem readValue_returned (he : IsLineTail e) (hquote : '"' ∉ s) (h : Returned e s t) :
    ∃ rest, Returned e (readValue s).rest rest ∧ readValue t = { readValue s with rest := rest } := by
  have hindent := h.dropWhile he (p := isIndent) (by decide) (by decide)
  have hbare : ∀ u : Text, '"' ∉ u → readValue u = ⟨(u.dropWhile isIndent).takeWhile isBare, false,
      (u.dropWhile isIndent).dropWhile isBare⟩ := by
    intro u hu
    refine readValue_of_head fun hhead => hu ((List.dropWhile_suffix isIndent).subset ?_)
    exact List.mem_of_mem_head? hhead
  rw [hbare s hquote, hbare t (h.not_mem (by decide) he hquote)]
  refine ⟨_, hindent.dropWhile he (by decide) (by decide), ?_⟩
  rw [hindent.takeWhile_eq he (by decide) (by decide)]

theorem readAssigned_returned (he : IsLineTail e) (hquote : '"' ∉ s) (h : Returned e s t) :
    ∃ rest, Returned e (readAssigned s).rest rest ∧
      readAssigned t = { readAssigned s with rest := rest } := by
  have hindent := h.dropWhile he (p := isIndent) (by decide) (by decide)
  by_cases hequals : ∃ cs, s.dropWhile isIndent = '=' :: cs
  · obtain ⟨cs, hcs⟩ := hequals
    rw [hcs] at hindent
    obtain ⟨cs', hcs', hrest⟩ := hindent.exists_cons (by decide)
    have hmore : '"' ∉ cs := by
      intro hmem
      refine hquote ((List.dropWhile_suffix isIndent).subset ?_)
      rw [hcs]
      exact List.mem_cons_of_mem _ hmem
    rw [readAssigned_equals hcs, readAssigned_equals hcs']
    exact readValue_returned he hmore hrest
  · have hhead : (s.dropWhile isIndent).head? ≠ some '=' :=
      fun hhead => hequals ⟨_, List.eq_cons_of_mem_head? hhead⟩
    have hhead' : (t.dropWhile isIndent).head? ≠ some '=' := by
      intro hhead'
      rw [List.eq_cons_of_mem_head? hhead'] at hindent
      exact hequals (hindent.exists_cons_left (by decide) he)
    rw [readAssigned_of_head hhead, readAssigned_of_head hhead']
    exact ⟨t, h, rfl⟩

theorem readItem_returned (c : Char) (he : IsLineTail e) (hquote : '"' ∉ s) (h : Returned e s t) :
    ∃ rest, Returned e (readItem c s).2 rest ∧ readItem c t = ((readItem c s).1, rest) := by
  have hname : '"' ∉ Name.rest s :=
    fun hmem => hquote ((List.dropWhile_suffix Name.isNameChar).subset hmem)
  have hbehind : Returned e (Name.rest s) (Name.rest t) := h.dropWhile he (by decide) (by decide)
  have htake : Name.take t = Name.take s := h.takeWhile_eq he (by decide) (by decide)
  obtain ⟨rest, hrest, hassigned⟩ := readAssigned_returned he hname hbehind
  refine ⟨rest, hrest, ?_⟩
  unfold readItem
  rw [htake, hassigned]

theorem scan_skip {c : Char} (hclose : c ≠ ')') (hname : Name.isNameChar c = false) (s : Text) :
    scan (c :: s) = scan s := by
  rw [scan, if_neg hclose, if_neg (Bool.eq_false_iff.mp hname)]

theorem scan_returned (he : IsLineTail e) (hquote : '"' ∉ s) (h : Returned e s t) :
    ∃ rest, ((scan s).closed = true → Returned e (scan s).rest rest) ∧
      scan t = { scan s with rest := rest } := by
  fun_induction scan s generalizing t with
  | case1 =>
      obtain rfl := h.eq_of_nil
      refine ⟨[], fun hclosed => Bool.noConfusion hclosed, ?_⟩
      rcases he with rfl | rfl
      · rw [scan]
      · rw [scan_skip (by decide) (by decide), scan]
  | case2 cs =>
      obtain ⟨cs', rfl, hrest⟩ := h.exists_cons (by decide)
      refine ⟨cs', fun _ => hrest, ?_⟩
      rw [scan, if_pos rfl]
  | case3 c cs hclose hname ih =>
      have hline : c ≠ '\n' := by
        rintro rfl
        exact Bool.noConfusion hname
      obtain ⟨cs', rfl, hrest⟩ := h.exists_cons hline
      have hcs : '"' ∉ cs := fun hmem => hquote (List.mem_cons_of_mem _ hmem)
      obtain ⟨r, hr, hitem⟩ := readItem_returned c he hcs hrest
      obtain ⟨rest, hback, hscan⟩ := ih (fun hmem => hcs ((readItem_rest_suffix c cs).subset hmem)) hr
      refine ⟨rest, hback, ?_⟩
      rw [scan, if_neg hclose, if_pos hname, hitem, hscan]
      rfl
  | case4 c cs hclose hname ih =>
      have hcs : '"' ∉ cs := fun hmem => hquote (List.mem_cons_of_mem _ hmem)
      have hname : Name.isNameChar c = false := Bool.eq_false_iff.mpr hname
      cases h with
      | cons _ h =>
          rw [scan_skip hclose hname]
          exact ih hcs h
      | line h =>
          rw [scan_skip (by decide) (by decide), scan_skip (by decide) (by decide)]
          exact ih hcs h

theorem recover_returned (hquote : '"' ∉ s) (h : Returned [] s t) :
    ∃ rest, Returned [] (recover s).rest rest ∧ recover t = { recover s with rest := rest } := by
  obtain ⟨rest, hrest, hscan⟩ := scan_returned (.inl rfl) hquote h
  have hclosed : (scan t).closed = (scan s).closed := by rw [hscan]
  unfold recover
  rw [hclosed]
  by_cases hc : (scan s).closed = true
  · rw [if_pos hc, if_pos hc]
    exact ⟨rest, hrest hc, hscan⟩
  · rw [if_neg hc, if_neg hc]
    obtain ⟨e, he, hline⟩ := h.firstLine
    have hfirst : '"' ∉ firstLine s := fun hmem => hquote ((List.takeWhile_prefix isInLine).subset hmem)
    obtain ⟨r, -, hitems⟩ := scan_returned he hfirst (Returned.append e (firstLine s))
    refine ⟨_, h.fromLineEnd, ?_⟩
    rw [hline, hitems]

end Parameters

/-! ## Fences -/

namespace Fence

variable {e s t : Text}

theorem ofLine_append_lineTail (he : IsLineTail e) (line : Text) :
    LineForm.ofLine (line ++ e) = LineForm.ofLine line := by
  unfold LineForm.ofLine
  rw [trimEnd_append_lineTail he rfl]

theorem read_returned (h : Returned [] s t) :
    ∃ rest, Returned [] (read s).rest rest ∧ read t = { read s with rest := rest } := by
  fun_induction read s generalizing t with
  | case1 =>
      obtain rfl := h.eq_of_nil
      exact ⟨[], .nil, by rw [read, if_pos rfl]⟩
  | case2 s hne hform =>
      obtain ⟨e, he, hline⟩ := h.firstLine
      refine ⟨_, h.afterLine, ?_⟩
      rw [read, if_neg fun hnil => hne (h.eq_nil_iff.mp hnil), hline, ofLine_append_lineTail he, hform]
  | case3 s hne text hform =>
      obtain ⟨e, he, hline⟩ := h.firstLine
      refine ⟨_, h.afterLine, ?_⟩
      rw [read, if_neg fun hnil => hne (h.eq_nil_iff.mp hnil), hline, ofLine_append_lineTail he, hform]
  | case4 s hne text hform ih =>
      obtain ⟨e, he, hline⟩ := h.firstLine
      obtain ⟨rest, hrest, hread⟩ := ih h.afterLine
      refine ⟨rest, hrest, ?_⟩
      rw [read, if_neg fun hnil => hne (h.eq_nil_iff.mp hnil), hline, ofLine_append_lineTail he, hform]
      dsimp only
      rw [hread]
      rfl

theorem skipHeaderEnd_returned (hreturn : '\r' ∉ s) (h : Returned [] s t) :
    Returned [] (skipHeaderEnd s) (skipHeaderEnd t) := by
  have hindent := h.dropWhile (.inl rfl) (p := isIndent) (by decide) (by decide)
  cases hs : s.dropWhile isIndent with
  | nil =>
      rw [hs] at hindent
      have ht : t.dropWhile isIndent = [] := hindent.eq_of_nil
      rw [skipHeaderEnd_of_head (by simp [hs]), skipHeaderEnd_of_head (by simp [ht]), hs, ht]
      exact .nil
  | cons c d =>
      rw [hs] at hindent
      by_cases hline : c = '\n'
      · subst hline
        rw [skipHeaderEnd_of_newline hs]
        generalize ht : t.dropWhile isIndent = d' at hindent
        cases hindent with
        | cons _ h =>
            rw [skipHeaderEnd_of_newline ht]
            exact h
        | line h =>
            rw [skipHeaderEnd_of_return ht]
            exact h
      · have hc : c ≠ '\r' := by
          rintro rfl
          exact hreturn ((List.dropWhile_suffix isIndent).subset (hs ▸ List.mem_cons_self))
        obtain ⟨d', ht, hd'⟩ := hindent.exists_cons hline
        rw [skipHeaderEnd_of_head (by simp [hs, hline, hc]),
          skipHeaderEnd_of_head (by simp [ht, hline, hc]), hs, ht]
        exact .cons c hd'

theorem bodyStart_returned (directive : Text) (hreturn : '\r' ∉ s) (h : Returned [] s t) :
    Returned [] (bodyStart directive s) (bodyStart directive t) := by
  unfold bodyStart
  split
  · exact (skipHeaderEnd_returned hreturn h).dropWhile (.inl rfl) (by decide) (by decide)
  · exact skipHeaderEnd_returned hreturn h

theorem scan_returned (directive : Text) (h : Returned [] s t) :
    ∃ rest, Returned [] (scan directive s).next.rest rest ∧
      scan directive t = { scan directive s with next := ⟨rest, none⟩ } := by
  obtain ⟨rest, hrest, hread⟩ := read_returned h
  refine ⟨rest, hrest, ?_⟩
  unfold scan
  rw [hread]
  rfl

end Fence

/-! ## Steps -/

namespace Line

variable {s t : Text}

theorem parameters_returned (hquote : '"' ∉ s) (h : Returned [] s t) :
    ∃ rest, Returned [] (parameters s).rest rest ∧
      parameters t = { parameters s with rest := rest } := by
  by_cases hopen : ∃ inner, s = '(' :: inner
  · obtain ⟨inner, rfl⟩ := hopen
    obtain ⟨inner', rfl, hinner⟩ := h.exists_cons (by decide)
    exact Parameters.recover_returned (fun hmem => hquote (List.mem_cons_of_mem _ hmem)) hinner
  · have hnone : ∀ u : Text, (∀ inner, u ≠ '(' :: inner) → parameters u = ⟨[], u, true⟩ := by
      intro u hu
      unfold parameters
      split
      · next inner => exact absurd rfl (hu inner)
      · rfl
    rw [hnone s fun inner hs => hopen ⟨inner, hs⟩, hnone t fun inner ht => ?_]
    · exact ⟨t, h, rfl⟩
    · subst ht
      exact hopen (h.exists_cons_left (by decide) (.inl rfl))

theorem scanDirective_returned (fenced : List Text) (name : Text) (hreturn : '\r' ∉ s)
    (hquote : '"' ∉ s) (h : Returned [] s t) :
    ∃ rest, Returned [] (scanDirective fenced name s).next.rest rest ∧
      scanDirective fenced name t =
        { scanDirective fenced name s with
          next := ⟨rest, (scanDirective fenced name s).next.fence⟩ } := by
  obtain ⟨rest, hrest, hlist⟩ := parameters_returned hquote h
  have hmore : '\r' ∉ (parameters s).rest := fun hmem => hreturn ((parameters_rest_suffix s).subset hmem)
  by_cases hname : name ∈ fenced
  · refine ⟨Fence.bodyStart name rest, ?_, ?_⟩
    · rw [scanDirective_fenced hname]
      exact Fence.bodyStart_returned name hmore hrest
    · rw [scanDirective_fenced hname, scanDirective_fenced hname, hlist]
      rfl
  · obtain ⟨e, he, hline⟩ := hrest.firstLine
    refine ⟨afterLine rest, ?_, ?_⟩
    · rw [scanDirective_unfenced hname]
      exact hrest.afterLine
    · rw [scanDirective_unfenced hname, scanDirective_unfenced hname, hlist]
      dsimp only
      rw [hline, trim_append_lineTail he rfl]
      rfl

theorem scan_returned (fenced : List Text) (hreturn : '\r' ∉ s) (hquote : '"' ∉ s)
    (h : Returned [] s t) :
    ∃ rest, Returned [] (scan fenced s).next.rest rest ∧
      scan fenced t = { scan fenced s with next := ⟨rest, (scan fenced s).next.fence⟩ } := by
  obtain ⟨e, he, hline⟩ := h.firstLine
  have hform : LineForm.ofLine (firstLine t) = (LineForm.ofLine (firstLine s)).append e := by
    rw [hline, LineForm.ofLine_append he]
  rcases scan_cases fenced s with ⟨name, r, hname, hr, hscan⟩ | ⟨hnot, hscan⟩
  · have hindent := h.dropWhile (.inl rfl) (p := isIndent) (by decide) (by decide)
    have hsub : ∀ c ∈ r ++ fromLineEnd s, c ∈ s := by
      intro c hc
      refine (List.dropWhile_suffix isIndent).subset ?_
      rw [hr]
      exact List.mem_append_right _ hc
    rw [hr] at hindent
    obtain ⟨u, hu, hbehind⟩ :=
      hindent.exists_append (LineForm.directive_of_ofLine hname).1.not_mem_newline
    obtain ⟨rest, hrest, hstep⟩ := scanDirective_returned fenced name
      (fun hmem => hreturn (hsub _ hmem)) (fun hmem => hquote (hsub _ hmem)) hbehind
    refine ⟨rest, hscan ▸ hrest, ?_⟩
    rw [hscan, ← hstep]
    exact scan_directive fenced (hform.trans (LineForm.append_eq_directive_iff.mpr hname)) hu
  · refine ⟨afterLine t, ?_, ?_⟩
    · rw [hscan]
      exact h.afterLine
    · have hline : ∀ name, LineForm.ofLine (firstLine t) ≠ .directive name := by
        intro name hname
        rw [hform] at hname
        exact hnot name (LineForm.append_eq_directive_iff.mp hname)
      rw [hscan, scan_line fenced hline, hform, LineForm.append_tokens he]

end Line

theorem LineReader.step_returned (fenced : List Text) {s t : Text} (fence : Option Text)
    (hreturn : '\r' ∉ s) (hquote : '"' ∉ s) (h : Returned [] s t) :
    ∃ rest, Returned [] ((markup fenced).step ⟨s, fence⟩).next.rest rest ∧
      (markup fenced).step ⟨t, fence⟩ =
        { (markup fenced).step ⟨s, fence⟩ with
          next := ⟨rest, ((markup fenced).step ⟨s, fence⟩).next.fence⟩ } := by
  cases fence with
  | none => exact Line.scan_returned fenced hreturn hquote h
  | some directive => exact Fence.scan_returned directive h

/-! ## Streams -/

namespace TokenStream

theorem unguarded_returned (fenced : List Text) (cursor : Cursor) {t : Text}
    (hreturn : '\r' ∉ cursor.rest) (hquote : '"' ∉ cursor.rest) (h : Returned [] cursor.rest t) :
    unguarded fenced ⟨t, cursor.fence⟩ = unguarded fenced cursor := by
  fun_induction unguarded fenced cursor generalizing t with
  | case1 cursor hnil =>
      have ht : t = [] := h.eq_nil_iff.mpr hnil
      rw [unguarded, if_pos ht]
  | case2 cursor hne ih =>
      have hsub := (LineReader.step_rest_suffix fenced cursor).subset
      obtain ⟨rest, hrest, hstep⟩ :=
        LineReader.step_returned fenced cursor.fence hreturn hquote h
      have ht : t ≠ [] := fun hnil => hne (h.eq_nil_iff.mp hnil)
      rw [unguarded, if_neg ht, hstep]
      dsimp only
      rw [ih (fun hmem => hreturn (hsub hmem)) (fun hmem => hquote (hsub hmem)) hrest]
      rfl

/-- A source without carriage returns and double quotes has the same stream when it ends its lines in a
carriage return and a newline. -/
theorem ofSource_withReturns (fenced : List Text) (limit : Int) (source : Source)
    (hreturn : '\r' ∉ source.decode) (hquote : '"' ∉ source.decode) :
    ∃ stream, ofSource fenced limit source.withReturns = .ok stream ∧
      ofSource fenced limit source = .ok stream := by
  refine ⟨_, ?_, ofSource_eq fenced limit source⟩
  rw [ofSource_eq]
  exact congrArg (fun stream => Except.ok (counted stream))
    (unguarded_returned fenced ⟨source.decode, none⟩ hreturn hquote source.decode_withReturns)

theorem ofSource_withReturns_code :
    '\r' ∉ (Source.text "@code(lang=c)\n a\n@end\n".toList).decode ∧
      '"' ∉ (Source.text "@code(lang=c)\n a\n@end\n".toList).decode ∧
      ∃ stream, ofSource ["@code".toList] 1
          (Source.text "@code(lang=c)\n a\n@end\n".toList).withReturns = .ok stream ∧
        ofSource ["@code".toList] 1 (.text "@code(lang=c)\n a\n@end\n".toList) = .ok stream := by
  have hreturn : '\r' ∉ (Source.text "@code(lang=c)\n a\n@end\n".toList).decode := by decide
  have hquote : '"' ∉ (Source.text "@code(lang=c)\n a\n@end\n".toList).decode := by decide
  exact ⟨hreturn, hquote, ofSource_withReturns _ 1 _ hreturn hquote⟩

end TokenStream
end AtMark
