import AtMark.Proofs.Token.ClosedList
import AtMark.Proofs.Token.Progress

/-!
# `Proofs.Token.Extension`: reading with more text behind

Nothing tells a reader where the part of the source ends that somebody has in mind: a quotation, a parameter
list, a fence all look for their end as far as the source goes.  Here it is shown, reader by reader, that a
reader that has found its end has not looked beyond it: with more text behind the source it reads the same
and leaves that text behind what it leaves (`followedBy`).

For a parameter list the end is the closing parenthesis: what was read up to it is a list, whatever stands
behind (`Parameters.scan_of_isList`).  For lines and fences the end is a newline, and the invariant is
`Text.EndsLine`, that what is left ends its last line.

`LineReader.step_append` puts this together for a step of the markup's reader, provided the step leaves nothing
open (`Step.Settled`).

The proviso cannot be dropped.  A list that is not closed may be closed by the text behind, and an open body goes on
into it; in both cases the tokens of the step change, and not only what it leaves.  Sources that end in such a place
have modules of their own, `Proofs.Token.Recovery` and `Proofs.Token.OpenFence`.
-/

namespace AtMark

open Text

/-! ## More text behind -/

/-- The same items, with more text behind what is left. -/
def Parameters.Scan.followedBy (s : Scan) (t : Text) : Scan :=
  { s with rest := s.rest ++ t }

/-- The same body, with more text behind what is left. -/
def Fence.Body.followedBy (b : Body) (t : Text) : Body :=
  { b with rest := b.rest ++ t }

/-- The same place, with more text behind what is left. -/
def Cursor.followedBy (c : Cursor) (t : Text) : Cursor :=
  { c with rest := c.rest ++ t }

/-- The same step, with more text behind what is left. -/
def Step.followedBy (s : Step) (t : Text) : Step :=
  { s with next := s.next.followedBy t }

/-- A step that leaves nothing open: its list and its fence are closed, and a fence that it opens has
something to read. -/
structure Step.Settled (s : Step) : Prop where
  silent : s.notices = []
  open_rest : s.next.rest = [] → s.next.fence = none

/-! ## Parameter lists -/

namespace Parameters

variable {s : Text}

/-- What is left of a closed list stands right behind the parenthesis that closes it. -/
theorem eq_append_of_closed (h : (scan s).closed = true) :
    ∃ front, s = front ++ ')' :: (scan s).rest := by
  obtain ⟨list, hs, hlist⟩ := exists_isList h
  obtain ⟨front, rfl⟩ := hlist.exists_eq_append
  rw [List.append_assoc] at hs
  exact ⟨front, hs⟩

/-- The newline of a line is not taken by a list that is closed on it. -/
theorem rest_ne_nil_of_closed (hs : EndsLine s) (h : (scan s).closed = true) : (scan s).rest ≠ [] := by
  obtain ⟨front, hfront⟩ := eq_append_of_closed h
  intro hnil
  rw [hnil] at hfront
  rw [hfront] at hs
  rcases hs with hs | hs
  · exact List.append_ne_nil_of_right_ne_nil _ (List.cons_ne_nil _ _) hs
  · rw [List.getLast?_append] at hs
    exact absurd (Option.some.inj hs) (by decide)

theorem scan_append (t : Text) (h : (scan s).closed = true) :
    scan (s ++ t) = (scan s).followedBy t := by
  obtain ⟨list, hs, hlist⟩ := exists_isList h
  have happ := scan_of_isList hlist ((scan s).rest ++ t)
  rw [← List.append_assoc, ← hs] at happ
  rw [happ, Scan.followedBy, h]

theorem recover_append (t : Text) (h : (recover s).closed = true) :
    recover (s ++ t) = (recover s).followedBy t := by
  unfold recover at h ⊢
  by_cases hc : (scan s).closed = true
  · have happ := scan_append t hc
    have hc' : (scan (s ++ t)).closed = true := by
      rw [happ]
      exact hc
    rw [if_pos hc, if_pos hc', happ]
  · rw [if_neg hc] at h
    exact Bool.noConfusion h

end Parameters

/-! ## Fences -/

namespace Fence

variable {s : Text}

/-- A closed body has ended its last line if something follows it. -/
theorem read_append (t : Text) (hs : EndsLine s ∨ (read s).rest ≠ []) (h : (read s).closed = true) :
    read (s ++ t) = (read s).followedBy t := by
  fun_induction read s with
  | case1 => exact Bool.noConfusion h
  | case2 s hne hform =>
      have hmem : '\n' ∈ s := hs.elim (EndsLine.mem · hne) mem_of_afterLine_ne_nil
      rw [read, if_neg (List.append_ne_nil_of_left_ne_nil hne t), firstLine_append hmem, hform,
        afterLine_append hmem]
      rfl
  | case3 s hne text hform =>
      have hmem : '\n' ∈ s := hs.elim (EndsLine.mem · hne) mem_of_afterLine_ne_nil
      rw [read, if_neg (List.append_ne_nil_of_left_ne_nil hne t), firstLine_append hmem, hform,
        afterLine_append hmem]
      rfl
  | case4 s hne text hform ih =>
      have hmore : afterLine s ≠ [] := by
        intro hnil
        rw [hnil, read, if_pos rfl] at h
        exact Bool.noConfusion h
      have hmem := mem_of_afterLine_ne_nil hmore
      rw [read, if_neg (List.append_ne_nil_of_left_ne_nil hne t), firstLine_append hmem, hform,
        afterLine_append hmem]
      dsimp only
      rw [ih (hs.imp_left fun hend => hend.of_suffix (afterLine_suffix s)) h]
      rfl

theorem skipHeaderEnd_append (t : Text) (hs : EndsLine s) (hne : s ≠ []) :
    skipHeaderEnd (s ++ t) = skipHeaderEnd s ++ t := by
  obtain ⟨c, d, hd, hdt, hmem⟩ := exists_cons_dropWhile (p := isIndent) (hs.mem hne) rfl t
  unfold skipHeaderEnd
  rw [hd, hdt]
  by_cases hreturn : c = '\r'
  · subst hreturn
    cases d with
    | nil => exact absurd hmem (by decide)
    | cons e d =>
        by_cases hline : e = '\n'
        · subst hline
          rfl
        · simp [hline]
  · by_cases hline : c = '\n'
    · subst hline
      rfl
    · simp [hreturn, hline]

theorem bodyStart_append (directive t : Text) (hs : EndsLine s) (h : bodyStart directive s ≠ []) :
    bodyStart directive (s ++ t) = bodyStart directive s ++ t := by
  have hne : s ≠ [] := by
    rintro rfl
    exact h (List.suffix_nil.mp (bodyStart_suffix directive []))
  have hskip := skipHeaderEnd_append t hs hne
  unfold bodyStart at h ⊢
  split at h
  · next hmath =>
    have hrest : skipHeaderEnd s ≠ [] := by
      intro hnil
      rw [hnil] at h
      exact h rfl
    have hmem : '\n' ∈ skipHeaderEnd s := (hs.of_suffix (skipHeaderEnd_suffix s)).mem hrest
    rw [if_pos hmath, if_pos hmath, hskip, dropWhile_append_of_mem hmem rfl]
  · next hmath => rw [if_neg hmath, if_neg hmath, hskip]

theorem scan_append_of_closed (directive t : Text) (hs : EndsLine s ∨ (read s).rest ≠ [])
    (h : (read s).closed = true) : scan directive (s ++ t) = (scan directive s).followedBy t := by
  unfold scan
  dsimp only
  rw [read_append t hs h]
  rfl

theorem scan_append (directive t : Text) (hs : EndsLine s) (h : (scan directive s).Settled) :
    scan directive (s ++ t) = (scan directive s).followedBy t := by
  refine scan_append_of_closed directive t (.inl hs) ?_
  by_contra hopen
  have hsilent := h.silent
  rw [scan_of_open directive (Bool.eq_false_iff.mpr hopen)] at hsilent
  exact List.cons_ne_nil _ _ hsilent

end Fence

/-! ## Lines -/

namespace Line

variable {s : Text}

theorem parameters_append (t : Text) (hs : s ≠ []) (h : (parameters s).closed = true) :
    parameters (s ++ t) = (parameters s).followedBy t := by
  cases s with
  | nil => exact absurd rfl hs
  | cons c s =>
      by_cases hc : c = '('
      · subst hc
        exact Parameters.recover_append t h
      · rw [List.cons_append]
        unfold parameters
        split
        · next heq => exact absurd (List.cons.inj heq).1 hc
        · split
          · next heq => exact absurd (List.cons.inj heq).1 hc
          · rfl

theorem parameters_rest_ne_nil (hs : EndsLine s) (hne : s ≠ []) (h : (parameters s).closed = true) :
    (parameters s).rest ≠ [] := by
  unfold parameters at h ⊢
  split at h
  · next inner =>
    unfold Parameters.recover at h ⊢
    split at h
    · next hclosed =>
      rw [if_pos hclosed]
      exact Parameters.rest_ne_nil_of_closed (hs.of_suffix (List.suffix_cons _ _)) hclosed
    · exact Bool.noConfusion h
  · exact hne

/-- A directive whose step is silent has closed its list. -/
theorem closed_of_silent {fenced : List Text} {name : Text}
    (h : (scanDirective fenced name s).notices = []) : (parameters s).closed = true := by
  by_contra hopen
  rw [scanDirective_notices, if_neg hopen] at h
  exact List.cons_ne_nil _ _ h

theorem scanDirective_append (fenced : List Text) (name t : Text) (hs : EndsLine s) (hne : s ≠ [])
    (h : (scanDirective fenced name s).Settled) :
    scanDirective fenced name (s ++ t) = (scanDirective fenced name s).followedBy t := by
  have hclosed := closed_of_silent h.silent
  have hlist := parameters_append t hne hclosed
  have hrest : EndsLine (parameters s).rest := hs.of_suffix (parameters_rest_suffix s)
  by_cases hname : name ∈ fenced
  · have hopen := h.open_rest
    rw [scanDirective_fenced hname] at hopen
    have hbody : Fence.bodyStart name (parameters s).rest ≠ [] :=
      fun hnil => Option.some_ne_none name (hopen hnil)
    rw [scanDirective_fenced hname, scanDirective_fenced hname, hlist, Parameters.Scan.followedBy,
      Fence.bodyStart_append name t hrest hbody]
    rfl
  · have hmem : '\n' ∈ (parameters s).rest := hrest.mem (parameters_rest_ne_nil hs hne hclosed)
    rw [scanDirective_unfenced hname, scanDirective_unfenced hname, hlist,
      Parameters.Scan.followedBy, firstLine_append hmem, afterLine_append hmem]
    rfl

theorem scan_append (fenced : List Text) (t : Text) (hs : EndsLine s) (hne : s ≠ [])
    (h : (scan fenced s).Settled) : scan fenced (s ++ t) = (scan fenced s).followedBy t := by
  have hmem : '\n' ∈ s := hs.mem hne
  have hline : firstLine (s ++ t) = firstLine s := firstLine_append hmem
  rcases scan_cases fenced s with ⟨name, r, hname, hr, hscan⟩ | ⟨hnot, hscan⟩
  · have hend : '\n' ∈ r ++ fromLineEnd s :=
      List.mem_append_right _ (mem_dropWhile hmem isInLine_newline)
    have htail : EndsLine (r ++ fromLineEnd s) := by
      refine hs.of_suffix ((List.suffix_append name _).trans ?_)
      rw [← hr]
      exact List.dropWhile_suffix isIndent
    rw [hscan] at h ⊢
    rw [← scanDirective_append fenced name t htail (List.ne_nil_of_mem hend) h]
    refine scan_directive fenced (by rw [hline, hname]) ?_
    rw [dropWhile_append_of_mem hmem rfl, hr, List.append_assoc]
  · rw [hscan, scan_line fenced fun name => by rw [hline]; exact hnot name, hline,
      afterLine_append hmem]
    rfl

end Line

/-! ## Steps -/

namespace LineReader

/-- A step that leaves nothing open is the same with more text behind. -/
theorem step_append (fenced : List Text) (t : Text) {cursor : Cursor} (hs : EndsLine cursor.rest)
    (hne : cursor.rest ≠ []) (h : ((markup fenced).step cursor).Settled) :
    (markup fenced).step (cursor.followedBy t) = ((markup fenced).step cursor).followedBy t := by
  obtain ⟨rest, fence⟩ := cursor
  cases fence with
  | none => exact Line.scan_append fenced t hs hne h
  | some directive => exact Fence.scan_append directive t hs h

theorem step_rest_suffix (fenced : List Text) (cursor : Cursor) :
    ((markup fenced).step cursor).next.rest <:+ cursor.rest := by
  obtain ⟨rest, fence⟩ := cursor
  cases fence with
  | none => exact Line.scan_rest_suffix fenced rest
  | some directive => exact Fence.read_rest_suffix rest

end LineReader
end AtMark
