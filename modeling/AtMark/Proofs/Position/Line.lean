import AtMark.Position.Line
import AtMark.Proofs.Position.Parameters

/-!
# `Proofs.Position.Line`: lines and fences by positions and by what is left

## What is proved

A line outside a fence is read as its form says (`readLine_eq`): either it is a directive's, and the header is read
from its at sign, or its tokens are those of the form.  A fence is read as its body says (`readFence_reaches`).  In both
cases the reader by positions takes the step of the reader of lines and comes to the position where what that one
leaves begins (`readLine_reaches`).

## How

A line is what stands between the position and the end of its line, so a character of it may be looked at wherever
the line says that there is one; the only accesses beyond the line are those behind a directive's name, where its list
and its body may reach further.

Blank lines, comments and closing markers are told by the trimmed line in both readers, and the other lines by their
first character (`readBodyLine_eq`).  Behind an at sign the two differ: by positions the name is looked for in the
source and not in its line, which is no other name because a newline ends it (`readMark_eq`).

## What is not

That the whole source is read, for which see `Proofs.Position.Run`.
-/

namespace AtMark.Position

open Search Text

variable {source rest : Text} {position limit start stop : Nat}

/-! ## Running text -/

theorem readProse_eq (h : Stands source position rest stop) :
    readProse source stop position = .ok (Prose.tokens rest) := by
  fun_induction Prose.tokens rest generalizing position with
  | case1 rest hbreak =>
      rw [readProse]
      cases rest with
      | nil => rw [if_neg h.not_lt]; rfl
      | cons c cs => rw [if_pos h.lt, h.find_eq, hbreak, h.slice_eq]; rfl
  | case2 rest before after hbreak ih =>
      have hfront : Stands source position (before ++ ('@' :: '@' :: after)) stop := by
        rw [eq_of_breakOn hbreak, List.append_assoc] at h
        exact h
      have hmark := hfront.behind
      have hafter : Stands source (position + before.length + 2) after stop := hmark.tail.tail
      have hword := hafter.split isSolid
      have hnext := (hword.behind.split isIndent).behind
      have hlt := hmark.lt
      rw [readProse, if_pos (by omega), h.find_eq, hbreak]
      dsimp only [Option.map_some]
      rw [hafter.skipWhile_eq, ok_bind, hword.behind.skipWhile_eq, ok_bind, dif_pos (by omega), ih hnext, ok_bind,
        hfront.slice_run_eq, hword.slice_run_eq]
      rfl

theorem resolveFrom_eq {text : Text} (h : Stands text position rest text.length) :
    resolveFrom text position = .ok (Escape.resolve rest) := by
  fun_induction Escape.resolve rest generalizing position with
  | case1 rest hbreak =>
      rw [resolveFrom, h.find_eq, hbreak, h.slice_eq]
      rfl
  | case2 rest before after hbreak ih =>
      have hfront : Stands text position (before ++ ('@' :: '@' :: after)) text.length := by
        rw [eq_of_breakOn hbreak, List.append_assoc] at h
        exact h
      have hafter : Stands text (position + before.length + 2) after text.length := hfront.behind.tail.tail
      have hword := hafter.split isSolid
      have hle := hword.behind.le
      rw [resolveFrom, h.find_eq, hbreak]
      dsimp only [Option.map_some]
      rw [hafter.skipWhile_eq, ok_bind, dif_pos ⟨by omega, hle⟩, ih hword.behind, ok_bind, hfront.slice_run_eq,
        hword.slice_run_eq]
      rfl

theorem readContent_eq (text : Text) :
    readContent text = .ok (if text = [] then [] else [Escape.contentToken text]) := by
  have h : Stands text 0 text text.length := Stands.drop_of_le (Nat.zero_le _)
  unfold readContent
  rw [resolveFrom_eq h, ok_bind]
  split
  · rfl
  · rfl

theorem readHeading_eq (level : Nat) (text : Text) :
    readHeading level text = .ok (Line.headingTokens level text) := by
  unfold readHeading
  rw [readContent_eq, ok_bind]
  rfl

theorem readTail_eq (tail : Text) : readTail tail = .ok (Line.tailTokens tail) := by
  unfold readTail Line.tailTokens
  cases hcut : cutEnd? Token.endMarker tail with
  | none => exact readContent_eq tail
  | some front =>
      have htail : tail ≠ [] := by
        rw [cutEnd?_eq_some_iff.mp hcut]
        exact List.append_ne_nil_of_right_ne_nil _ (by decide)
      dsimp only
      split
      · rw [readContent_eq, if_neg htail]
      · rw [readContent_eq, ok_bind]
        rfl

/-! ## Fences -/

/-- What a header's line may end with: a line break of either kind, which is skipped, or none. -/
theorem skipHeaderEnd_cases (s : Text) :
    (∃ left, s.dropWhile isIndent = "\r\n".toList ++ left ∧ Fence.skipHeaderEnd s = left) ∨
      (∃ left, s.dropWhile isIndent = "\n".toList ++ left ∧ Fence.skipHeaderEnd s = left) ∨
      (skip? "\r\n".toList (s.dropWhile isIndent) = none ∧ skip? "\n".toList (s.dropWhile isIndent) = none ∧
        Fence.skipHeaderEnd s = s.dropWhile isIndent) := by
  unfold Fence.skipHeaderEnd
  split
  · next left hleft => exact .inl ⟨left, hleft, rfl⟩
  · next left hleft => exact .inr (.inl ⟨left, hleft, rfl⟩)
  · next left hreturn hline =>
    refine .inr (.inr ⟨?_, ?_, rfl⟩)
    · exact Option.eq_none_iff_forall_ne_some.mpr fun left hleft => hreturn left (skip?_eq_some_iff.mp hleft)
    · exact Option.eq_none_iff_forall_ne_some.mpr fun left hleft => hline left (skip?_eq_some_iff.mp hleft)

theorem skipHeaderEnd_stands (h : Stands source position (rest.dropWhile isIndent) source.length) :
    Stands source
      (if startsWith "\r\n" source position then position + 2
        else if startsWith "\n" source position then position + 1 else position)
      (Fence.skipHeaderEnd rest) source.length := by
  rw [h.startsWith_eq, h.startsWith_eq]
  rcases skipHeaderEnd_cases rest with ⟨left, hdrop, hskip⟩ | ⟨left, hdrop, hskip⟩ | ⟨hreturn, hline, hskip⟩
  · rw [hdrop] at h ⊢
    rw [hskip]
    exact h.behind
  · rw [hdrop] at h ⊢
    rw [hskip]
    exact h.behind
  · rw [hreturn, hline, hskip]
    exact h

theorem openFence_eq (directive : Text) (h : Stands source position rest source.length) :
    openFence source directive position =
      .ok (source.length - (Fence.bodyStart directive rest).length) := by
  have hskip := skipHeaderEnd_stands (h.split isIndent).behind
  unfold openFence Fence.bodyStart
  rw [h.skipWhile_eq, ok_bind]
  dsimp only
  split
  · rw [hskip.skipWhile_eq, (hskip.split isIndent).behind.position_eq]
  · exact congrArg Except.ok hskip.position_eq

theorem drop_lineEnd (h : Stands source position rest source.length) :
    source.drop (lineEnd source position + 1) = afterLine rest := by
  have hline : source.drop (lineEnd source position) = fromLineEnd rest := by
    rw [h.lineEnd_eq]
    exact (h.split isInLine).behind.drop_eq
  rw [← List.drop_drop, hline]
  rfl

theorem readBody_spec (source : Text) (position : Nat) (lines : List Text) :
    (readBody source position lines).lines = lines ++ (Fence.read (source.drop position)).lines ∧
      source.drop (readBody source position lines).stop = (Fence.read (source.drop position)).rest ∧
      (readBody source position lines).closed = (Fence.read (source.drop position)).closed := by
  fun_induction readBody source position lines with
  | case1 position lines hlt stop hform =>
      have h := Stands.drop_of_le (Nat.le_of_lt hlt)
      rw [h.line.slice_eq] at hform
      rw [Fence.read, if_neg (by simp; omega), hform]
      exact ⟨(List.append_nil lines).symm, drop_lineEnd h, rfl⟩
  | case2 position lines hlt stop text hform =>
      have h := Stands.drop_of_le (Nat.le_of_lt hlt)
      rw [h.line.slice_eq] at hform
      rw [Fence.read, if_neg (by simp; omega), hform]
      exact ⟨rfl, drop_lineEnd h, rfl⟩
  | case3 position lines hlt stop text hform ih =>
      have h := Stands.drop_of_le (Nat.le_of_lt hlt)
      rw [h.line.slice_eq] at hform
      rw [drop_lineEnd h] at ih
      rw [Fence.read, if_neg (by simp; omega), hform]
      exact ⟨ih.1.trans (List.append_assoc ..), ih.2⟩
  | case4 position lines hlt =>
      have hnil : source.drop position = [] := List.drop_eq_nil_of_le (Nat.not_lt.mp hlt)
      rw [hnil, Fence.read, if_pos rfl]
      exact ⟨(List.append_nil lines).symm, List.drop_length, rfl⟩

/-- What a state becomes by a step: the tokens of the step come behind its own, and it stands where the step
leaves the cursor. -/
structure Reaches (source : Text) (s : ReaderState) (step : Step) (next : ReaderState) : Prop where
  tokens_eq : next.tokens = s.tokens ++ step.tokens
  rest_eq : source.drop next.position = step.next.rest
  fence_eq : next.fence = step.next.fence

theorem readFence_reaches (directive : Text) (s : ReaderState) :
    Reaches source s (Fence.scan directive (source.drop s.position)) (readFence source s) := by
  obtain ⟨hlines, hstop, hclosed⟩ := readBody_spec source s.position []
  refine ⟨?_, hstop, rfl⟩
  unfold readFence Fence.scan Fence.Body.tokens
  dsimp only
  rw [hlines, hclosed, List.nil_append, List.append_assoc]

/-! ## Directives -/

theorem readList_eq (limit : Int) (h : Stands source position rest source.length) :
    readList source limit position =
      .ok ⟨(Line.parameters rest).tokens, source.length - (Line.parameters rest).rest.length,
        (Line.parameters rest).closed⟩ := by
  unfold readList
  rw [h.isAt_eq, ok_bind]
  by_cases hopen : rest.head? = some '('
  · have hcons := List.eq_cons_of_mem_head? hopen
    rw [if_pos (any_beq_iff.mpr hopen)]
    rw [hcons] at h ⊢
    rw [consumeList_eq limit h.tail.le, Parameters.recoverAt, h.tail.drop_eq]
    rfl
  · have hnone : Line.parameters rest = ⟨[], rest, true⟩ := by
      unfold Line.parameters
      split
      · exact absurd rfl hopen
      · rfl
    rw [if_neg (mt any_beq_iff.mp hopen), hnone, h.position_eq]
    rfl

theorem readDirective_reaches (fenced : List Text) (limit : Int) {name : Text} {s : ReaderState}
    (hs : s.fence = none) (h : Stands source start (name ++ rest) source.length) :
    ∃ next, readDirective source fenced limit start (start + name.length) s = .ok next ∧
      Reaches source s (Line.scanDirective fenced name rest) next := by
  have hlist := h.behind.of_suffix (Line.parameters_rest_suffix rest)
  unfold readDirective
  rw [h.slice_run_eq, readList_eq limit h.behind]
  dsimp only
  rw [ok_bind]
  by_cases hname : name ∈ fenced
  · have hbody := hlist.of_suffix (Fence.bodyStart_suffix name _)
    rw [if_pos (List.contains_iff_mem.mpr hname), openFence_eq name hlist, ok_bind,
      Line.scanDirective_fenced hname]
    exact ⟨_, rfl, rfl, hbody.drop_eq, rfl⟩
  · rw [if_neg (mt List.contains_iff_mem.mp hname), hlist.line.slice_eq, readTail_eq, ok_bind,
      Line.scanDirective_unfenced hname]
    exact ⟨_, rfl, rfl, drop_lineEnd hlist, hs⟩

/-! ## Lines -/

/-- What is read of a line of a form, whose first character behind the indentation is at a position. -/
def readForm (source : Text) (fenced : List Text) (limit : Int) (start stop : Nat) (s : ReaderState)
    (form : Line.LineForm) : Except Fault ReaderState :=
  match form with
  | .directive name => readDirective source fenced limit start (start + name.length) s
  | form => .ok (s.behindLine stop form.tokens)

section Forms
variable {line body : Text} {s : ReaderState} (fenced : List Text) (limit : Int)

theorem readProseLine_eq (h : Stands source start body stop) :
    readProseLine source start stop s = readForm source fenced limit start stop s (.prose body) := by
  unfold readProseLine
  rw [readProse_eq h]
  rfl

theorem skip?_doubled (text : Text) : (skip? "@@" ('@' :: text)).isSome = true ↔ text.head? = some '@' := by
  cases text with
  | nil => exact iff_of_false (by decide) nofun
  | cons c text =>
      by_cases hc : c = '@'
      · subst hc
        exact iff_of_true rfl rfl
      · simp [skip?, Ne.symm hc, hc]

theorem readMark_eq {text : Text} (h : Stands source start ('@' :: text) stop)
    (hwhole : Stands source start ('@' :: (text ++ fromLineEnd rest)) source.length) :
    readMark source fenced limit start stop s =
      readForm source fenced limit start stop s (Line.LineForm.ofMark text) := by
  have hprose := readProseLine_eq (s := s) fenced limit h
  have hname : Name.take (text ++ fromLineEnd rest) = Name.take text :=
    takeWhile_append_fromLineEnd (by decide) text rest
  unfold readMark Line.LineForm.ofMark
  dsimp only
  rw [hwhole.startsWith_eq, hwhole.tail.nameEnd_eq, hname]
  by_cases hdoubled : text.head? = some '@'
  · have hskip := (skip?_doubled _).mpr ((head?_append_fromLineEnd (by decide) text rest).mpr hdoubled)
    rw [if_pos hskip, if_pos hdoubled, hprose]
  · have hskip := mt (skip?_doubled _).mp (mt (head?_append_fromLineEnd (by decide) text rest).mp hdoubled)
    rw [if_neg hskip, if_neg hdoubled]
    by_cases hnil : Name.take text = []
    · have hstop : start + 1 + (Name.take text).length = start + 1 := by rw [hnil]; rfl
      rw [if_pos hstop, if_pos hnil, h.tail.isAt_eq, ok_bind]
      by_cases hlone : text.head?.all isTrailing = true
      · have hjoined : ¬text.head?.any (!isTrailing ·) = true := by
          cases hhead : text.head? <;> simp_all
        rw [if_neg hjoined, if_pos hlone, h.tail.skipWhile_eq, ok_bind,
          readProse_eq (h.tail.split isIndent).behind]
        rfl
      · have hjoined : text.head?.any (!isTrailing ·) = true := by
          cases hhead : text.head? <;> simp_all
        rw [if_pos hjoined, if_neg hlone, hprose]
    · have hpos := List.length_pos_iff.mpr hnil
      have hstop : start + ('@' :: Name.take text).length = start + 1 + (Name.take text).length := by
        rw [List.length_cons]
        omega
      have hsplit : Stands source start (('@' :: Name.take text) ++ Name.rest text) stop := by
        rw [List.cons_append, Name.take_append_rest]
        exact h
      have hslice := hsplit.slice_run_eq
      rw [hstop] at hslice
      rw [if_neg (by omega), if_neg hnil, hslice]
      by_cases hend : '@' :: Name.take text = Token.endMarker
      · rw [if_pos hend, if_pos hend, hprose]
      · rw [if_neg hend, if_neg hend, ← hstop]
        rfl

theorem readBodyLine_eq {c : Char} {text : Text} (h : Stands source s.position rest source.length)
    (hbody : (firstLine rest).dropWhile isIndent = c :: text) :
    readBodyLine source fenced limit (s.position + ((firstLine rest).takeWhile isIndent).length)
        (lineEnd source s.position) s =
      readForm source fenced limit (s.position + ((firstLine rest).takeWhile isIndent).length)
        (lineEnd source s.position) s (Line.LineForm.ofBody (c :: text)) := by
  have hline := (firstLine rest).takeWhile_append_dropWhile (p := isIndent)
  have hstart := (h.line.split isIndent).behind
  have hwhole : Stands source (s.position + ((firstLine rest).takeWhile isIndent).length)
      (c :: (text ++ fromLineEnd rest)) source.length := by
    have hsplit : Stands source s.position
        ((firstLine rest).takeWhile isIndent ++ c :: (text ++ fromLineEnd rest)) source.length := by
      rw [← List.cons_append, ← hbody, ← List.append_assoc, hline, firstLine_append_fromLineEnd]
      exact h
    exact hsplit.behind
  rw [hbody] at hline hstart
  have hprose := readProseLine_eq (s := s) fenced limit hstart
  unfold readBodyLine
  rw [h.line.slice_eq, hstart.charAt_eq]
  dsimp only
  rw [ok_bind, Nat.add_sub_cancel_left]
  by_cases hhash : c = '#'
  · subst hhash
    have hne : trimEnd isTrailing ('#' :: text) ≠ [] := by
      rw [trimEnd_cons (by decide)]
      exact List.cons_ne_nil _ _
    have hdrop : (trimEnd isTrailing (firstLine rest)).drop ((firstLine rest).takeWhile isIndent).length =
        trimEnd isTrailing ('#' :: text) := by
      conv => left; arg 2; rw [← hline, trimEnd_append_of_ne_nil hne]
      exact List.drop_left
    rw [if_pos rfl, hdrop, Line.LineForm.ofBody_of_head (by decide)]
    cases Line.heading? (trimEnd isTrailing ('#' :: text)) with
    | none => exact hprose
    | some found =>
        dsimp only
        rw [readHeading_eq, ok_bind]
        rfl
  · rw [if_neg hhash]
    by_cases hmark : c = '@'
    · subst hmark
      rw [if_pos rfl]
      exact readMark_eq fenced limit hstart hwhole
    · rw [if_neg hmark, hprose, Line.LineForm.ofBody_eq_prose]
      intro d hd
      cases hd
      exact ⟨hmark, hhash⟩

/-- A line is read by positions as its form says. -/
theorem readLine_eq (h : Stands source s.position rest source.length) :
    readLine source fenced limit s =
      readForm source fenced limit (s.position + ((firstLine rest).takeWhile isIndent).length)
        (lineEnd source s.position) s (Line.LineForm.ofLine (firstLine rest)) := by
  have hindent : (firstLine rest).length - ((firstLine rest).dropWhile isIndent).length =
      ((firstLine rest).takeWhile isIndent).length := by
    have hlength := congrArg List.length ((firstLine rest).takeWhile_append_dropWhile (p := isIndent))
    rw [List.length_append] at hlength
    omega
  unfold readLine Line.LineForm.ofLine
  dsimp only
  rw [h.line.slice_eq, hindent]
  by_cases hskipped : trim isTrailing (firstLine rest) = [] ∨
      (skip? "#:" (trim isTrailing (firstLine rest))).isSome
  · rw [if_pos hskipped, if_pos hskipped]
    rfl
  · rw [if_neg hskipped, if_neg hskipped]
    by_cases hcloser : trim isTrailing (firstLine rest) = Token.endMarker
    · rw [if_pos hcloser, if_pos hcloser]
      rfl
    · rw [if_neg hcloser, if_neg hcloser]
      cases hbody : (firstLine rest).dropWhile isIndent with
      | nil =>
          -- A line of blanks only is skipped.
          refine absurd (trim_eq_nil_iff.mpr fun d hd => ?_) fun hnil => hskipped (.inl hnil)
          rw [isTrailing, List.dropWhile_eq_nil_iff.mp hbody d hd, Bool.true_or]
      | cons c text => exact readBodyLine_eq fenced limit h hbody

/-- Reading a line by positions is a step of the reader of lines. -/
theorem readLine_reaches (hs : s.fence = none) (h : Stands source s.position rest source.length) :
    ∃ next, readLine source fenced limit s = .ok next ∧
      Reaches source s (Line.scan fenced rest) next := by
  rw [readLine_eq fenced limit h]
  rcases Line.scan_cases fenced rest with ⟨name, r, hname, hr, hscan⟩ | ⟨hnot, hscan⟩
  · have hindent : (firstLine rest).takeWhile isIndent = rest.takeWhile isIndent :=
      takeWhile_firstLine (by decide) rest
    have hstart := (h.split isIndent).behind
    rw [hr] at hstart
    rw [hname, hscan, hindent]
    exact readDirective_reaches fenced limit hs hstart
  · have hform : readForm source fenced limit (s.position + ((firstLine rest).takeWhile isIndent).length)
        (lineEnd source s.position) s (Line.LineForm.ofLine (firstLine rest)) =
          .ok (s.behindLine (lineEnd source s.position) (Line.LineForm.ofLine (firstLine rest)).tokens) := by
      unfold readForm
      split
      · next name hname => exact absurd hname (hnot name)
      · rfl
    rw [hform, hscan]
    exact ⟨_, rfl, rfl, drop_lineEnd h, hs⟩

end Forms

end AtMark.Position
