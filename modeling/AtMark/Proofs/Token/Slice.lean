import AtMark.Proofs.Token.Layout
import AtMark.Proofs.Token.Verbatim

/-!
# `Proofs.Token.Slice`: which texts of tokens stand in the source

## What is proved

A token that is not owned gives its text out as a slice of the source (`Sliced`).  Every reader of lines keeps
to that, since it even keeps to the order of the texts (`Line.laid_scan`, `Laid.sliced`).

A closed body does not.  Its content token is not owned, but its lines lose the carriage returns at their ends
and are joined by newlines.  So that token holds the body as it stands (`Fence.verbatim`) without the carriage
returns before its newlines (`withoutReturns`, `Fence.withoutReturns_verbatim`), and whether the promise holds
for a source is decided by its closed bodies alone (`TokenStream.unowned_slices_iff`).

## How

Step by step: the step at a closed body keeps the promise exactly if the body without those carriage returns stands in
the source (`Fence.sliced_scan_iff`), and all other steps keep it.  A body without such returns has nothing to lose
(`withoutReturns_eq_self_iff`).

## What is not

That a body with such returns always breaks the promise.  The shorter text may stand in the source by chance, at some
other place, and then it is a slice, though not the one that was read.  For a body alone in its source there is no such
place (`TokenStream.code_body_loses_returns`).
-/

namespace AtMark

open Text

/-- Each of the tokens is owned, or its text stands in the source. -/
def Sliced (source : Text) (ts : List Token) : Prop :=
  ∀ t ∈ ts, t.owned = false → t.lexeme <:+: source

namespace Sliced

variable {source s : Text} {t : Token} {ts us : List Token}

theorem nil : Sliced source [] :=
  fun _ ht => absurd ht List.not_mem_nil

theorem cons_iff : Sliced source (t :: ts) ↔ (t.owned = false → t.lexeme <:+: source) ∧ Sliced source ts :=
  List.forall_mem_cons

theorem append_iff : Sliced source (ts ++ us) ↔ Sliced source ts ∧ Sliced source us :=
  List.forall_mem_append

theorem cons (ht : t.lexeme <:+: source) (h : Sliced source ts) : Sliced source (t :: ts) :=
  cons_iff.mpr ⟨fun _ => ht, h⟩

theorem cons_owned (ht : t.owned = true) (h : Sliced source ts) : Sliced source (t :: ts) :=
  cons_iff.mpr ⟨fun howned => Bool.noConfusion (howned.symm.trans ht), h⟩

theorem widen (h : Sliced s ts) (hs : s <:+: source) : Sliced source ts :=
  fun t ht howned => (h t ht howned).trans hs

theorem contentUnlessEmpty_iff {text : Text} :
    Sliced source (Token.contentUnlessEmpty text false) ↔ text <:+: source := by
  unfold Token.contentUnlessEmpty
  split
  · next hnil =>
    rw [List.isEmpty_iff.mp hnil]
    exact ⟨fun _ => List.nil_infix, fun _ => nil⟩
  · rw [cons_iff]
    exact ⟨fun h => h.1 rfl, fun h => ⟨fun _ => h, nil⟩⟩

end Sliced

/-- Tokens whose texts stand one behind the other are slices. -/
theorem Laid.sliced {s rest : Text} {ts : List Token} (h : Laid s ts rest) : Sliced s ts := by
  induction h with
  | nil => exact .nil
  | owned ht _ ih => exact .cons_owned ht ih
  | slice hs _ ih =>
      exact .cons ((List.prefix_append _ _).isInfix.trans hs.isInfix)
        (ih.widen ((List.suffix_append _ _).trans hs).isInfix)

/-! ## Carriage returns before newlines -/

open Fence (isReturn)

/-- Is there a newline behind the carriage returns at the start? -/
def endsLine (s : Text) : Bool :=
  (s.dropWhile isReturn).head? == some '\n'

/-- The text without the carriage returns right before its newlines. -/
def withoutReturns : Text → Text
  | [] => []
  | c :: s => if isReturn c && endsLine s then withoutReturns s else c :: withoutReturns s

section Returns
variable {line s : Text}

theorem endsLine_line (hline : '\n' ∉ line) (s : Text) :
    endsLine (line ++ '\n' :: s) = true ↔ ∀ c ∈ line, isReturn c = true := by
  induction line with
  | nil => simp [endsLine, isReturn]
  | cons c line ih =>
      have hmore : '\n' ∉ line := fun h => hline (List.mem_cons_of_mem _ h)
      have hc : c ≠ '\n' := fun h => hline (h ▸ List.mem_cons_self)
      rw [List.forall_mem_cons, ← ih hmore]
      unfold endsLine
      rw [List.cons_append, List.dropWhile_cons]
      cases hreturn : isReturn c with
      | true => simp
      | false => simp [hc]

theorem withoutReturns_line (hline : '\n' ∉ line) (s : Text) :
    withoutReturns (line ++ '\n' :: s) = trimEnd isReturn line ++ '\n' :: withoutReturns s := by
  induction line with
  | nil => rfl
  | cons c line ih =>
      have hmore : '\n' ∉ line := fun h => hline (List.mem_cons_of_mem _ h)
      rw [List.cons_append, withoutReturns, ih hmore]
      cases hc : isReturn c with
      | false =>
          rw [trimEnd_cons hc]
          rfl
      | true =>
          by_cases hall : ∀ d ∈ line, isReturn d = true
          · have hboth : ∀ d ∈ c :: line, isReturn d = true := List.forall_mem_cons.mpr ⟨hc, hall⟩
            rw [(endsLine_line hmore s).mpr hall, trimEnd_eq_nil_iff.mpr hall, trimEnd_eq_nil_iff.mpr hboth]
            rfl
          · rw [Bool.eq_false_iff.mpr fun h => hall ((endsLine_line hmore s).mp h),
              trimEnd_cons_of_ne_nil fun h => hall (trimEnd_eq_nil_iff.mp h)]
            rfl

theorem withoutReturns_of_not_mem (hline : '\n' ∉ line) : withoutReturns line = line := by
  induction line with
  | nil => rfl
  | cons c line ih =>
      have hmore : '\n' ∉ line := fun h => hline (List.mem_cons_of_mem _ h)
      have hend : endsLine line = false := by
        refine Bool.eq_false_iff.mpr fun h => hmore ((List.dropWhile_suffix isReturn).subset ?_)
        exact List.mem_of_mem_head? (beq_iff_eq.mp h)
      rw [withoutReturns, hend, Bool.and_false, ih hmore]
      rfl

/-- The last of the carriage returns at the start stands right before the newline. -/
theorem infix_of_endsLine (h : endsLine s = true) : ['\r', '\n'] <:+: '\r' :: s := by
  induction s with
  | nil => exact absurd h (by decide)
  | cons c s ih =>
      cases hc : isReturn c with
      | true =>
          obtain rfl : c = '\r' := beq_iff_eq.mp hc
          exact (ih h).trans (List.suffix_cons _ _).isInfix
      | false =>
          unfold endsLine at h
          rw [List.dropWhile_cons_of_neg (Bool.eq_false_iff.mp hc)] at h
          obtain rfl : c = '\n' := Option.some.inj (beq_iff_eq.mp h)
          exact ⟨[], s, rfl⟩

theorem length_withoutReturns_le (s : Text) : (withoutReturns s).length ≤ s.length := by
  fun_induction withoutReturns s with
  | case1 => exact Nat.le_refl 0
  | case2 c s _ ih => exact Nat.le_succ_of_le ih
  | case3 c s _ ih => exact Nat.succ_le_succ ih

theorem length_withoutReturns_lt (h : ['\r', '\n'] <:+: s) : (withoutReturns s).length < s.length := by
  fun_induction withoutReturns s with
  | case1 => exact absurd h (by decide)
  | case2 c s _ ih => exact Nat.lt_succ_of_le (length_withoutReturns_le s)
  | case3 c s hkept ih =>
      rcases List.infix_cons_iff.mp h with hprefix | hinfix
      · obtain ⟨t, ht⟩ := hprefix
        obtain ⟨rfl, rfl⟩ := List.cons.inj ht
        exact absurd rfl hkept
      · exact Nat.succ_lt_succ (ih hinfix)

theorem withoutReturns_eq_self_iff : withoutReturns s = s ↔ ¬['\r', '\n'] <:+: s := by
  constructor
  · intro hself hinfix
    have hlt := length_withoutReturns_lt hinfix
    rw [hself] at hlt
    exact Nat.lt_irrefl _ hlt
  · intro hnot
    fun_induction withoutReturns s with
    | case1 => rfl
    | case2 c s hdropped ih =>
        obtain ⟨hc, hend⟩ := Bool.and_eq_true_iff.mp hdropped
        obtain rfl : c = '\r' := beq_iff_eq.mp hc
        exact absurd (infix_of_endsLine hend) hnot
    | case3 c s hkept ih =>
        rw [ih fun h => hnot (h.trans (List.suffix_cons c s).isInfix)]

end Returns

/-! ## Bodies -/

namespace Fence

variable {s line text : Text}

/-- The body that is read from its first line on, as it stands, up to the end of its last line. -/
def verbatim (s : Text) : Text :=
  if s = [] then []
  else
    match LineForm.ofLine (firstLine s) with
    | .closer => []
    | .lastLine text => text
    | .body text =>
      if (read (afterLine s)).lines = [] then text else firstLine s ++ '\n' :: verbatim (afterLine s)
termination_by s.length
decreasing_by exact length_afterLine_lt ‹_›

theorem LineForm.marker_infix_of_closer (h : ofLine line = closer) : Token.endMarker <:+: line := by
  unfold ofLine at h
  dsimp only at h
  split at h
  · next hcore =>
    rw [← hcore]
    exact (isInfix_trim isBlank _).trans
      ((isPrefix_trimEnd isIndent _).trans (isPrefix_trimEnd isReturn line)).isInfix
  · split at h <;> cases h

theorem LineForm.eq_of_lastLine (h : ofLine line = lastLine text) :
    ∃ gap, line = text ++ gap ∧ Token.endMarker <:+: gap := by
  unfold ofLine at h
  dsimp only at h
  split at h
  · cases h
  · split at h
    · next front hfront =>
      cases h
      obtain ⟨blanks, -, hblanks⟩ := trimEnd_append_tail isIndent front
      have hcore : front ++ Token.endMarker <+: line := by
        rw [← Search.cutEnd?_eq_some_iff.mp hfront]
        exact (isPrefix_trimEnd isIndent _).trans (isPrefix_trimEnd isReturn line)
      obtain ⟨back, hline⟩ := hcore
      refine ⟨blanks ++ (Token.endMarker ++ back), ?_, ⟨blanks, back, List.append_assoc ..⟩⟩
      rw [← List.append_assoc, hblanks, ← List.append_assoc, hline]
    · cases h

theorem LineForm.eq_of_body (h : ofLine line = body text) : text = trimEnd isReturn line := by
  unfold ofLine at h
  dsimp only at h
  split at h
  · cases h
  · split at h
    · cases h
    · cases h
      rfl

theorem read_cons (line : Text) {body : Body} (hline : '\n' ∉ line) (h : LineForm.ofLine line = .body text)
    (hs : read s = body) : read (line ++ '\n' :: s) = body.cons text := by
  rw [read_line hline, h, ← hs]
  rfl

theorem lines_of_body (hne : s ≠ []) (h : LineForm.ofLine (firstLine s) = .body text) :
    (read s).lines = text :: (read (afterLine s)).lines := by
  rw [read, if_neg hne, h]
  rfl

theorem isPrefix_verbatim (s : Text) : verbatim s <+: s := by
  have hline : firstLine s <+: s := List.takeWhile_prefix isInLine
  fun_induction verbatim s with
  | case1 => exact List.nil_prefix
  | case2 s hne hform => exact List.nil_prefix
  | case3 s hne text hform =>
      obtain ⟨gap, hgap, -⟩ := LineForm.eq_of_lastLine hform
      exact List.IsPrefix.trans ⟨gap, hgap.symm⟩ hline
  | case4 s hne text hform hlines =>
      rw [LineForm.eq_of_body hform]
      exact (isPrefix_trimEnd isReturn _).trans hline
  | case5 s hne text hform hlines ih =>
      have hmem : '\n' ∈ s := by
        refine mem_of_afterLine_ne_nil fun hnil => hlines ?_
        rw [hnil, read, if_pos rfl]
      conv => right; rw [eq_line_of_mem hmem]
      refine (List.prefix_append_right_inj _).mpr ((List.prefix_cons_inj _).mpr ?_)
      exact ih (List.takeWhile_prefix isInLine)

/-- The lines that are read from a body are the body as it stands, its line ends aside. -/
theorem withoutReturns_verbatim (s : Text) : withoutReturns (verbatim s) = joinLines (read s).lines := by
  have hone := not_mem_firstLine s
  fun_induction verbatim s with
  | case1 => rw [read, if_pos rfl]; rfl
  | case2 s hne hform =>
      rw [read, if_neg hne, hform]
      rfl
  | case3 s hne text hform =>
      have htext : '\n' ∉ text := by
        obtain ⟨gap, hgap, -⟩ := LineForm.eq_of_lastLine hform
        rw [hgap] at hone
        exact fun h => hone (List.mem_append_left gap h)
      rw [read, if_neg hne, hform]
      exact (withoutReturns_of_not_mem htext).trans (joinLines_singleton text).symm
  | case4 s hne text hform hlines =>
      have htext : '\n' ∉ text := by
        rw [LineForm.eq_of_body hform]
        exact fun h => hone ((isPrefix_trimEnd isReturn _).subset h)
      rw [lines_of_body hne hform, withoutReturns_of_not_mem htext, hlines, joinLines_singleton]
  | case5 s hne text hform hlines ih =>
      obtain ⟨next, more, hmore⟩ := List.exists_cons_of_ne_nil hlines
      rw [withoutReturns_line hone, ih (not_mem_firstLine _), ← LineForm.eq_of_body hform,
        lines_of_body hne hform, hmore]
      rfl

/-- A closed body stands at the start as it is, its marker behind it, and what is left behind the marker. -/
theorem exists_eq_verbatim_append (h : (read s).closed = true) :
    ∃ tail, s = verbatim s ++ tail ∧ Laid tail [Token.blockEnd] (read s).rest := by
  have hmarker : Laid Token.endMarker [Token.blockEnd] [] := .one (List.suffix_refl _)
  fun_induction read s with
  | case1 => exact Bool.noConfusion h
  | case2 s hne hform =>
      refine ⟨s, ?_, Line.laid_line hmarker (LineForm.marker_infix_of_closer hform)⟩
      rw [verbatim, if_neg hne, hform]
      rfl
  | case3 s hne text hform =>
      obtain ⟨gap, hgap, hinfix⟩ := LineForm.eq_of_lastLine hform
      refine ⟨gap ++ fromLineEnd s, ?_, ?_⟩
      · rw [verbatim, if_neg hne, hform]
        dsimp only
        rw [← List.append_assoc, ← hgap, firstLine_append_fromLineEnd]
      · exact ((hmarker.of_part hinfix).followedBy _).leave (List.drop_suffix 1 (fromLineEnd s))
  | case4 s hne text hform ih =>
      obtain ⟨tail, htail, hlaid⟩ := ih h
      have hmem : '\n' ∈ s := by
        refine mem_of_afterLine_ne_nil fun hnil => ?_
        rw [hnil, read, if_pos rfl] at h
        exact Bool.noConfusion h
      have hline : s = firstLine s ++ '\n' :: afterLine s := eq_line_of_mem hmem
      rw [verbatim, if_neg hne, hform]
      dsimp only
      split
      · obtain ⟨returns, -, hreturns⟩ := trimEnd_append_tail isReturn (firstLine s)
        rw [← LineForm.eq_of_body hform] at hreturns
        refine ⟨returns ++ '\n' :: afterLine s, ?_, hlaid.of_suffix ?_⟩
        · rw [← List.append_assoc, hreturns, ← hline]
        · rw [htail]
          exact (List.suffix_append _ tail).trans ((List.suffix_cons _ _).trans (List.suffix_append _ _))
      · refine ⟨tail, ?_, hlaid⟩
        rw [List.append_assoc, List.cons_append, ← htail, ← hline]

/-- The tokens of a body are slices of the source, unless it is closed and the body without its carriage
returns does not stand in the source. -/
theorem sliced_scan_iff {source : Text} (directive : Text) (hs : s <:+: source) :
    Sliced source (scan directive s).tokens ↔
      ((read s).closed = true → withoutReturns (verbatim s) <:+: source) := by
  rw [withoutReturns_verbatim]
  cases hclosed : (read s).closed with
  | true =>
      obtain ⟨tail, htail, hlaid⟩ := exists_eq_verbatim_append hclosed
      have hmarker : Sliced source [Token.blockEnd] := by
        refine hlaid.sliced.widen (List.IsInfix.trans ?_ hs)
        rw [htail]
        exact (List.suffix_append _ tail).isInfix
      rw [scan_of_closed directive hclosed, Sliced.append_iff, and_iff_left hmarker]
      exact Sliced.contentUnlessEmpty_iff.trans ⟨fun h _ => h, fun h => h rfl⟩
  | false =>
      rw [scan_of_open directive hclosed, Token.contentUnlessEmpty]
      refine iff_of_true ?_ fun h => Bool.noConfusion h
      split
      · exact .nil
      · exact .cons_owned rfl .nil

end Fence

/-! ## Streams -/

/-- The body that the step from a cursor reads, as it stands, if it reads one that is closed. -/
def Cursor.closedBody (cursor : Cursor) : List Text :=
  if cursor.fence.isSome ∧ (Fence.read cursor.rest).closed then [Fence.verbatim cursor.rest] else []

theorem LineReader.sliced_step_iff (fenced : List Text) {source : Text} {cursor : Cursor}
    (h : cursor.rest <:+: source) :
    Sliced source ((markup fenced).step cursor).tokens ↔
      ∀ text ∈ cursor.closedBody, withoutReturns text <:+: source := by
  obtain ⟨rest, fence⟩ := cursor
  cases fence with
  | none => exact iff_of_true ((Line.laid_scan fenced rest).sliced.widen h) fun _ h => absurd h List.not_mem_nil
  | some directive =>
      refine (Fence.sliced_scan_iff directive h).trans ?_
      unfold Cursor.closedBody
      dsimp only
      cases (Fence.read rest).closed with
      | true => simp
      | false => simp

namespace TokenStream

/-- The closed bodies that are read from a cursor on, as they stand. -/
def closedBodies (fenced : List Text) (cursor : Cursor) : List Text :=
  if cursor.rest = [] then []
  else cursor.closedBody ++ closedBodies fenced ((LineReader.markup fenced).step cursor).next
termination_by cursor.rest.length
decreasing_by exact LineReader.length_step_markup_lt fenced ‹_›

theorem sliced_unguarded_iff (fenced : List Text) {source : Text} (cursor : Cursor)
    (h : cursor.rest <:+: source) :
    Sliced source (unguarded fenced cursor).tokens ↔
      ∀ text ∈ closedBodies fenced cursor, withoutReturns text <:+: source := by
  fun_induction unguarded fenced cursor with
  | case1 cursor hnil =>
      rw [closedBodies, if_pos hnil]
      exact iff_of_true .nil fun _ h => absurd h List.not_mem_nil
  | case2 cursor hne ih =>
      have hrest := (LineReader.step_rest_suffix fenced cursor).isInfix.trans h
      rw [closedBodies, if_neg hne, List.forall_mem_append, ← ih hrest,
        ← LineReader.sliced_step_iff fenced h]
      exact Sliced.append_iff

theorem infix_of_mem_closedBodies {fenced : List Text} {cursor : Cursor} {text : Text}
    (h : text ∈ closedBodies fenced cursor) : text <:+: cursor.rest := by
  fun_induction closedBodies fenced cursor with
  | case1 cursor hnil => exact absurd h List.not_mem_nil
  | case2 cursor hne ih =>
      rcases List.mem_append.mp h with h | h
      · unfold Cursor.closedBody at h
        split at h
        · rw [List.mem_singleton.mp h]
          exact (Fence.isPrefix_verbatim cursor.rest).isInfix
        · exact absurd h List.not_mem_nil
      · exact (ih h).trans (LineReader.step_rest_suffix fenced cursor).isInfix

/-- The tokens that are not owned are slices of the source exactly when each closed body still stands there
without the carriage returns before its newlines, and a body with none has nothing to lose. -/
theorem unowned_slices_iff (fenced : List Text) (limit : Int) (source : Source) :
    ∃ stream, ofSource fenced limit source = .ok stream ∧
      ((∀ t ∈ stream.tokens, t.owned = false → t.lexeme <:+: source.decode) ↔
        ∀ text ∈ closedBodies fenced ⟨source.decode, none⟩, withoutReturns text <:+: source.decode) ∧
      ∀ text ∈ closedBodies fenced ⟨source.decode, none⟩,
        text <:+: source.decode ∧ (withoutReturns text = text ↔ ¬['\r', '\n'] <:+: text) := by
  refine ⟨_, ofSource_eq fenced limit source, ?_, fun text htext => ?_⟩
  · exact sliced_unguarded_iff fenced ⟨source.decode, none⟩ (List.infix_refl _)
  · exact ⟨infix_of_mem_closedBodies htext, withoutReturns_eq_self_iff⟩

/-- A body with carriage returns before its newlines is a token that is not owned and stands nowhere in the
source. -/
theorem code_body_loses_returns :
    ∃ stream, ofSource Directive.defaultFenced defaultLimit (.text "@code\r\na\r\nb\r\n@end\r\n") = .ok stream ∧
      ⟨.content, "a\nb", false⟩ ∈ stream.tokens ∧
      ¬("a\nb" : Text) <:+: (Source.text "@code\r\na\r\nb\r\n@end\r\n").decode := by
  have hend : Fence.read ("@end\r".toList ++ '\n' :: []) = ⟨[], [], true⟩ :=
    Fence.read_line (by decide) []
  have hlast : Fence.read "b\r\n@end\r\n" = ⟨["b"], [], true⟩ :=
    Fence.read_cons "b\r" (by decide) (by decide) hend
  have hread : Fence.read "a\r\nb\r\n@end\r\n" = ⟨["a", "b"], [], true⟩ :=
    Fence.read_cons "a\r" (by decide) (by decide) hlast
  have hstep : (LineReader.markup Directive.defaultFenced).step ⟨"@code\r\na\r\nb\r\n@end\r\n", none⟩ =
      ⟨[⟨.directive, "@code", false⟩], [], ⟨"a\r\nb\r\n@end\r\n", some "@code"⟩⟩ := by
    decide +kernel
  refine ⟨_, ofSource_text _ _ (by decide), ?_, by decide⟩
  show _ ∈ (unguarded Directive.defaultFenced ⟨"@code\r\na\r\nb\r\n@end\r\n", none⟩).tokens
  rw [unguarded_step _ (by decide), hstep, after]
  refine List.mem_append_right _ ?_
  rw [unguarded_fence hread]
  exact List.mem_append_left _ List.mem_cons_self

end TokenStream
end AtMark
