import AtMark.Proofs.Source
import AtMark.Proofs.Token.Form
import AtMark.Token.Stream

/-!
# `Proofs.Token.Progress`: every step reads something

A step of the markup's reader leaves less to read than it found: a line takes at least its newline, a
directive at least its name, and a fence at least a line of its body.  So the guard against a reader that
stands still never acts, and a run is the plain recursion `TokenStream.unguarded` that knows no guard, no limit
and no position.

This is `run_markup`; for a whole source it is `ofSource_eq`, through which all further
statements about streams go.  That a stream exists at all is part of each of these equations, so no statement about
streams has to be restricted to sources that can be read, or to certain limits.

The guard is there for other readers of lines, and what it does for one that stands still is in
`Proofs.Position.Round`.  That the reader by positions has the same stream is in `Proofs.Position.Run`.
-/

namespace AtMark

open Text

/-! ## Progress -/

namespace Line

variable {s : Text}

theorem length_scan_rest_lt (fenced : List Text) (hs : s ≠ []) :
    (scan fenced s).next.rest.length < s.length := by
  rcases scan_cases fenced s with ⟨name, r, hname, hr, hscan⟩ | ⟨-, hscan⟩
  · obtain ⟨⟨n, rfl, -, -⟩, -⟩ := LineForm.directive_of_ofLine hname
    have hrest := (scanDirective_rest_suffix fenced ('@' :: n) (r ++ fromLineEnd s)).length_le
    have hbody := (List.dropWhile_suffix isIndent (l := s)).length_le
    rw [hr, List.length_append, List.length_cons] at hbody
    rw [hscan]
    omega
  · rw [hscan]
    exact length_afterLine_lt hs

end Line

namespace LineReader

/-- Each step of the markup's reader moves the cursor forward. -/
theorem length_step_markup_lt (fenced : List Text) {cursor : Cursor} (h : cursor.rest ≠ []) :
    ((markup fenced).step cursor).next.rest.length < cursor.rest.length := by
  unfold step
  split
  · exact Fence.length_read_rest_lt h
  · exact Line.length_scan_rest_lt fenced h

end LineReader

/-! ## Reading without a guard -/

namespace TokenStream

/-- The stream of the markup from a cursor, step after step. -/
def unguarded (fenced : List Text) (cursor : Cursor) : TokenStream :=
  if cursor.rest = [] then atEnd cursor.fence
  else
    after ((LineReader.markup fenced).step cursor)
      (unguarded fenced ((LineReader.markup fenced).step cursor).next)
termination_by cursor.rest.length
decreasing_by exact LineReader.length_step_markup_lt fenced ‹_›

theorem unguarded_step (fenced : List Text) {cursor : Cursor} (h : cursor.rest ≠ []) :
    unguarded fenced cursor =
      after ((LineReader.markup fenced).step cursor)
        (unguarded fenced ((LineReader.markup fenced).step cursor).next) := by
  rw [unguarded, if_neg h]

theorem unguarded_nil (fenced : List Text) : (unguarded fenced ⟨[], none⟩).tokens = [] := by
  rw [unguarded]
  rfl

theorem unguarded_line {fenced : List Text} {line : Text} (hline : '\n' ∉ line)
    (hform : ∀ name, Line.LineForm.ofLine line ≠ .directive name) (s : Text) :
    (unguarded fenced ⟨line ++ '\n' :: s, none⟩).tokens =
      (Line.LineForm.ofLine line).tokens ++ (unguarded fenced ⟨s, none⟩).tokens := by
  have hne : line ++ '\n' :: s ≠ [] :=
    List.append_ne_nil_of_right_ne_nil _ (List.cons_ne_nil _ _)
  have hstep : (LineReader.markup fenced).step ⟨line ++ '\n' :: s, none⟩ =
      ⟨(Line.LineForm.ofLine line).tokens, [], ⟨s, none⟩⟩ := by
    have hscan := Line.scan_line fenced (s := line ++ '\n' :: s)
    rw [firstLine_line hline, afterLine_line hline] at hscan
    exact hscan hform
  rw [unguarded_step fenced hne, hstep, after]

theorem unguarded_last_line {fenced : List Text} {line : Text} (hline : '\n' ∉ line) (hne : line ≠ [])
    (hform : ∀ name, Line.LineForm.ofLine line ≠ .directive name) :
    (unguarded fenced ⟨line, none⟩).tokens = (Line.LineForm.ofLine line).tokens := by
  have hstep : (LineReader.markup fenced).step ⟨line, none⟩ =
      ⟨(Line.LineForm.ofLine line).tokens, [], ⟨[], none⟩⟩ := by
    have hscan := Line.scan_line fenced (s := line)
    rw [firstLine_eq_self hline, afterLine_eq_nil hline] at hscan
    exact hscan hform
  rw [unguarded_step fenced hne, hstep, after, unguarded_nil]
  exact List.append_nil _

theorem unguarded_endMarker (fenced : List Text) {ending : Text} (h : ending = [] ∨ ending = ['\n']) :
    (unguarded fenced ⟨Token.endMarker ++ ending, none⟩).tokens = [Token.blockEnd] := by
  have hform : Line.LineForm.ofLine Token.endMarker = .closer := rfl
  have hdirective : ∀ name, Line.LineForm.ofLine Token.endMarker ≠ .directive name := by
    intro name hname
    exact Line.LineForm.noConfusion (hform.symm.trans hname)
  rcases h with rfl | rfl
  · rw [List.append_nil, unguarded_last_line (by decide) (by decide) hdirective, hform]
    rfl
  · rw [unguarded_line (by decide) hdirective, unguarded_nil, hform]
    rfl

theorem run_markup (fenced : List Text) (source : Text) (limit : Int) (idle : Nat) (cursor : Cursor) :
    run (LineReader.markup fenced) source limit idle cursor = .ok (unguarded fenced cursor) := by
  fun_induction unguarded fenced cursor generalizing idle with
  | case1 cursor hnil => rw [run, if_pos hnil]
  | case2 cursor hne ih =>
      rw [run, if_neg hne, dif_pos (LineReader.length_step_markup_lt fenced hne), ih]
      rfl

/-- A text has a stream under every limit, and always the same one. -/
theorem ofText_eq (fenced : List Text) (limit : Int) (s : Text) :
    ofText fenced limit s = .ok (counted (unguarded fenced ⟨s, none⟩)) := by
  unfold ofText read
  rw [run_markup]
  rfl

/-- So has a source, whatever it was before it was decoded. -/
theorem ofSource_eq (fenced : List Text) (limit : Int) (source : Source) :
    ofSource fenced limit source = .ok (counted (unguarded fenced ⟨source.decode, none⟩)) :=
  ofText_eq fenced limit source.decode

theorem ofSource_text (fenced : List Text) (limit : Int) {s : Text} (hs : s.head? ≠ some '\uFEFF') :
    ofSource fenced limit (.text s) = .ok (counted (unguarded fenced ⟨s, none⟩)) := by
  rw [ofSource_eq, Source.decode, Source.dropMark_of_head hs]

end TokenStream
end AtMark
