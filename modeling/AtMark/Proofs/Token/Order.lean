import AtMark.Proofs.Position.Access
import AtMark.Proofs.Token.Slice
import Mathlib.Data.List.Forall2

/-!
# `Proofs.Token.Order`: tokens stand in the order of the source

## What is proved

The texts of the tokens that are not owned stand in the source one behind the other, each at a place of its own:
nothing is given out twice and nothing out of order (`TokenStream.ofSource_in_order`).

## How

The step at a line keeps to that whatever the line is (`Line.laid_scan`).  The step at a fence keeps to it if the
body that it reads has lost no carriage return, for then the content token has the body as it stands.  From
the steps it goes over to the run (`TokenStream.laid_unguarded`), and texts that stand one behind the other
have places in order (`Laid.exists_spans`).

## What it takes

That no carriage return stands before a newline.  This is more than is needed, since only the bodies of fences lose
theirs, but it can be seen without reading the source; what exactly is needed for each token to have a place at all is
in `Proofs.Token.Slice`.  Tokens that are owned have no places, and where an empty text is put between two others is
not fixed.
-/

namespace AtMark

open Text

/-! ## Steps and runs -/

theorem Fence.laid_scan (directive : Text) {s : Text}
    (h : (read s).closed = true → withoutReturns (verbatim s) = verbatim s) :
    Laid s (scan directive s).tokens (scan directive s).next.rest := by
  cases hclosed : (read s).closed with
  | true =>
      obtain ⟨tail, htail, hlaid⟩ := exists_eq_verbatim_append hclosed
      have hbody : joinLines (read s).lines ++ tail = s := by
        rw [← withoutReturns_verbatim, h hclosed, ← htail]
      rw [scan_of_closed directive hclosed]
      exact (Laid.contentUnlessEmpty false ⟨[], hbody⟩).trans hlaid
  | false =>
      rw [scan_of_open directive hclosed, Token.contentUnlessEmpty]
      split
      · exact .nil List.nil_suffix
      · exact .owned rfl (.nil List.nil_suffix)

theorem LineReader.laid_step (fenced : List Text) {cursor : Cursor}
    (h : ∀ text ∈ cursor.closedBody, withoutReturns text = text) :
    Laid cursor.rest ((markup fenced).step cursor).tokens ((markup fenced).step cursor).next.rest := by
  obtain ⟨rest, fence⟩ := cursor
  cases fence with
  | none => exact Line.laid_scan fenced rest
  | some directive =>
      refine Fence.laid_scan directive fun hclosed => h _ ?_
      rw [Cursor.closedBody, if_pos ⟨rfl, hclosed⟩]
      exact List.mem_singleton_self _

theorem TokenStream.laid_unguarded (fenced : List Text) (cursor : Cursor)
    (h : ∀ text ∈ closedBodies fenced cursor, withoutReturns text = text) :
    Laid cursor.rest (unguarded fenced cursor).tokens [] := by
  fun_induction unguarded fenced cursor with
  | case1 cursor hnil => exact .nil List.nil_suffix
  | case2 cursor hne ih =>
      rw [closedBodies, if_neg hne, List.forall_mem_append] at h
      exact (LineReader.laid_step fenced h.1).trans (ih h.2)

/-! ## Places -/

/-- Texts that stand one behind the other have places that follow each other. -/
theorem Laid.exists_spans {source s rest : Text} {ts : List Token} (h : Laid s ts rest) :
    ∀ {position : Nat}, Position.Stands source position s source.length →
      ∃ spans : List (Nat × Nat),
        List.Forall₂ (fun t span => Position.Stands source span.1 t.lexeme span.2)
          (ts.filter fun t => !t.owned) spans ∧
        spans.Pairwise (fun first second => first.2 ≤ second.1) ∧ ∀ span ∈ spans, position ≤ span.1 := by
  induction h with
  | nil _ =>
      intro position _
      exact ⟨[], .nil, .nil, nofun⟩
  | owned ht _ ih =>
      intro position hs
      rw [List.filter_cons_of_neg (by rw [ht]; decide)]
      exact ih hs
  | @slice s s' rest t ts hslice _ ih =>
      intro position hs
      have hlexeme := hs.of_suffix hslice
      have hstart : position ≤ source.length - (t.lexeme ++ s').length := by
        have hposition := hs.position_eq
        have hlength := hslice.length_le
        omega
      obtain ⟨spans, hspans, horder, hbehind⟩ := ih hlexeme.behind
      cases howned : t.owned with
      | true =>
          rw [List.filter_cons_of_neg (by rw [howned]; decide)]
          refine ⟨spans, hspans, horder, fun span hspan => ?_⟩
          have hspan := hbehind span hspan
          omega
      | false =>
          rw [List.filter_cons_of_pos (by rw [howned]; decide)]
          refine ⟨(_, _) :: spans, .cons hlexeme.narrow hspans, List.pairwise_cons.mpr ⟨hbehind, horder⟩, ?_⟩
          intro span hspan
          rcases List.mem_cons.mp hspan with rfl | hspan
          · exact hstart
          · have hspan := hbehind span hspan
            omega

/-! ## Sources -/

namespace TokenStream

/-- Where no carriage return stands before a newline, tokens are in source order: the tokens that are not owned
have places in the source, in the order of the stream, and no two of them overlap. -/
theorem ofSource_in_order (fenced : List Text) (limit : Int) {source : Source}
    (h : ¬['\r', '\n'] <:+: source.decode) :
    ∃ stream, ∃ spans : List (Nat × Nat),
      ofSource fenced limit source = .ok stream ∧
      List.Forall₂ (fun t span => span.1 ≤ span.2 ∧ span.2 ≤ source.decode.length ∧
          Position.slice source.decode span.1 span.2 = t.lexeme)
        (stream.tokens.filter fun t => !t.owned) spans ∧
      spans.Pairwise (fun first second => first.2 ≤ second.1) := by
  have hbodies : ∀ text ∈ closedBodies fenced ⟨source.decode, none⟩, withoutReturns text = text := by
    intro text htext
    have hbody : text <:+: source.decode := infix_of_mem_closedBodies htext
    exact withoutReturns_eq_self_iff.mpr fun hreturn => h (hreturn.trans hbody)
  have hwhole : Position.Stands source.decode 0 source.decode source.decode.length :=
    Position.Stands.drop_of_le (Nat.zero_le _)
  obtain ⟨spans, hspans, horder, -⟩ := (laid_unguarded fenced ⟨source.decode, none⟩ hbodies).exists_spans hwhole
  refine ⟨_, spans, ofSource_eq fenced limit source, List.Forall₂.imp (fun t span hspan => ?_) hspans, horder⟩
  refine ⟨hspan.le, ?_, hspan.slice_eq⟩
  obtain ⟨front, back, hsource, hfront, hlimit⟩ := hspan
  rw [hsource, List.length_append, List.length_append]
  omega

/-- A list that is given up, an escape and a body whose last line is closed behind its text. -/
theorem ofSource_in_order_code :
    ¬['\r', '\n'] <:+: (Source.text "a @@b c\n@x(k=\"v\n@code\nk\n v @end\n").decode ∧
      ∃ stream, ∃ spans : List (Nat × Nat),
        ofSource Directive.defaultFenced 1 (.text "a @@b c\n@x(k=\"v\n@code\nk\n v @end\n") = .ok stream ∧
        List.Forall₂ (fun t span => span.1 ≤ span.2 ∧
            span.2 ≤ (Source.text "a @@b c\n@x(k=\"v\n@code\nk\n v @end\n").decode.length ∧
            Position.slice (Source.text "a @@b c\n@x(k=\"v\n@code\nk\n v @end\n").decode span.1 span.2 = t.lexeme)
          (stream.tokens.filter fun t => !t.owned) spans ∧
        spans.Pairwise (fun first second => first.2 ≤ second.1) := by
  have h : ¬['\r', '\n'] <:+: (Source.text "a @@b c\n@x(k=\"v\n@code\nk\n v @end\n").decode := by decide
  exact ⟨h, ofSource_in_order Directive.defaultFenced 1 h⟩

end TokenStream
end AtMark
