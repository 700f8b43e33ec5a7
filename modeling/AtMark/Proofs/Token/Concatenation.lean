import AtMark.Proofs.Token.Extension

/-!
# `Proofs.Token.Concatenation`: a source in two parts

## What is proved

A source may be read in two parts where the first ends its last line and leaves nothing open: every parameter
list that it opens is closed in it, and so is every fence.  The tokens of the whole are then those of the
two parts, one after the other (`tokens_append`).

## How

The statement for a cursor, `unguarded_append`, is an induction over the steps on the first part.  Each of
them is a step on the whole as well (`LineReader.step_append`); what carries it is that what is left of the
first part still ends its last line, and when nothing is left of it, no fence is open, so that the second
part is read from its start.

That nothing is left open is to be seen from the notices alone: a step reports what it leaves open and nothing else
(`LineReader.eq_of_mem_notices`), so a reading without such a notice consists of silent steps (`settled_step`).

## What is not

Parts of which the second begins with a byte order mark.  Such a mark is dropped at the start of a source and is a
character anywhere else, so there the parts do differ from the whole.
-/

namespace AtMark

open Text

/-- What a step can report: a list without its parenthesis, or a body that nothing closes. -/
theorem LineReader.eq_of_mem_notices {fenced : List Text} {cursor : Cursor} {n : Notice}
    (h : n ∈ ((markup fenced).step cursor).notices) :
    (∃ name, n = .unterminatedList name) ∨
      ∃ directive, cursor.fence = some directive ∧ (Fence.read cursor.rest).closed = false ∧
        n = .fenceFlushed directive (Fence.read cursor.rest).lines.length := by
  obtain ⟨rest, fence⟩ := cursor
  cases fence with
  | none =>
      replace h : n ∈ (Line.scan fenced rest).notices := h
      rcases Line.scan_cases fenced rest with ⟨name, r, -, -, hscan⟩ | ⟨-, hscan⟩
      · rw [hscan, Line.scanDirective_notices] at h
        split at h
        · exact absurd h List.not_mem_nil
        · exact .inl ⟨name, List.mem_singleton.mp h⟩
      · rw [hscan] at h
        exact absurd h List.not_mem_nil
  | some directive =>
      replace h : n ∈ (Fence.scan directive rest).notices := h
      cases hclosed : (Fence.read rest).closed with
      | true =>
          rw [Fence.scan_of_closed directive hclosed] at h
          exact absurd h List.not_mem_nil
      | false =>
          rw [Fence.scan_of_open directive hclosed] at h
          exact .inr ⟨directive, rfl, rfl, List.mem_singleton.mp h⟩

/-- Reports of a parameter list or a fence that is never closed. -/
def Notice.isUnclosed : Notice → Bool
  | unterminatedList _ | fenceFlushed .. | fenceOpenAtEnd _ => true
  | _ => false

namespace TokenStream

/-- Every parameter list found its closing parenthesis, and every fence its closing marker. -/
def Settled (stream : TokenStream) : Prop :=
  ∀ n ∈ stream.notices, n.isUnclosed = false

instance (stream : TokenStream) : Decidable stream.Settled :=
  inferInstanceAs (Decidable (∀ n ∈ stream.notices, n.isUnclosed = false))

variable {fenced : List Text} {cursor : Cursor}

/-- Reading reports nothing but what was left open. -/
theorem isUnclosed_of_mem_unguarded {n : Notice} (h : n ∈ (unguarded fenced cursor).notices) :
    n.isUnclosed = true := by
  fun_induction unguarded fenced cursor with
  | case1 cursor hnil =>
      obtain ⟨directive, -, rfl⟩ := List.mem_map.mp h
      rfl
  | case2 cursor hne ih =>
      rcases List.mem_append.mp h with h | h
      · rcases LineReader.eq_of_mem_notices h with ⟨name, rfl⟩ | ⟨directive, -, -, rfl⟩
        · rfl
        · rfl
      · exact ih h

theorem notices_eq_nil_of_settled (h : (counted (unguarded fenced cursor)).Settled) :
    (unguarded fenced cursor).notices = [] := by
  refine List.eq_nil_iff_forall_not_mem.mpr fun n hn => ?_
  have hclosed := h n (List.mem_append_left _ hn)
  rw [isUnclosed_of_mem_unguarded hn] at hclosed
  exact Bool.noConfusion hclosed

/-! ## The law -/

theorem fence_eq_none_of_atEnd {fence : Option Text} (h : (atEnd fence).notices = []) : fence = none := by
  cases fence with
  | none => rfl
  | some directive => exact absurd h (List.cons_ne_nil _ _)

/-- A silent reading takes steps that leave nothing open. -/
theorem settled_step (hne : cursor.rest ≠ []) (h : (unguarded fenced cursor).notices = []) :
    ((LineReader.markup fenced).step cursor).Settled := by
  rw [unguarded, if_neg hne] at h
  obtain ⟨hstep, hrest⟩ := List.append_eq_nil_iff.mp h
  refine ⟨hstep, fun hnil => ?_⟩
  rw [unguarded, if_pos hnil] at hrest
  exact fence_eq_none_of_atEnd hrest

theorem unguarded_append (t : Text) (hs : EndsLine cursor.rest)
    (h : (unguarded fenced cursor).notices = []) :
    unguarded fenced (cursor.followedBy t) =
      ⟨(unguarded fenced cursor).tokens ++ (unguarded fenced ⟨t, none⟩).tokens,
       (unguarded fenced ⟨t, none⟩).notices⟩ := by
  fun_induction unguarded fenced cursor with
  | case1 cursor hnil =>
      obtain ⟨rest, fence⟩ := cursor
      obtain rfl : rest = [] := hnil
      obtain rfl : fence = none := fence_eq_none_of_atEnd h
      rfl
  | case2 cursor hne ih =>
      have hsettled : ((LineReader.markup fenced).step cursor).Settled := by
        refine settled_step hne ?_
        rw [unguarded, if_neg hne]
        exact h
      have hstep := LineReader.step_append fenced t hs hne hsettled
      have hnext := ih (hs.of_suffix (LineReader.step_rest_suffix fenced cursor))
        (List.append_eq_nil_iff.mp h).2
      have hne' : (cursor.followedBy t).rest ≠ [] := List.append_ne_nil_of_left_ne_nil hne t
      rw [unguarded, if_neg hne', hstep, Step.followedBy, hnext]
      simp only [after, hsettled.silent, List.nil_append, List.append_assoc]

/-- Reading a source in two parts. -/
theorem tokens_append (fenced : List Text) (limit : Int) {a b : Text} (ha : EndsLine a)
    (hb : b.head? ≠ some '\uFEFF') :
    ∃ first second whole,
      ofSource fenced limit (.text a) = .ok first ∧
      ofSource fenced limit (.text b) = .ok second ∧
      ofSource fenced limit (.text (a ++ b)) = .ok whole ∧
      (first.Settled → whole.tokens = first.tokens ++ second.tokens) := by
  refine ⟨_, _, _, ofSource_eq .., ofSource_eq .., ofSource_eq .., fun hsettled => ?_⟩
  have hsilent := notices_eq_nil_of_settled hsettled
  have hsplit : Source.dropMark (a ++ b) = Source.dropMark a ++ b := by
    by_cases hnil : a = []
    · rw [hnil]
      exact Source.dropMark_of_head hb
    · exact Source.dropMark_append hnil
  have happ := unguarded_append b (ha.of_suffix (Source.dropMark_suffix a)) hsilent
  simp only [counted, Source.decode, hsplit, Source.dropMark_of_head hb]
  exact congrArg TokenStream.tokens happ

theorem tokens_append_of_lines :
    EndsLine "@image(src=\"a\nb\", alt) c\n@code\n@x(\n  @end\n" ∧
      "@meta(k=v".toList.head? ≠ some '\uFEFF' ∧
      ∃ first second whole,
        ofSource Directive.defaultFenced 1 (.text "@image(src=\"a\nb\", alt) c\n@code\n@x(\n  @end\n") =
          .ok first ∧
        ofSource Directive.defaultFenced 1 (.text "@meta(k=v") = .ok second ∧
        ofSource Directive.defaultFenced 1
          (.text ("@image(src=\"a\nb\", alt) c\n@code\n@x(\n  @end\n".toList ++ "@meta(k=v".toList)) = .ok whole ∧
        first.Settled ∧ whole.tokens = first.tokens ++ second.tokens := by
  have ha : EndsLine "@image(src=\"a\nb\", alt) c\n@code\n@x(\n  @end\n" := by
    unfold EndsLine
    decide
  have hb : "@meta(k=v".toList.head? ≠ some '\uFEFF' := by decide
  obtain ⟨first, second, whole, hfirst, hsecond, hwhole, happ⟩ :=
    tokens_append Directive.defaultFenced 1 ha hb
  have hsettled : first.Settled := by
    rw [ofSource_eq] at hfirst
    cases hfirst
    decide +kernel
  exact ⟨ha, hb, first, second, whole, hfirst, hsecond, hwhole, hsettled, happ hsettled⟩

end TokenStream
end AtMark
