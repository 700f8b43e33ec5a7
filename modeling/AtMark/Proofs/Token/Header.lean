import AtMark.Proofs.Token.Extension

/-!
# `Proofs.Token.Header`: header lines

A header is a directive's name, alone or with a parameter list right behind it that is closed on the same line
(`Header`).  Read with more text behind, it gives the directive and the items of its list and stops at its own
end, whatever follows: the longest name ends there because what follows does not continue it, and a closed
list is not read beyond its parenthesis.

`Header.scan_fenced` and `Header.scan_unfenced` are the steps at a line that begins with a header, and
`TokenStream.unguarded_header` is the stream of a source that begins with the latter.  The first opens a fence behind
itself, so the stream goes on inside a body; the second reads its own line to the end, with a text or a closing marker
on it.

What stands behind a header without a list must not go on with its name and must not open a list (`Ends`).  A list
that runs over the end of its line is no part of a header; directives with such lists are in `Proofs.Token.RoundTrip`
where the list ends the source, and are not spelled out elsewhere.
-/

namespace AtMark

open Text

/-- The header of the named directive with the given items. -/
inductive Header (name : Text) : List Parameter → Text → Prop
  | bare : Header name [] name
  | list {items : List Parameter} {inner : Text} : '\n' ∉ inner →
      Parameters.scan inner = ⟨items, [], true⟩ → Header name items (name ++ '(' :: inner)

/-- A text that does not continue a header that stands before it. -/
def Header.Ends (s : Text) : Prop :=
  ∀ c ∈ s.head?, Name.isNameChar c = false ∧ c ≠ '('

namespace Directive

variable {name : Text}

theorem IsName.not_mem_newline (h : IsName name) : '\n' ∉ name := by
  obtain ⟨n, rfl, ⟨-, hall⟩, -⟩ := h
  intro hmem
  rcases List.mem_cons.mp hmem with h | h
  · exact absurd h (by decide)
  · exact absurd (hall '\n' h) (by decide)

end Directive

namespace Header

variable {name head tail s : Text} {items : List Parameter} {fenced : List Text}

theorem ends_indent_line {blanks : Text} (hblanks : ∀ c ∈ blanks, isIndent c = true) (s : Text) :
    Ends (blanks ++ '\n' :: s) := by
  intro c hc
  cases blanks with
  | nil =>
      cases hc
      exact ⟨rfl, by decide⟩
  | cons b blanks =>
      have hb := hblanks b List.mem_cons_self
      cases hc
      rw [isIndent, Bool.or_eq_true, beq_iff_eq, beq_iff_eq] at hb
      rcases hb with rfl | rfl
      · exact ⟨rfl, by decide⟩
      · exact ⟨rfl, by decide⟩

theorem parameters_of_ends (h : Ends s) : Line.parameters s = ⟨[], s, true⟩ := by
  unfold Line.parameters
  split
  · exact absurd rfl (h '(' rfl).2
  · rfl

theorem exists_eq_append (h : Header name items head) :
    ∃ r, head = name ++ r ∧ '\n' ∉ r ∧
      ∀ s, Ends s → Line.parameters (r ++ s) = ⟨items, s, true⟩ ∧
        ∀ c ∈ (r ++ s).head?, Name.isNameChar c = false := by
  cases h with
  | bare =>
      refine ⟨[], (List.append_nil name).symm, List.not_mem_nil, fun s hs => ?_⟩
      exact ⟨parameters_of_ends hs, fun c hc => (hs c hc).1⟩
  | list hline hscan =>
      rename_i inner
      refine ⟨'(' :: inner, rfl, ?_, fun s _ => ⟨?_, ?_⟩⟩
      · intro hmem
        exact hline ((List.mem_cons.mp hmem).resolve_left (by decide))
      · have hclosed : (Parameters.recover inner).closed = true := by
          rw [Parameters.recover, hscan]
          rfl
        show Parameters.recover (inner ++ s) = _
        rw [Parameters.recover_append s hclosed, Parameters.recover, hscan]
        rfl
      · intro c hc
        cases hc
        rfl

/-- A header begins with an at sign, and not with a byte order mark. -/
theorem head?_ne_mark (hname : Directive.IsName name) (hhead : Header name items head) (s : Text) :
    (head ++ s).head? ≠ some '\uFEFF' := by
  obtain ⟨r, rfl, -, -⟩ := exists_eq_append hhead
  obtain ⟨n, rfl, -, -⟩ := hname
  exact fun h => absurd (Option.some.inj h) (by decide)

/-- The step at a line that begins with a header goes on with what stands behind the header. -/
theorem scan_eq {indent : Text} (hname : Directive.IsName name) (hhead : Header name items head)
    (hindent : ∀ c ∈ indent, isIndent c = true) (htail : '\n' ∉ tail) (hs : ∀ c ∈ s.head?, c = '\n')
    (hends : Ends (tail ++ s)) :
    ∃ r, Line.scan fenced (indent ++ (head ++ (tail ++ s))) =
        Line.scanDirective fenced name (r ++ (tail ++ s)) ∧
      Line.parameters (r ++ (tail ++ s)) = ⟨items, tail ++ s, true⟩ := by
  obtain ⟨r, rfl, hr, hread⟩ := exists_eq_append hhead
  refine ⟨r, ?_, (hread _ hends).1⟩
  have hblanks : '\n' ∉ indent := fun h => Bool.noConfusion (hindent '\n' h)
  have hline : '\n' ∉ indent ++ name ++ (r ++ tail) :=
    List.not_mem_append (List.not_mem_append hblanks hname.not_mem_newline) (List.not_mem_append hr htail)
  have hsplit : indent ++ (name ++ r ++ (tail ++ s)) = indent ++ name ++ (r ++ tail) ++ s := by
    simp only [List.append_assoc]
  have hform : Line.LineForm.ofLine (firstLine (indent ++ (name ++ r ++ (tail ++ s)))) = .directive name := by
    have hnot : ∀ c ∈ (r ++ tail).head?, Name.isNameChar c = false := by
      intro c hc
      refine (hread _ hends).2 c ?_
      rw [← List.append_assoc, List.head?_append, hc]
      rfl
    rw [hsplit, firstLine_append_of_head hline hs]
    exact Line.LineForm.ofLine_header hindent hname hnot
  refine Line.scan_directive fenced hform ?_
  obtain ⟨n, rfl, -, -⟩ := hname
  rw [List.dropWhile_append_of_pos hindent, List.append_assoc]
  rfl

theorem scan_fenced {blanks : Text} (hname : Directive.IsName name) (hfenced : name ∈ fenced)
    (hhead : Header name items head) (hblanks : ∀ c ∈ blanks, isIndent c = true) (s : Text) :
    Line.scan fenced (head ++ blanks ++ '\n' :: s) =
      ⟨⟨.directive, name, false⟩ :: items.flatMap Parameter.tokens, [],
       ⟨if name = Fence.math then s.dropWhile isIndent else s, some name⟩⟩ := by
  have hline : '\n' ∉ blanks := fun h => Bool.noConfusion (hblanks '\n' h)
  have hindent : ∀ c ∈ ([] : Text), isIndent c = true := nofun
  have hnewline : ∀ c ∈ ('\n' :: s).head?, c = '\n' := fun _ hc => (Option.some.inj hc).symm
  obtain ⟨r, hscan, hlist⟩ := scan_eq hname hhead hindent hline hnewline (ends_indent_line hblanks s)
  rw [List.nil_append, ← List.append_assoc] at hscan
  have hskip : Fence.skipHeaderEnd (blanks ++ '\n' :: s) = s :=
    Fence.skipHeaderEnd_of_newline (List.dropWhile_append_of_pos hblanks)
  rw [hscan, Line.scanDirective_fenced hfenced, hlist, Fence.bodyStart, hskip]
  rfl

theorem scan_unfenced {indent : Text} (hname : Directive.IsName name) (hfenced : name ∉ fenced)
    (hhead : Header name items head) (hindent : ∀ c ∈ indent, isIndent c = true) (htail : '\n' ∉ tail)
    (hs : ∀ c ∈ s.head?, c = '\n') (hends : Ends (tail ++ s)) :
    Line.scan fenced (indent ++ (head ++ (tail ++ s))) =
      ⟨⟨.directive, name, false⟩ :: items.flatMap Parameter.tokens ++
          Line.tailTokens (trim isTrailing tail), [],
       ⟨s.drop 1, none⟩⟩ := by
  obtain ⟨r, hscan, hlist⟩ := scan_eq hname hhead hindent htail hs hends
  rw [hscan, Line.scanDirective_unfenced hfenced, hlist, firstLine_append_of_head htail hs,
    afterLine_append_of_head htail hs]
  rfl

end Header

theorem TokenStream.unguarded_header {name head tail : Text} {items : List Parameter}
    {fenced : List Text} (hname : Directive.IsName name) (hfenced : name ∉ fenced)
    (hhead : Header name items head) (htail : '\n' ∉ tail) (hends : Header.Ends tail) (s : Text) :
    (unguarded fenced ⟨head ++ (tail ++ '\n' :: s), none⟩).tokens =
      ⟨.directive, name, false⟩ :: (items.flatMap Parameter.tokens ++
        (Line.tailTokens (trim isTrailing tail) ++ (unguarded fenced ⟨s, none⟩).tokens)) := by
  have hne : head ++ (tail ++ '\n' :: s) ≠ [] :=
    List.append_ne_nil_of_right_ne_nil _ (List.append_ne_nil_of_right_ne_nil _ (List.cons_ne_nil _ _))
  have hline : Header.Ends (tail ++ '\n' :: s) := by
    intro c hc
    cases tail with
    | nil =>
        cases hc
        exact ⟨rfl, by decide⟩
    | cons d tail => exact hends c hc
  have hindent : ∀ c ∈ ([] : Text), isIndent c = true := nofun
  have hnewline : ∀ c ∈ ('\n' :: s).head?, c = '\n' := fun _ hc => (Option.some.inj hc).symm
  have hscan := Header.scan_unfenced hname hfenced hhead hindent htail hnewline hline
  rw [List.nil_append] at hscan
  have hstep : (LineReader.markup fenced).step ⟨head ++ (tail ++ '\n' :: s), none⟩ = _ := hscan
  rw [unguarded_step fenced hne, hstep, after]
  simp only [List.cons_append, List.append_assoc, List.drop_one, List.tail_cons]

end AtMark
