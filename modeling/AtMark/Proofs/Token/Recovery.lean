import AtMark.Proofs.Token.Extension

/-!
# `Proofs.Token.Recovery`: parameter lists that are closed nowhere

## What is proved

Such a list is first scanned to the end of the source, through open quotes and over whatever could be a key,
and then given up: what is kept of it are the items of its own line (`Parameters.recover_of_open`).  The step at the
header of such a list is the same whether the rest of the source stands behind the line or not, and leaves the whole
rest to be read from its start.  So the damage stays on the line (`TokenStream.tokens_open_list`).

## How

A list that is not closed does not get closed by a text without a parenthesis behind it
(`Parameters.scan_append_open`): the readers of keys and values may go on into that text, but a list ends with its
parenthesis, and so it would have ended before.  A list that is closed nowhere in the source is then not closed on its
line either (`Parameters.closed_left`), so the items of the line are those that it has when it stands alone.

## What it takes

That the list is open in the whole source, and not only on its line.  A parenthesis far below closes it, and then all
lines in between belong to it.  The directive is no fence: behind the header of a fence the rest would be a body.
-/

namespace AtMark

open Text

/-! ## Open lists with more text behind -/

namespace Parameters

variable {s t : Text}

theorem scan_append_open (h : (scan s).closed = false) (ht : ')' ∉ t) : (scan (s ++ t)).closed = false := by
  by_contra hclosed
  obtain ⟨list, hlist, hread⟩ := exists_isList (Bool.not_eq_false _ ▸ hclosed)
  -- The list ends with a parenthesis, and so it ends in the first text.
  obtain ⟨u, rfl⟩ : ∃ u, s = list ++ u := by
    rcases List.append_eq_append_iff.mp hlist with ⟨u, hu, htail⟩ | ⟨u, hu, -⟩
    · obtain ⟨inner, hinner⟩ := hread.exists_eq_append
      rcases List.eq_nil_or_concat' u with rfl | ⟨front, c, rfl⟩
      · exact ⟨[], by rw [hu, List.append_nil, List.append_nil]⟩
      · rw [hu, ← List.append_assoc] at hinner
        obtain rfl := List.singleton_inj.mp (List.append_inj_right' hinner rfl)
        have hmem : ')' ∈ front ++ [')'] ++ (scan (s ++ t)).rest := by simp
        exact absurd (htail ▸ hmem) ht
    · exact ⟨u, hu⟩
  rw [scan_of_isList hread u] at h
  cases h

/-! ## Giving up -/

theorem closed_left (h : (scan (s ++ t)).closed = false) : (scan s).closed = false := by
  by_contra hs
  have happ := scan_append t (Bool.not_eq_false _ ▸ hs)
  rw [happ] at h
  exact hs h

theorem recover_of_open (h : (scan s).closed = false) :
    recover s = ⟨(scan (firstLine s)).items, fromLineEnd s, false⟩ :=
  if_neg (Bool.eq_false_iff.mp h)

end Parameters

namespace TokenStream

variable {fenced : List Text} {name inner : Text}

theorem unguarded_open_list (hname : Directive.IsName name) (hfenced : name ∉ fenced)
    (hopen : (Parameters.scan inner).closed = false) :
    (unguarded fenced ⟨name ++ '(' :: inner, none⟩).tokens =
      ⟨.directive, name, false⟩ :: (Parameters.scan (firstLine inner)).tokens ++
        (unguarded fenced ⟨afterLine inner, none⟩).tokens := by
  have hne : name ++ '(' :: inner ≠ [] := List.append_ne_nil_of_right_ne_nil _ (List.cons_ne_nil _ _)
  have hstep : (LineReader.markup fenced).step ⟨name ++ '(' :: inner, none⟩ =
      Line.scanDirective fenced name ('(' :: inner) := Line.scan_list fenced hname inner
  have hlist : Line.parameters ('(' :: inner) =
      ⟨(Parameters.scan (firstLine inner)).items, fromLineEnd inner, false⟩ :=
    Parameters.recover_of_open hopen
  have htail : firstLine (fromLineEnd inner) = [] ∧ afterLine (fromLineEnd inner) = afterLine inner := by
    rcases fromLineEnd_eq_nil_or inner with hend | ⟨rest, hend⟩
    · rw [afterLine, afterLine, hend]
      exact ⟨rfl, rfl⟩
    · rw [afterLine, afterLine, hend]
      exact ⟨rfl, rfl⟩
  rw [unguarded_step fenced hne, hstep, Line.scanDirective_unfenced hfenced, hlist, after]
  dsimp only
  rw [htail.1, htail.2]
  exact congrArg (· ++ _) (List.append_nil _)

/-- Recovery from a missing parenthesis stays on the line: the line has the tokens that it has alone, which are
the directive and the items scanned from it, and what follows has the tokens that it has alone. -/
theorem tokens_open_list (fenced : List Text) (limit : Int) {n line rest : Text} (hn : Name.IsName n)
    (hend : n ≠ "end".toList) (hfenced : '@' :: n ∉ fenced) (hline : '\n' ∉ line)
    (hrest : rest.head? ≠ some '\uFEFF') (hopen : (Parameters.scan (line ++ '\n' :: rest)).closed = false) :
    ∃ header tail whole,
      ofSource fenced limit (.text ('@' :: n ++ '(' :: line)) = .ok header ∧
      ofSource fenced limit (.text rest) = .ok tail ∧
      ofSource fenced limit (.text ('@' :: n ++ '(' :: line ++ '\n' :: rest)) = .ok whole ∧
      whole.tokens = header.tokens ++ tail.tokens ∧
      header.tokens = ⟨.directive, '@' :: n, false⟩ :: (Parameters.scan line).tokens := by
  have hname : Directive.IsName ('@' :: n) := ⟨n, rfl, hn, fun h => hend (List.cons.inj h).2⟩
  have hmark : ∀ s : Text, ('@' :: n ++ s).head? ≠ some '\uFEFF' :=
    fun s h => absurd (Option.some.inj h) (by decide)
  have hwhole := unguarded_open_list hname hfenced hopen
  rw [firstLine_line hline, afterLine_line hline] at hwhole
  have halone := unguarded_open_list hname hfenced (Parameters.closed_left hopen)
  rw [firstLine_eq_self hline, afterLine_eq_nil hline, unguarded_nil, List.append_nil] at halone
  rw [List.append_assoc]
  refine ⟨_, _, _, ofSource_text fenced limit (hmark _), ofSource_text fenced limit hrest,
    ofSource_text fenced limit (hmark _), ?_, halone⟩
  calc (unguarded fenced ⟨'@' :: n ++ ('(' :: line ++ '\n' :: rest), none⟩).tokens
      = ⟨.directive, '@' :: n, false⟩ :: (Parameters.scan line).tokens ++
          (unguarded fenced ⟨rest, none⟩).tokens := hwhole
    _ = (unguarded fenced ⟨'@' :: n ++ '(' :: line, none⟩).tokens ++
          (unguarded fenced ⟨rest, none⟩).tokens := by rw [halone]

/-- The abandoned scan goes through the open quote, over the next line and its item. -/
theorem tokens_open_list_quote :
    Name.IsName "image" ∧ "image".toList ≠ "end".toList ∧ "@image".toList ∉ Directive.defaultFenced ∧
      '\n' ∉ "src=\"a".toList ∧ "b\", k=v\n@code\nx\n@end".toList.head? ≠ some '\uFEFF' ∧
      (Parameters.scan ("src=\"a".toList ++ '\n' :: "b\", k=v\n@code\nx\n@end".toList)).closed = false ∧
      ∃ header tail whole,
        ofSource Directive.defaultFenced 1 (.text "@image(src=\"a") = .ok header ∧
        ofSource Directive.defaultFenced 1 (.text "b\", k=v\n@code\nx\n@end") = .ok tail ∧
        ofSource Directive.defaultFenced 1 (.text "@image(src=\"a\nb\", k=v\n@code\nx\n@end") = .ok whole ∧
        whole.tokens = header.tokens ++ tail.tokens ∧
        header.tokens =
          [⟨.directive, "@image", false⟩, ⟨.parameterKey, "src", false⟩, ⟨.parameterValue, "a", false⟩] := by
  have hn : Name.IsName "image" := by decide
  have hend : "image".toList ≠ "end".toList := by decide
  have hfenced : "@image".toList ∉ Directive.defaultFenced := by decide
  have hline : '\n' ∉ "src=\"a".toList := by decide
  have hrest : "b\", k=v\n@code\nx\n@end".toList.head? ≠ some '\uFEFF' := by decide
  have hopen : (Parameters.scan
      ("src=\"a".toList ++ '\n' :: "b\", k=v\n@code\nx\n@end".toList)).closed = false := by decide +kernel
  obtain ⟨header, tail, whole, hheader, htail, hwhole, happ, htokens⟩ :=
    tokens_open_list Directive.defaultFenced 1 hn hend hfenced hline hrest hopen
  have hscan : (Parameters.scan "src=\"a").tokens =
      [⟨.parameterKey, "src", false⟩, ⟨.parameterValue, "a", false⟩] := by decide +kernel
  rw [hscan] at htokens
  exact ⟨hn, hend, hfenced, hline, hrest, hopen, header, tail, whole, hheader, htail, hwhole, happ, htokens⟩

end TokenStream
end AtMark
