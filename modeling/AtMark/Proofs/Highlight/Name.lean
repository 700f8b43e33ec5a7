import AtMark.Node.Kind
import AtMark.Proofs.Highlight.Markup
import AtMark.Proofs.Source
import AtMark.Proofs.Token.Form

/-!
# `Proofs.Highlight.Name`: the names of directives in the lexer

## What is proved

The lexer of the markup keeps a list of names of its own, apart from the table of directives by which a document is
read.  The two list the same names (`Markup.mem_knownNames_iff`), and since every rule for a known name asks for the
end of a name or for a parenthesis behind it, no name counts that another one only begins with.  So at an at sign the
lexer takes a whole name and classes it by the table alone, with a parenthesis behind it and without (`pieces_name`).

## How

The rules are tried in their order.  Those before the rules for names read nothing at a directive
(`firstMatch_directive`); of the known names only the whole name counts (`readParts_known`); and what is left of the
text after the name is lexed from there (`lex_name`, `lex_list`).

## What is not

Names inside other text.  The statements are about a text that is one directive; behind other text the rules for
emphasis and code may have read on past the at sign.
-/

namespace AtMark.Highlight

/-- The class of a directive's name: the closing name is a keyword, a directive of the table is declared, and any
other name is a tag. -/
def Class.ofName (n : Text) : Class :=
  if n = Markup.endName then .keyword else if Directive.isKnown ('@' :: n) then .declaration else .tag

namespace Markup

open Pattern Text

/-! ## Known names -/

/-- The names that the lexer knows are those of the table of directives, in some order. -/
theorem names_perm :
    List.Perm (Directive.table.map Prod.fst ++ Directive.spellings.map Prod.fst) (knownNames.map ('@' :: ·)) := by
  decide

theorem mem_knownNames_iff (n : Text) : n ∈ knownNames ↔ Directive.isKnown ('@' :: n) = true := by
  have hcons : Function.Injective ('@' :: · : Text → Text) := fun _ _ h => (List.cons.inj h).2
  rw [← List.mem_map_of_injective hcons, ← names_perm.mem_iff, List.mem_append]
  simp [Directive.isKnown]

/-! ## What follows a name -/

/-- What follows a part among others: the others read, and its pieces are put before theirs. -/
def behind {s : Text} (part : Part) (more : List Part) (found : Match s) : Option (List Piece × Text) :=
  (readParts more found.rest).map fun (pieces, rest) => (part.pieces found.taken ++ pieces, rest)

/-- The parts read nothing before the end of a name. -/
def StopsInName (parts : List Part) : Prop :=
  ∀ s : Text, (∃ c ∈ s.head?, Name.isNameChar c = true) → readParts parts s = none

theorem StopsInName.behind {parts : List Part} (h : StopsInName parts) (part : Part) {s : Text} :
    ∀ found : Match s, (∃ c ∈ found.rest.head?, Name.isNameChar c = true) → behind part parts found = none := by
  intro found hfound
  rw [Markup.behind, h found.rest hfound]
  rfl

theorem stopsInName_nameEnd : StopsInName [nameEnd] := by
  rintro s ⟨c, hc, hname⟩
  have hany : s.head?.any Name.isNameChar = true := by
    rw [Option.mem_def.mp hc]
    exact hname
  exact if_pos hany

theorem readParts_nameEnd {s : Text} (h : ∀ c ∈ s.head?, Name.isNameChar c = false) :
    readParts [nameEnd] s = some ([], s) := by
  have hany : ¬s.head?.any Name.isNameChar = true := by
    rw [Option.any_eq_true]
    rintro ⟨c, hc, hname⟩
    rw [h c hc] at hname
    cases hname
  exact if_neg hany

theorem readParts_opening (s : Text) : readParts [opening] ('(' :: s) = some ([(.punctuation, ['('])], s) :=
  run_word_of_append rfl (behind opening [])

theorem readParts_opening_of_ne {s : Text} (h : s.head? ≠ some '(') : readParts [opening] s = none := by
  refine run_word_eq_none (w := "(") ?_ _
  rintro rest rfl
  exact h rfl

theorem stopsInName_opening : StopsInName [opening] := by
  rintro s ⟨c, hc, hname⟩
  refine readParts_opening_of_ne fun hopen => ?_
  obtain rfl : c = '(' := Option.some.inj (hc.symm.trans hopen)
  cases hname

/-! ## Rules at a name -/

theorem not_name_of_head {c : Char} (hc : Name.isNameChar c = false) (s : Text) :
    ∀ d ∈ (c :: s).head?, Name.isNameChar d = false := by
  rintro d ⟨⟩
  exact hc

theorem readParts_atSign (more : List Part) (s : Text) : readParts (atSign :: more) ('@' :: s) =
    (readParts more s).map fun (pieces, rest) => ((.punctuation, ['@']) :: pieces, rest) :=
  run_word_of_append rfl (behind atSign more)

section Rules

variable {n tail : Text} (hn : Name.IsName n)

include hn

theorem head?_append_ne {c : Char} (hc : Name.isNameChar c = false) : (n ++ tail).head? ≠ some c := by
  obtain ⟨d, ds, rfl⟩ := List.exists_cons_of_ne_nil hn.1
  intro hhead
  obtain rfl : d = c := Option.some.inj hhead
  rw [hn.2 d List.mem_cons_self] at hc
  cases hc

/-- The rules for lines and for escapes read nothing at a directive, and the closing marker is the first that may. -/
theorem firstMatch_directive (lineStart : Bool) :
    firstMatch (rules .body) lineStart ('@' :: (n ++ tail)) =
      firstMatch ((rules .body).drop 3) lineStart ('@' :: (n ++ tail)) := by
  have hindent : ∀ {α : Type} (next : Match ('@' :: (n ++ tail)) → Option α),
      indent.run ('@' :: (n ++ tail)) next = next (.nothing _) :=
    fun next => repeated_one_of_head (by rintro c ⟨⟩; rfl) next
  have hcomment : readParts comment ('@' :: (n ++ tail)) = none := hindent _
  have hheading : readParts heading ('@' :: (n ++ tail)) = none := hindent _
  have hmark : ∀ rest : Text, '@' :: (n ++ tail) ≠ "@@" ++ rest := by
    intro rest hmark
    have hsecond : n ++ tail = '@' :: rest := (List.cons.inj hmark).2
    exact head?_append_ne hn rfl (congrArg List.head? hsecond)
  have hescape : readParts (whole .escape escape) ('@' :: (n ++ tail)) = none := by
    rw [whole, readParts, escape, run]
    exact run_word_eq_none hmark _
  rw [rules, firstMatch_cons_of_readParts_none hcomment, firstMatch_cons_of_readParts_none hheading,
    firstMatch_cons_of_readParts_none hescape]
  rfl

theorem readParts_span : readParts [atSign, opening] ('@' :: (n ++ tail)) = none := by
  rw [readParts_atSign, readParts_opening_of_ne (head?_append_ne hn rfl), Option.map_none]

omit hn in
/-- Behind an at sign a pattern for names reads the whole name, if it takes it. -/
theorem readParts_name {kind : Class} {pattern : Pattern} {more : List Part} (test : Prop) [Decidable test]
    (hrun : pattern.run (n ++ tail) (behind ⟨some kind, pattern⟩ more) =
      if test then behind ⟨some kind, pattern⟩ more (.ofAppend n tail rfl) else none) :
    readParts (atSign :: ⟨some kind, pattern⟩ :: more) ('@' :: (n ++ tail)) =
      if test then
        (readParts more tail).map fun (pieces, rest) => ((.punctuation, ['@']) :: (kind, n) :: pieces, rest)
      else none := by
  have hname : readParts (⟨some kind, pattern⟩ :: more) (n ++ tail) =
      if test then behind ⟨some kind, pattern⟩ more (.ofAppend n tail rfl) else none := hrun
  rw [readParts_atSign, hname]
  split
  · rw [behind, Match.taken_ofAppend, Option.map_map]
    rfl
  · rfl

variable (htail : ∀ c ∈ tail.head?, Name.isNameChar c = false)

include htail

theorem readParts_closer : readParts [atSign, ⟨some .keyword, word endName⟩, nameEnd] ('@' :: (n ++ tail)) =
    if n = endName then some ([(.punctuation, ['@']), (.keyword, n)], tail) else none := by
  have hrun := run_word_of_run hn.2 htail (by decide : ∀ c ∈ endName, Name.isNameChar c = true)
    (stopsInName_nameEnd.behind ⟨some .keyword, word endName⟩)
  rw [readParts_name _ hrun, readParts_nameEnd htail, Option.map_some]

theorem readParts_known {more : List Part} (hmore : StopsInName more) :
    readParts (atSign :: ⟨some .declaration, knownName⟩ :: more) ('@' :: (n ++ tail)) =
      if n ∈ knownNames then
        (readParts more tail).map fun (pieces, rest) =>
          ((.punctuation, ['@']) :: (.declaration, n) :: pieces, rest)
      else none :=
  readParts_name _ (run_anyOf_of_run hn.2 htail (by decide) (hmore.behind _))

theorem readParts_any {more : List Part} (hmore : (readParts more tail).isSome = true ∨ StopsInName more) :
    readParts (atSign :: ⟨some .tag, name⟩ :: more) ('@' :: (n ++ tail)) =
      (readParts more tail).map fun (pieces, rest) => ((.punctuation, ['@']) :: (.tag, n) :: pieces, rest) := by
  refine (readParts_name True ?_).trans (if_pos trivial)
  rw [if_pos trivial]
  refine run_plus_one hn.1 hn.2 htail rfl (hmore.imp ?_ fun hstops => hstops.behind _)
  intro hsome
  rw [behind, Option.isSome_map]
  exact hsome

/-! ## The rule for a name -/

/-- A name without a parameter list is classed as a whole.  The closing name has none, whatever follows it. -/
theorem firstMatch_name (lineStart : Bool) (hopen : n = endName ∨ tail.head? ≠ some '(') :
    firstMatch (rules .body) lineStart ('@' :: (n ++ tail)) =
      some ([(.punctuation, ['@']), (Class.ofName n, n)], tail, .body) := by
  have hcloser := readParts_closer hn htail
  have hknown := readParts_known hn htail stopsInName_nameEnd
  have hany : readParts [atSign, ⟨some .tag, name⟩] ('@' :: (n ++ tail)) =
      some ([(.punctuation, ['@']), (.tag, n)], tail) := readParts_any hn htail (.inl rfl)
  rw [firstMatch_directive hn, Class.ofName]
  by_cases hend : n = endName
  · rw [if_pos hend] at hcloser ⊢
    exact firstMatch_cons_of_some (by decide) hcloser
  have hparen : readParts [opening] tail = none := readParts_opening_of_ne (hopen.resolve_left hend)
  have hknownList := readParts_known hn htail stopsInName_opening
  have hanyList := readParts_any hn htail (.inr stopsInName_opening)
  rw [hparen, Option.map_none] at hknownList hanyList
  rw [ite_self] at hknownList
  rw [if_neg hend] at hcloser ⊢
  simp only [← mem_knownNames_iff, rules, List.drop_succ_cons, List.drop_zero]
  rw [firstMatch_cons_of_readParts_none hcloser, firstMatch_cons_of_readParts_none hknownList]
  by_cases htest : n ∈ knownNames
  · rw [if_pos htest] at hknown ⊢
    rw [readParts_nameEnd htail] at hknown
    exact firstMatch_cons_of_some (by decide) hknown
  · rw [if_neg htest] at hknown ⊢
    rw [firstMatch_cons_of_readParts_none hknown, firstMatch_cons_of_readParts_none (readParts_span hn),
      firstMatch_cons_of_readParts_none hanyList]
    exact firstMatch_cons_of_some (by decide) hany

omit htail in
/-- Any name but the closing one, with a parenthesis behind it, opens a parameter list. -/
theorem firstMatch_list (lineStart : Bool) (hend : n ≠ endName) (rest : Text) :
    firstMatch (rules .body) lineStart ('@' :: (n ++ '(' :: rest)) =
      some ([(.punctuation, ['@']), (Class.ofName n, n), (.punctuation, ['('])], rest, .parameters) := by
  have hparen : ∀ c ∈ ('(' :: rest).head?, Name.isNameChar c = false := not_name_of_head rfl rest
  have hcloser := readParts_closer hn hparen
  have hknownList := readParts_known hn hparen stopsInName_opening
  have hknown := readParts_known hn hparen stopsInName_nameEnd
  have hany := readParts_any hn hparen (.inr stopsInName_opening)
  rw [readParts_opening, Option.map_some] at hknownList hany
  rw [if_neg hend] at hcloser
  rw [firstMatch_directive hn, Class.ofName, if_neg hend]
  simp only [← mem_knownNames_iff, rules, List.drop_succ_cons, List.drop_zero]
  rw [firstMatch_cons_of_readParts_none hcloser]
  by_cases htest : n ∈ knownNames
  · rw [if_pos htest] at hknownList ⊢
    exact firstMatch_cons_of_some (by decide) hknownList
  · rw [if_neg htest] at hknownList hknown ⊢
    rw [firstMatch_cons_of_readParts_none hknownList, firstMatch_cons_of_readParts_none hknown,
      firstMatch_cons_of_readParts_none (readParts_span hn)]
    exact firstMatch_cons_of_some (by decide) hany

end Rules
end Markup

/-! ## A name as a text -/

open Search

/-- Of a text in one line only its end is made ready: it gets a newline. -/
theorem prepare_line {s : Text} (hmark : s.head? ≠ some '\uFEFF') (hbreak : ∀ c ∈ s, c ≠ '\r' ∧ c ≠ '\n') :
    prepare s = s ++ ['\n'] := by
  have hreturn : ∀ c ∈ s, c ≠ '\r' := fun c hc => (hbreak c hc).1
  have hunify : unifyBreaks s = s := by
    clear hmark hbreak
    fun_induction unifyBreaks s with
    | case1 => rfl
    | case2 cs ih => exact absurd rfl (hreturn '\r' List.mem_cons_self)
    | case3 c cs hpair ih =>
        rw [if_neg (hreturn c List.mem_cons_self), ih fun d hd => hreturn d (List.mem_cons_of_mem c hd)]
  have hline : ∀ c ∈ s, isNewline c = false := fun c hc => beq_eq_false_iff_ne.mpr (hbreak c hc).2
  rw [prepare, Source.dropMark_of_head hmark, hunify,
    Text.trim_eq_self (fun c hc => hline c (List.mem_of_mem_head? hc))
      fun c hc => hline c (List.mem_of_getLast? hc)]

section Whole

variable {n : Text} (hn : Name.IsName n)

include hn

theorem prepare_directive (tail : Text) (htail : ∀ c ∈ tail, c ≠ '\r' ∧ c ≠ '\n') :
    prepare ('@' :: (n ++ tail)) = '@' :: (n ++ (tail ++ ['\n'])) := by
  rw [prepare_line (by simp), List.cons_append, List.append_assoc]
  refine List.forall_mem_cons.mpr ⟨by decide, ?_⟩
  intro c hc
  rcases List.mem_append.mp hc with hc | hc
  · have hname := hn.2 c hc
    refine ⟨?_, ?_⟩
    · rintro rfl
      cases hname
    · rintro rfl
      cases hname
  · exact htail c hc

theorem lex_name {tail : Text} (htail : ∀ c ∈ tail.head?, Name.isNameChar c = false)
    (hopen : n = Markup.endName ∨ tail.head? ≠ some '(') :
    Markup.pieces ('@' :: (n ++ tail)) =
      (.punctuation, ['@']) :: (Class.ofName n, n) :: lex Markup.rules .body false tail := by
  have hlast : endsLine [(.punctuation, ['@']), (Class.ofName n, n)] = false := by
    rw [← List.singleton_append, endsLine_append_singleton _ hn.1, beq_eq_false_iff_ne]
    intro hnewline
    cases hn.2 _ (List.mem_of_getLast? hnewline)
  rw [Markup.pieces, lex_cons (Markup.firstMatch_name hn htail true hopen), hlast]
  simp [hn.1]

theorem lex_list (hend : n ≠ Markup.endName) (rest : Text) :
    Markup.pieces ('@' :: (n ++ '(' :: rest)) =
      (.punctuation, ['@']) :: (Class.ofName n, n) :: (.punctuation, ['(']) ::
        lex Markup.rules .parameters false rest := by
  have hlast : endsLine [(.punctuation, ['@']), (Class.ofName n, n), (.punctuation, ['('])] = false :=
    endsLine_append_singleton [(.punctuation, ['@']), (Class.ofName n, n)] (List.cons_ne_nil '(' [])
  rw [Markup.pieces, lex_cons (Markup.firstMatch_list hn true hend rest), hlast]
  simp [hn.1]

end Whole

/-- At an at sign the lexer takes a whole name, and classes it by the table of directives.  So it is for a name alone
and for a name with an empty parameter list; only behind the closing name the parentheses are text. -/
theorem pieces_name (n : Text) (hn : Name.IsName n) :
    pieces ('@' :: n) =
      [(.punctuation, ['@']), (Class.ofName n, n), (.whitespace, ['\n'])] ∧
    pieces ('@' :: (n ++ ['(', ')'])) =
      [(.punctuation, ['@']), (Class.ofName n, n)] ++
        (if n = Markup.endName then [(.text, ['(', ')'])] else [(.punctuation, ['(']), (.punctuation, [')'])]) ++
          [(.whitespace, ['\n'])] := by
  have hnewline : lex Markup.rules .body false ['\n'] = [(.whitespace, ['\n'])] := by decide +kernel
  have htext : lex Markup.rules .body false ['(', ')', '\n'] =
      [(.text, ['(', ')']), (.whitespace, ['\n'])] := by decide +kernel
  have hlist : lex Markup.rules .parameters false [')', '\n'] =
      [(.punctuation, [')']), (.whitespace, ['\n'])] := by decide +kernel
  refine ⟨?_, ?_⟩
  · have hprepare : prepare ('@' :: n) = '@' :: (n ++ ['\n']) := by
      simpa using prepare_directive hn [] (List.forall_mem_nil _)
    rw [pieces, hprepare, lex_name hn (Markup.not_name_of_head rfl []) (.inr (by decide)), hnewline]
  · rw [pieces, prepare_directive hn ['(', ')'] (by decide), List.cons_append]
    split
    next hend =>
      rw [lex_name hn (Markup.not_name_of_head rfl _) (.inl hend)]
      exact congrArg (fun more => (.punctuation, ['@']) :: (Class.ofName n, n) :: more) htext
    next hend =>
      rw [lex_list hn hend]
      exact congrArg (fun more => (.punctuation, ['@']) :: (Class.ofName n, n) :: (.punctuation, ['(']) :: more) hlist

/-- A name that goes on behind a known name is not known itself. -/
theorem pieces_name_longer :
    Name.IsName "style-defs" ∧
    pieces "@style-defs" =
      ([(.punctuation, "@"), (.tag, "style-defs"), (.whitespace, "\n")] : List Piece) ∧
    pieces "@style-defs()" =
      ([(.punctuation, "@"), (.tag, "style-defs"), (.punctuation, "("), (.punctuation, ")"),
        (.whitespace, "\n")] : List Piece) :=
  ⟨by decide, pieces_name "style-defs" (by decide)⟩

end AtMark.Highlight
