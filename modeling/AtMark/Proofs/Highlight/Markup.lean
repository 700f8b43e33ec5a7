import AtMark.Highlight
import AtMark.Proofs.Highlight.Rule
import AtMark.Proofs.Search
import Mathlib.Data.List.TakeWhile

/-!
# `Proofs.Highlight.Markup`: the lexer of the markup loses nothing

## What is proved

Of every text, the pieces put together are the text as it was made ready for lexing, none of them is an error, and
every rule that reads something moves on (`pieces_markup`).

Two properties of the rules carry this, and both are seen from the rules alone.  Every rule has a class for each part
that may match something (`Markup.isSound_rules`).  And in both modes some rule reads something at every character
(`Markup.isSome_rules`), also in a parameter list that is never closed: a newline has a rule of its own in running text
and is blank in a list, and any other character is at least one of its line.

## What is not

Anything about the colours.  The pieces are what a highlighter is given (`Highlight.Code.markup`); the HTML that it
makes of them is its own affair.
-/

namespace AtMark.Highlight

namespace Markup

open Pattern Text

theorem isSound_rules (mode : Mode) : ∀ rule ∈ rules mode, rule.IsSound := by
  cases mode with
  | body => decide
  | parameters => decide

theorem readParts_whole {kind : Class} {pattern : Pattern} {s : Text} {found : Match s}
    (h : ∀ {α : Type} (next : Match s → Option α), (next found).isSome = true → pattern.run s next = next found) :
    readParts (whole kind pattern) s = some ([(kind, found.taken)], found.rest) :=
  h _ rfl

/-- At every character some rule reads something: a newline has a rule of its own in running text and is blank in a
parameter list, and any other character is at least one of its line. -/
theorem isSome_rules (mode : Mode) (lineStart : Bool) (c : Char) (cs : Text) :
    (firstMatch (rules mode) lineStart (c :: cs)).isSome = true := by
  have hsome : ∀ {parts : List Part} {next : Mode} {found : List Piece × Text},
      ⟨false, parts, next⟩ ∈ rules mode → readParts parts (c :: cs) = some found →
        (firstMatch (rules mode) lineStart (c :: cs)).isSome = true :=
    fun hmem hread => isSome_firstMatch hmem (isSound_rules mode _ hmem) hread
  by_cases hc : c = '\n'
  · subst hc
    cases mode with
    | body =>
        have hmem : ⟨false, whole .whitespace (word "\n"), .body⟩ ∈ rules .body := by simp [rules]
        exact hsome hmem (readParts_whole fun next _ => run_word_of_append (w := "\n") rfl next)
    | parameters =>
        have hmem : ⟨false, whole .whitespace (plus (one isBlank)), .parameters⟩ ∈ rules .parameters := by
          simp [rules]
        have hblanks : ∀ c ∈ '\n' :: cs.takeWhile isBlank, isBlank c = true :=
          List.forall_mem_cons.mpr ⟨by decide, fun c hc => List.mem_takeWhile_imp hc⟩
        have hrest : ∀ c ∈ (cs.dropWhile isBlank).head?, isBlank c = false := by
          intro c hc
          have hnot := List.head?_dropWhile_not isBlank cs
          rw [Option.mem_def.mp hc] at hnot
          exact hnot
        have hsplit : '\n' :: cs = '\n' :: cs.takeWhile isBlank ++ cs.dropWhile isBlank := by
          rw [List.cons_append, List.takeWhile_append_dropWhile]
        exact hsome hmem (readParts_whole fun next hnext =>
          run_plus_one (List.cons_ne_nil _ _) hblanks hrest hsplit (.inl hnext))
  · have hline : isInLine c = true := bne_iff_ne.mpr hc
    have hmem : ⟨false, whole .text (one isInLine), mode⟩ ∈ rules mode := by
      cases mode <;> simp [rules]
    exact hsome hmem (readParts_whole fun next _ => run_one_of_cons hline rfl next)

end Markup

/-! ## The text that is lexed -/

open Search

theorem unifyBreaks_eq (s : Text) :
    unifyBreaks s = replaceAll ['\r'] ['\n'] (replaceAll ['\r', '\n'] ['\n'] s) := by
  have hmark : ['\r', '\n'] ≠ [] := List.cons_ne_nil _ _
  rw [replaceAll_singleton]
  fun_induction unifyBreaks s with
  | case1 => rw [replaceAll_nil hmark, List.flatMap_nil]
  | case2 cs ih =>
      rw [replaceAll_of_skip hmark rfl, ih]
      rfl
  | case3 c cs hbreak ih =>
      have hskip : skip? ['\r', '\n'] (c :: cs) = none := by
        rw [Option.eq_none_iff_forall_ne_some]
        intro rest hrest
        obtain ⟨rfl, hcs⟩ := List.cons.inj (skip?_eq_some_iff.mp hrest)
        exact hbreak rest rfl hcs
      rw [replaceAll_cons hmark hskip, List.flatMap_cons, ih]
      split
      · rfl
      · rfl

/-- The lexer of the markup loses nothing and never fails.  Every rule that reads moves on; the pieces, put together,
are the text without its byte order mark, with newlines for its line breaks, none of them at its start and one at
its end; and none of the pieces is an error. -/
theorem pieces_markup (s : Text) :
    (∀ mode, ∀ rule ∈ Markup.rules mode, ∀ lineStart t, ∀ found ∈ rule.read lineStart t,
      found.2.length < t.length) ∧
    textOf (pieces s) =
      Text.trim isNewline
        (replaceAll ['\r'] ['\n'] (replaceAll ['\r', '\n'] ['\n'] (Source.dropMark s))) ++ ['\n'] ∧
    ∀ piece ∈ pieces s, piece.1 ≠ .error := by
  refine ⟨?_, ?_, ?_⟩
  · intro mode rule hrule lineStart t found hfound
    exact (rule.covers_of_read (Markup.isSound_rules mode rule hrule) hfound).moves
  · have hlex : textOf (pieces s) = prepare s := textOf_lex Markup.isSound_rules .body true (prepare s)
    rw [hlex, prepare, unifyBreaks_eq]
  · exact ne_error_of_mem_lex Markup.isSound_rules Markup.isSome_rules .body true (prepare s)

/-- A parameter list that stays open to the end, with an open quotation in it: the quotation is read as a value
without quotes, and what is left of the text is the newline put at its end. -/
theorem pieces_markup_open_list :
    let bare : Rule := ⟨false, Markup.assignment .string (.star (.one Markup.isBare)), .parameters⟩
    (bare ∈ Markup.rules .parameters ∧ ("\n" : Text).length < ("b=\"c\n" : Text).length) ∧
    textOf (pieces "\uFEFF\r@a(b=\"c\r\n") = "@a(b=\"c\n" ∧
    ((.string, "\"c") : Piece) ∈ pieces "\uFEFF\r@a(b=\"c\r\n" ∧ Class.string ≠ .error := by
  intro bare
  have hrule : bare ∈ Markup.rules .parameters := by simp [bare, Markup.rules]
  have hread : bare.read false "b=\"c\n" = some
      ([(.key, ['b']), (.whitespace, []), (.operator, ['=']), (.whitespace, []), (.string, ['"', 'c'])], ['\n']) := by
    decide +kernel
  have hpiece : ((.string, "\"c") : Piece) ∈ pieces "\uFEFF\r@a(b=\"c\r\n" := by decide +kernel
  obtain ⟨hmoves, htext, hsound⟩ := pieces_markup "\uFEFF\r@a(b=\"c\r\n"
  have hrest := hmoves .parameters bare hrule false "b=\"c\n" _ hread
  refine ⟨⟨hrule, hrest⟩, ?_, hpiece, hsound _ hpiece⟩
  rw [htext]
  decide +kernel

end AtMark.Highlight
