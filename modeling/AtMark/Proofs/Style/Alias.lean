import AtMark.Proofs.Document.Paragraph
import AtMark.Proofs.Render.Order
import AtMark.Proofs.Table
import AtMark.Proofs.Text.Words
import AtMark.Style.Alias

/-!
# `Proofs.Style.Alias`: aliases from the source to the table

## What is proved

A definition in the source comes out as the table of its pairs (`aliases_round_trip`): one node, and each name at its
first place, with the classes that were written last for it.

## How

A style definition is no fence, so each of its lines is read like any other line: it might be a heading, a
comment or a directive, and it is trimmed and searched for escapes.  The parser joins what is left by newlines.
What reads the aliases cuts that text again, now at every line break that Unicode knows, and each line at its
first colon and at its blanks.

A line `name: classes` passes through all of this if name and classes hold none of the signs that one of these
readers looks for (`IsAlias`, `IsClass`): it is a line of running text (`paragraphLine_definitionLine`), its
trimmed text is one line of free text (`lines_definitionText`), and that line defines the name
(`ofLine_definitionLine`).

## What is not

Lines that one of the readers takes for something else.  A doubled at sign in a class, for one, loses one of its signs
before the aliases are read.  How definitions in several nodes go together, and what their bodies may hold besides, is
in `Proofs.Style.Body`.
-/

namespace AtMark.Style

open Search Text

/-- A name that can be defined: it has no outer blanks, it is on one line, it begins with no sign of the markup,
and it holds no colon and no escape. -/
structure IsAlias (name : Text) : Prop where
  ne_nil : name ≠ []
  strip_eq : strip name = name
  no_colon : ':' ∉ name
  one_line : ∀ c ∈ name, isLineBreak c = false
  no_sign : name.head? ≠ some '@' ∧ name.head? ≠ some '#'
  no_escape : ¬Escape.mark <:+: name

/-- A class that a name can stand for: a word without an escape. -/
structure IsClass (word : Text) : Prop where
  ne_nil : word ≠ []
  solid : ∀ c ∈ word, isSolid c = true
  no_escape : ¬Escape.mark <:+: word

instance (name : Text) : Decidable (IsAlias name) :=
  decidable_of_iff
    (name ≠ [] ∧ strip name = name ∧ ':' ∉ name ∧ (∀ c ∈ name, isLineBreak c = false) ∧
      (name.head? ≠ some '@' ∧ name.head? ≠ some '#') ∧ breakOn Escape.mark name = none)
    ⟨fun ⟨hne, hstrip, hcolon, hline, hsign, hescape⟩ =>
      ⟨hne, hstrip, hcolon, hline, hsign, breakOn_eq_none_iff.mp hescape⟩,
     fun h => ⟨h.ne_nil, h.strip_eq, h.no_colon, h.one_line, h.no_sign,
      breakOn_eq_none_iff.mpr h.no_escape⟩⟩

instance (word : Text) : Decidable (IsClass word) :=
  decidable_of_iff
    (word ≠ [] ∧ (∀ c ∈ word, isSolid c = true) ∧ breakOn Escape.mark word = none)
    ⟨fun ⟨hne, hsolid, hescape⟩ => ⟨hne, hsolid, breakOn_eq_none_iff.mp hescape⟩,
     fun h => ⟨h.ne_nil, h.solid, breakOn_eq_none_iff.mpr h.no_escape⟩⟩

/-- The line that defines a name. -/
def definitionLine (name : Text) (classes : List Text) : Text :=
  name ++ ':' :: ' ' :: AliasLine.joinWords classes

/-! ## One line -/

section DefinitionLine

variable {name : Text} {classes : List Text}

theorem IsAlias.head_solid (h : IsAlias name) : ∀ c ∈ name.head?, isBlank c = false := by
  intro c hc
  rw [← h.strip_eq] at hc
  exact head?_trim c hc

theorem IsClass.mem_joinWords {c : Char} (h : ∀ w ∈ classes, IsClass w)
    (hc : c ∈ AliasLine.joinWords classes) : c = ' ' ∨ isBlank c = false := by
  refine (mem_intercalate hc).imp List.mem_singleton.mp ?_
  rintro ⟨w, hw, hcw⟩
  simpa [isSolid] using (h w hw).solid c hcw

theorem IsClass.no_escape_joinWords (h : ∀ w ∈ classes, IsClass w) :
    ¬Escape.mark <:+: AliasLine.joinWords classes := by
  induction classes with
  | nil => exact fun hin => absurd (List.infix_nil.mp hin) (by decide)
  | cons w classes ih =>
      obtain ⟨hw, hclasses⟩ := List.forall_mem_cons.mp h
      cases classes with
      | nil =>
          rw [AliasLine.joinWords, List.intercalate_singleton]
          exact hw.no_escape
      | cons next classes =>
          intro hin
          rw [AliasLine.joinWords, List.intercalate_cons_cons, List.append_assoc] at hin
          rcases infix_of_parted (by decide) hin with hin | hin
          · exact hw.no_escape hin
          · exact ih hclasses hin

theorem head?_definitionLine (hname : IsAlias name) (classes : List Text) :
    (definitionLine name classes).head? = name.head? :=
  List.head?_append_of_ne_nil name hname.ne_nil

/-- The line begins with its name, so there is no blank at its start. -/
theorem dropWhile_definitionLine (hname : IsAlias name) (classes : List Text) {p : Char → Bool}
    (hp : ∀ c, p c = true → isBlank c = true) :
    (definitionLine name classes).dropWhile p = definitionLine name classes := by
  cases name with
  | nil => exact absurd rfl hname.ne_nil
  | cons c name =>
      refine List.dropWhile_cons_of_neg fun hc => ?_
      exact Bool.noConfusion ((hp c hc).symm.trans (hname.head_solid c rfl))

theorem trim_definitionLine (hname : IsAlias name) (classes : List Text) :
    trim isTrailing (definitionLine name classes) =
      trimEnd isTrailing (definitionLine name classes) := by
  rw [trim, dropWhile_definitionLine hname classes fun _ => isBlank_of_isTrailing]

variable (hname : IsAlias name) (hclasses : ∀ w ∈ classes, IsClass w)
include hname hclasses

theorem isLineBreak_of_mem_definitionLine :
    ∀ c ∈ definitionLine name classes, isLineBreak c = false := by
  intro c hc
  rcases List.mem_append.mp hc with hc | hc
  · exact hname.one_line c hc
  · rcases List.mem_cons.mp hc with rfl | hc
    · rfl
    · rcases List.mem_cons.mp hc with rfl | hc
      · rfl
      · rcases IsClass.mem_joinWords hclasses hc with rfl | hsolid
        · rfl
        · refine Bool.eq_false_iff.mpr fun hbreak => ?_
          exact Bool.noConfusion (hsolid.symm.trans (isBlank_of_isLineBreak hbreak))

theorem paragraphLine_definitionLine : ParagraphLine (definitionLine name classes) where
  one_line := fun hmem => Bool.noConfusion (isLineBreak_of_mem_definitionLine hname hclasses '\n' hmem)
  not_blank := by
    rw [Ne, trim_eq_nil_iff]
    intro hall
    exact Bool.noConfusion (hall ':' (List.mem_append_right name List.mem_cons_self))
  no_sign := by
    rw [dropWhile_definitionLine hname classes fun _ => isBlank_of_isIndent, head?_definitionLine hname]
    intro c hc
    constructor
    · rintro rfl
      exact hname.no_sign.1 hc
    · rintro rfl
      exact hname.no_sign.2 hc
  no_escape := by
    intro hin
    rcases infix_of_parted (by decide) hin with hin | hin
    · exact hname.no_escape hin
    · rcases infix_of_parted (s := []) (by decide) hin with hin | hin
      · exact absurd (List.infix_nil.mp hin) (by decide)
      · exact IsClass.no_escape_joinWords hclasses hin

/-- Read as a line of a style definition, the line defines its name.  What trimming took away does not count. -/
theorem ofLine_definitionLine :
    AliasLine.ofLine (trim isTrailing (definitionLine name classes)) =
      .definition name (AliasLine.joinWords classes) := by
  let behind := trimEnd isBlank (' ' :: AliasLine.joinWords classes)
  have hcore : strip (trim isTrailing (definitionLine name classes)) = name ++ ':' :: behind := by
    have hcolon : trimEnd isBlank (':' :: ' ' :: AliasLine.joinWords classes) = ':' :: behind :=
      trimEnd_cons (by decide)
    rw [trim_definitionLine hname, strip, trim_trimEnd fun _ => isBlank_of_isTrailing, trim,
      dropWhile_definitionLine hname classes fun _ hc => hc, definitionLine, trimEnd_append_of_ne_nil,
      hcolon]
    rw [hcolon]
    exact List.cons_ne_nil _ _
  have hwords : words behind = classes := by
    rw [words_trimEnd, words_blank (by decide)]
    exact words_intercalate fun w hw => ⟨(hclasses w hw).ne_nil, (hclasses w hw).solid⟩
  unfold AliasLine.ofLine
  dsimp only
  rw [hcore, if_neg (List.append_ne_nil_of_left_ne_nil hname.ne_nil _), breakOn_singleton hname.no_colon]
  dsimp only
  rw [hname.strip_eq, if_neg hname.ne_nil, hwords]

end DefinitionLine

/-! ## A whole definition -/

/-- The lines that define some names. -/
def definitionLines (pairs : List (Text × List Text)) : List Text :=
  pairs.map fun p => definitionLine p.1 p.2

/-- A definition in a source: its header, a line for each name, and the closing marker. -/
def definitionBlock (pairs : List (Text × List Text)) : Text :=
  "@style-def" ++ '\n' :: (ofLines (definitionLines pairs) ++ Token.endMarker)

/-- The text that the parser makes of the lines. -/
def definitionText (pairs : List (Text × List Text)) : Text :=
  joinLines ((definitionLines pairs).map (trim isTrailing))

theorem aliasesOf_singleton {document : Node} {text : Text} (hroot : document.kind = .document)
    (hchildren : document.children = [⟨.styleDef, .empty, text, true, []⟩]) :
    Renderer.aliasesOf document = extendAliases .empty text := by
  have hflat : document.IsFlat := by
    intro n hn
    rw [hchildren] at hn
    rw [List.mem_singleton.mp hn]
  rw [Renderer.aliasesOf, Render.definitions_eq hroot hflat, hchildren]
  rfl

section Definition

variable {pairs : List (Text × List Text)} (h : ∀ p ∈ pairs, IsAlias p.1 ∧ ∀ w ∈ p.2, IsClass w)
include h

theorem lines_definitionText :
    lines (definitionText pairs) = (definitionLines pairs).map (trim isTrailing) := by
  refine lines_joinLines ?_
  rw [definitionLines, List.map_map, List.forall_mem_map]
  intro p hp
  obtain ⟨hname, hclasses⟩ := h p hp
  refine ⟨(paragraphLine_definitionLine hname hclasses).not_blank, fun c hc => ?_⟩
  exact isLineBreak_of_mem_definitionLine hname hclasses c ((isInfix_trim isTrailing _).subset hc)

theorem extendAliases_definitionText (t : Table) :
    extendAliases t (definitionText pairs) =
      t.putAll (pairs.map fun p => (p.1, AliasLine.joinWords p.2)) := by
  have hlines : aliasLines (definitionText pairs) =
      pairs.map fun p => .definition p.1 (AliasLine.joinWords p.2) := by
    rw [aliasLines, lines_definitionText h, definitionLines, List.map_map, List.map_map]
    exact List.map_congr_left fun p hp => ofLine_definitionLine (h p hp).1 (h p hp).2
  rw [extendAliases, hlines, List.filterMap_map, ← List.filterMap_eq_map]
  rfl

theorem unguarded_definitionBlock {fenced : List Text} (hfenced : "@style-def".toList ∉ fenced)
    {ending : Text} (hending : ending = [] ∨ ending = ['\n']) :
    (TokenStream.unguarded fenced ⟨definitionBlock pairs ++ ending, none⟩).tokens =
      ⟨.directive, "@style-def", false⟩ ::
        (((definitionLines pairs).map (trim isTrailing)).map (⟨.content, ·, false⟩) ++
          [Token.blockEnd]) := by
  have hlines : ∀ line ∈ definitionLines pairs,
      ParagraphLine line ∧ (line.dropWhile isIndent).head? ≠ some '\r' := by
    rw [definitionLines, List.forall_mem_map]
    intro p hp
    obtain ⟨hname, hclasses⟩ := h p hp
    refine ⟨paragraphLine_definitionLine hname hclasses, fun hreturn => ?_⟩
    rw [dropWhile_definitionLine hname _ fun _ => isBlank_of_isIndent, head?_definitionLine hname] at hreturn
    exact absurd (hname.head_solid '\r' hreturn) (by decide)
  have hsource : ∀ head : Text,
      head ++ '\n' :: (ofLines (definitionLines pairs) ++ Token.endMarker) ++ ending =
        head ++ ([] ++ '\n' :: (ofLines (definitionLines pairs) ++ (Token.endMarker ++ ending))) := by
    intro head
    simp only [List.append_assoc, List.cons_append, List.nil_append]
  have hname : Directive.IsName "@style-def" := by decide
  have hends : Header.Ends [] := fun c hc => absurd hc (by simp)
  have hheader := TokenStream.unguarded_header hname hfenced .bare List.not_mem_nil hends
    (ofLines (definitionLines pairs) ++ (Token.endMarker ++ ending))
  rw [← hsource, TokenStream.unguarded_paragraphs hlines,
    TokenStream.unguarded_endMarker fenced hending] at hheader
  exact hheader

/-- A definition in the source is one node, and the aliases of its document are the pairs that were written: each
name at its first place, with the classes that were written last for it. -/
theorem aliases_round_trip {ending : Text} (hending : ending = [] ∨ ending = ['\n']) (limit : Int) :
    ∃ stream, TokenStream.ofSource Directive.defaultFenced limit
        (.text (definitionBlock pairs ++ ending)) = .ok stream ∧
      (Document.ofTokens stream.tokens).children =
        [⟨.styleDef, .empty, definitionText pairs, true, []⟩] ∧
      (Renderer.aliasesOf (Document.ofTokens stream.tokens)).keys = (pairs.map Prod.fst).eraseDups ∧
      ∀ name, (Renderer.aliasesOf (Document.ofTokens stream.tokens)).get? name =
        (pairs.reverse.map fun p => (p.1, AliasLine.joinWords p.2)).lookup name := by
  have hmark : (definitionBlock pairs ++ ending).head? ≠ some '\uFEFF' :=
    fun hhead => absurd (Option.some.inj hhead) (by decide)
  have hchildren : (Document.ofTokens (TokenStream.unguarded Directive.defaultFenced
      ⟨definitionBlock pairs ++ ending, none⟩).tokens).children =
        [⟨.styleDef, .empty, definitionText pairs, true, []⟩] := by
    rw [unguarded_definitionBlock h (by decide) hending]
    exact (Document.children_contents rfl [] _ []).trans (congrArg _ Document.children_nil)
  have haliases := (aliasesOf_singleton rfl hchildren).trans (extendAliases_definitionText h .empty)
  refine ⟨_, TokenStream.ofSource_text _ _ hmark, hchildren, ?_, fun name => ?_⟩
  · refine (congrArg Table.keys haliases).trans ((Table.keys_ofList _).trans ?_)
    rw [List.map_map]
    rfl
  · refine (congrArg (Table.get? · name) haliases).trans ((Table.get?_ofList _ name).trans ?_)
    rw [List.map_reverse]

end Definition

/-- A name that is defined twice, and one that stands for no class. -/
theorem aliases_round_trip_repeated :
    let pairs : List (Text × List Text) :=
      [("lead", ["wide", "bold"]), ("note", []), ("lead", ["small"])]
    (∀ p ∈ pairs, IsAlias p.1 ∧ ∀ w ∈ p.2, IsClass w) ∧
      ∃ stream, TokenStream.ofSource Directive.defaultFenced 1000
          (.text "@style-def\nlead: wide bold\nnote: \nlead: small\n@end\n") = .ok stream ∧
        (Document.ofTokens stream.tokens).children =
          [⟨.styleDef, .empty, "lead: wide bold\nnote:\nlead: small", true, []⟩] ∧
        (Renderer.aliasesOf (Document.ofTokens stream.tokens)).keys = ["lead".toList, "note".toList] ∧
        (Renderer.aliasesOf (Document.ofTokens stream.tokens)).get? "lead" = some "small".toList ∧
        (Renderer.aliasesOf (Document.ofTokens stream.tokens)).get? "note" = some [] := by
  intro pairs
  have hpairs : ∀ p ∈ pairs, IsAlias p.1 ∧ ∀ w ∈ p.2, IsClass w := by decide +kernel
  have hending : ['\n'] = ([] : Text) ∨ ['\n'] = ['\n'] := .inr rfl
  obtain ⟨stream, hstream, hchildren, hkeys, hget⟩ := aliases_round_trip hpairs hending 1000
  exact ⟨hpairs, stream, hstream, hchildren, hkeys, hget "lead", hget "note"⟩

end AtMark.Style
