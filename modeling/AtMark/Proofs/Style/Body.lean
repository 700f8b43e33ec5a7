import AtMark.Proofs.Render.Builtin
import AtMark.Proofs.Search
import AtMark.Proofs.Table
import AtMark.Proofs.Text.Words

/-!
# `Proofs.Style.Body`: bodies of style definitions, one behind the other

## What is proved

The aliases of a document are those of the bodies of its style definitions, joined by newlines, and all of them are
tidy (`bodies_compose`).

## How

A body is read line by line, and a blank line defines nothing.  So it makes no difference whether two bodies are read
one after the other or as one text with a newline between them (`extendAliases_seam`): where their ends meet, the
newline may complete a line break or leave an empty line, but every other line is the same (`Text.lines_seam`).  Hence
a document can be read definition by definition (`foldl_extendAliases`).

What a line defines is tidy (`IsTidy`): a name without outer blanks and colons, and classes with single spaces between
them.  A table holds nothing but what lines define, so it is tidy, too (`mem_extendAliases`).

## What is not

That aliases stay with a renderer.  They are gathered anew for each page, so what its table held before does not
matter, and the statement is about any renderer.
-/

namespace AtMark.Style

open Search Text

/-- A name and its classes as they stand in a table of aliases. -/
structure IsTidy (e : Text × Text) : Prop where
  name_ne_nil : e.1 ≠ []
  strip_name : strip e.1 = e.1
  no_colon : ':' ∉ e.1
  strip_classes : strip e.2 = e.2
  single_blanks : e.2.IsChain fun c d => isBlank c = false ∨ isBlank d = false

/-! ## One line -/

namespace AliasLine

variable {line name classes : Text}

theorem of_ofLine_eq_definition (h : ofLine line = definition name classes) :
    ∃ before after, breakOn [':'] (strip line) = some (before, after) ∧ strip before ≠ [] ∧
      name = strip before ∧ classes = joinWords (words after) := by
  unfold ofLine at h
  dsimp only at h
  split at h
  · cases h
  · split at h
    · cases h
    · next before after hbreak =>
      split at h
      · cases h
      · next hname =>
        cases h
        exact ⟨before, after, hbreak, hname, rfl, rfl⟩

theorem isTidy_of_ofLine (h : ofLine line = definition name classes) : IsTidy (name, classes) := by
  obtain ⟨before, after, hbreak, hname, rfl, rfl⟩ := of_ofLine_eq_definition h
  have hwords := isWord_of_mem_words (s := after)
  refine ⟨hname, trim_eq_self head?_trim getLast?_trim, fun hcolon => ?_, strip_intercalate hwords,
    isChain_intercalate hwords⟩
  exact not_mem_of_breakOn_singleton hbreak ((isInfix_trim isBlank before).subset hcolon)

theorem isTidy_of_pair? {e : Text × Text} (h : (ofLine line).pair? = some e) : IsTidy e := by
  cases hline : ofLine line with
  | blank =>
      rw [hline] at h
      cases h
  | ignored text =>
      rw [hline] at h
      cases h
  | definition name classes =>
      rw [hline] at h
      cases h
      exact isTidy_of_ofLine hline

end AliasLine

/-! ## Bodies -/

variable {t : Table} {body : Text}

/-- What two bodies define, with a newline between them, is what the first defines and then what the second defines. -/
theorem pairs_seam (a b : Text) :
    (aliasLines (a ++ '\n' :: b)).filterMap AliasLine.pair? =
      (aliasLines a).filterMap AliasLine.pair? ++ (aliasLines b).filterMap AliasLine.pair? := by
  unfold aliasLines
  rcases lines_seam a b with h | h
  · rw [h, List.map_append, List.filterMap_append]
  · rw [h, List.map_append, List.filterMap_append]
    rfl

theorem extendAliases_seam (t : Table) (a b : Text) :
    extendAliases t (a ++ '\n' :: b) = extendAliases (extendAliases t a) b := by
  rw [extendAliases, pairs_seam, Table.putAll_append]
  rfl

theorem foldl_extendAliases (bodies : List Text) (t : Table) :
    bodies.foldl extendAliases t = extendAliases t (joinLines bodies) := by
  induction bodies generalizing t with
  | nil => rfl
  | cons body bodies ih =>
      cases bodies with
      | nil =>
          rw [joinLines_singleton]
          rfl
      | cons next bodies =>
          have hjoin : joinLines (body :: next :: bodies) = body ++ '\n' :: joinLines (next :: bodies) := by
            rw [joinLines, List.intercalate_cons_cons, List.append_assoc]
            rfl
          rw [hjoin, extendAliases_seam, ← ih]
          rfl

theorem mem_extendAliases {e : Text × Text} (h : e ∈ (extendAliases t body).entries) :
    e ∈ t.entries ∨ IsTidy e := by
  refine (Table.mem_putAll h).imp_right fun hpair => ?_
  obtain ⟨line, hline, he⟩ := List.mem_filterMap.mp hpair
  obtain ⟨text, -, rfl⟩ := List.mem_map.mp hline
  exact AliasLine.isTidy_of_pair? he

/-- Two bodies with a newline between them extend a table as the one does behind the other.  So the aliases that a
renderer gathers from a document, whatever it held before, are those of the joined bodies of all its style
definitions, and all of them are tidy. -/
theorem bodies_compose :
    (∀ (t : Table) (a b : Text),
      extendAliases t (a ++ '\n' :: b) = extendAliases (extendAliases t a) b) ∧
    ∀ (r : Renderer) (d : Node),
      (r.collect d).aliases = extendAliases .empty (joinLines ((d.ofKind .styleDef).map (·.content))) ∧
      ∀ e ∈ (r.collect d).aliases.entries, IsTidy e := by
  refine ⟨extendAliases_seam, fun r d => ?_⟩
  have haliases : (r.collect d).aliases =
      extendAliases .empty (joinLines ((d.ofKind .styleDef).map (·.content))) :=
    foldl_extendAliases _ .empty
  refine ⟨haliases, fun e he => ?_⟩
  rw [haliases] at he
  exact (mem_extendAliases he).resolve_left List.not_mem_nil

/-- A body that ends in a carriage return, and one below it in the tree that begins with an empty line, defines a name
again and has a line without a colon. -/
theorem bodies_compose_seam :
    let first : Node := ⟨.styleDef, .empty, "lead : wide \t bold\r", true, []⟩
    let second : Node := ⟨.styleDef, .empty, "\nlead: small\nno colon\u2028note:", true, []⟩
    let document : Node := ⟨.document, .empty, [], false, [first, ⟨.content, .empty, [], false, [second]⟩]⟩
    let r : Renderer := { host := .plain }
    (r.collect document).aliases =
        extendAliases .empty "lead : wide \t bold\r\n\nlead: small\nno colon\u2028note:" ∧
      (r.collect document).aliases.entries = [("lead".toList, "small".toList), ("note".toList, [])] ∧
      IsTidy ("lead".toList, "small".toList) := by
  intro first second document r
  obtain ⟨haliases, htidy⟩ := bodies_compose.2 r document
  have hjoined : joinLines ((document.ofKind .styleDef).map (·.content)) =
      "lead : wide \t bold\r\n\nlead: small\nno colon\u2028note:" := by decide +kernel
  have hentries : (r.collect document).aliases.entries =
      [("lead".toList, "small".toList), ("note".toList, [])] := by decide +kernel
  rw [hjoined] at haliases
  exact ⟨haliases, hentries, htidy _ (hentries ▸ List.mem_cons_self)⟩

end AtMark.Style
