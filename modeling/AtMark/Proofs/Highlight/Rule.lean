import AtMark.Highlight.Rule
import AtMark.Proofs.Highlight.Pattern

/-!
# `Proofs.Highlight.Rule`: what lexing by rules keeps

A rule is sound if it has a class for every part that may match something, and some part that always does.  That is
to be seen from its patterns, and what a sound rule reads is covered: its pieces and what it leaves are the text, put
together again, and it leaves less than there was (`Rule.covers_of_read`).

A lexer of sound rules loses nothing: where a rule reads something its pieces stand for it, and where none does, the
next character is a piece of its own (`textOf_lex`).  An error comes up only there.  So a lexer has none if at every
character, in every mode, some rule reads something (`ne_error_of_mem_lex`).

Neither property is about single texts, and neither asks how the modes follow one another.  A rule says in which mode
lexing goes on behind it; since both properties are asked of the rules of all modes, they hold in whichever it is.

That some rule reads something is only needed for the absence of errors.  Without it every text would still be lexed,
and nothing of it would be lost.
-/

namespace AtMark.Highlight

/-- The text of some pieces. -/
def textOf (pieces : List Piece) : Text :=
  pieces.flatMap Prod.snd

theorem textOf_append (pieces more : List Piece) : textOf (pieces ++ more) = textOf pieces ++ textOf more :=
  List.flatMap_append

theorem textOf_cons (piece : Piece) (pieces : List Piece) :
    textOf (piece :: pieces) = piece.2 ++ textOf pieces :=
  List.flatMap_cons

theorem textOf_filter (pieces : List Piece) :
    textOf (pieces.filter fun piece => piece.2 ≠ []) = textOf pieces := by
  induction pieces with
  | nil => rfl
  | cons piece pieces ih =>
      rw [List.filter_cons]
      split
      · rw [textOf_cons, textOf_cons, ih]
      next hempty =>
        have hnil : piece.2 = [] := by simpa using hempty
        rw [ih, textOf_cons, hnil, List.nil_append]

/-! ## Sound rules -/

/-- The pieces at the start of a text and what follows them are the text, something is read, and no piece is an
error. -/
structure Covers (s : Text) (pieces : List Piece) (rest : Text) : Prop where
  text : textOf pieces ++ rest = s
  moves : rest.length < s.length
  sound : ∀ piece ∈ pieces, piece.1 ≠ .error

/-- A part that leaves nothing out and is no error. -/
structure Part.IsSound (part : Part) : Prop where
  widthless : part.kind = none → part.pattern.isWidthless = true
  kind_ne : part.kind ≠ some .error

instance : DecidablePred Part.IsSound := fun part =>
  decidable_of_iff ((part.kind = none → part.pattern.isWidthless = true) ∧ part.kind ≠ some .error)
    ⟨fun h => ⟨h.1, h.2⟩, fun h => ⟨h.1, h.2⟩⟩

/-- A rule whose parts are sound, one of which always matches something. -/
structure Rule.IsSound (rule : Rule) : Prop where
  parts : ∀ part ∈ rule.parts, part.IsSound
  consumes : ∃ part ∈ rule.parts, part.pattern.consumes = true

instance : DecidablePred Rule.IsSound := fun rule =>
  decidable_of_iff ((∀ part ∈ rule.parts, part.IsSound) ∧ ∃ part ∈ rule.parts, part.pattern.consumes = true)
    ⟨fun h => ⟨h.1, h.2⟩, fun h => ⟨h.1, h.2⟩⟩

section Parts

variable {parts : List Part} {s rest : Text} {pieces : List Piece}

/-- What some parts read is a match of the first one, and what the others read behind it. -/
theorem exists_of_readParts {part : Part} (h : readParts (part :: parts) s = some (pieces, rest)) :
    ∃ (found : Match s) (more : List Piece), part.pattern.Allows found.length ∧
      readParts parts found.rest = some (more, rest) ∧ pieces = part.pieces found.taken ++ more := by
  obtain ⟨found, hallows, hfound⟩ := part.pattern.exists_of_run h
  obtain ⟨⟨more, rest'⟩, hmore, heq⟩ := Option.map_eq_some_iff.mp hfound
  cases heq
  exact ⟨found, more, hallows, hmore, rfl⟩

theorem Part.IsSound.textOf_pieces {part : Part} (hpart : part.IsSound) {found : Match s}
    (h : part.pattern.Allows found.length) : textOf (part.pieces found.taken) = found.taken := by
  unfold Part.pieces
  split
  · simp [textOf]
  next hkind =>
    have hlength : found.length = 0 := h.eq_zero (hpart.widthless hkind)
    rw [Match.taken, hlength]
    rfl

/-- Sound parts leave nothing out. -/
theorem text_of_readParts (hparts : ∀ part ∈ parts, part.IsSound)
    (h : readParts parts s = some (pieces, rest)) : textOf pieces ++ rest = s := by
  induction parts generalizing s pieces with
  | nil =>
      cases h
      rfl
  | cons part parts ih =>
      obtain ⟨hpart, hparts⟩ := List.forall_mem_cons.mp hparts
      obtain ⟨found, more, hallows, hmore, rfl⟩ := exists_of_readParts h
      rw [textOf_append, hpart.textOf_pieces hallows, List.append_assoc, ih hparts hmore]
      exact found.taken_append_rest

theorem sound_of_readParts (hparts : ∀ part ∈ parts, part.IsSound)
    (h : readParts parts s = some (pieces, rest)) : ∀ piece ∈ pieces, piece.1 ≠ .error := by
  induction parts generalizing s pieces with
  | nil =>
      cases h
      exact fun piece hmem => absurd hmem List.not_mem_nil
  | cons part parts ih =>
      obtain ⟨hpart, hparts⟩ := List.forall_mem_cons.mp hparts
      obtain ⟨found, more, -, hmore, rfl⟩ := exists_of_readParts h
      intro piece hmem
      rcases List.mem_append.mp hmem with hmem | hmem
      · unfold Part.pieces at hmem
        split at hmem
        next kind hkind =>
          rw [List.mem_singleton.mp hmem]
          rintro rfl
          exact hpart.kind_ne hkind
        next => cases hmem
      · exact ih hparts hmore piece hmem

theorem length_le_of_readParts (h : readParts parts s = some (pieces, rest)) : rest.length ≤ s.length := by
  induction parts generalizing s pieces with
  | nil =>
      cases h
      exact Nat.le_refl _
  | cons part parts ih =>
      obtain ⟨found, more, -, hmore, -⟩ := exists_of_readParts h
      have hle := ih hmore
      rw [found.length_rest] at hle
      omega

/-- Where one of the parts always matches something, less is left. -/
theorem length_lt_of_readParts (hconsumes : ∃ part ∈ parts, part.pattern.consumes = true)
    (h : readParts parts s = some (pieces, rest)) : rest.length < s.length := by
  induction parts generalizing s pieces with
  | nil =>
      obtain ⟨_, hmem, -⟩ := hconsumes
      cases hmem
  | cons part parts ih =>
      obtain ⟨found, more, hallows, hmore, -⟩ := exists_of_readParts h
      obtain ⟨consumer, hmem, hconsumer⟩ := hconsumes
      rcases List.mem_cons.mp hmem with rfl | hmem
      · have hfound := Match.length_rest_lt (hallows.ne_zero hconsumer)
        exact Nat.lt_of_le_of_lt (length_le_of_readParts hmore) hfound
      · have hlt := ih ⟨consumer, hmem, hconsumer⟩ hmore
        rw [found.length_rest] at hlt
        omega

end Parts

theorem Rule.covers_of_read {rule : Rule} (hrule : rule.IsSound) {lineStart : Bool} {s rest : Text}
    {pieces : List Piece} (h : rule.read lineStart s = some (pieces, rest)) : Covers s pieces rest := by
  unfold Rule.read at h
  split at h
  · cases h
  · exact ⟨text_of_readParts hrule.parts h, length_lt_of_readParts hrule.consumes h,
      sound_of_readParts hrule.parts h⟩

/-! ## The first rule that reads -/

section FirstMatch

variable {rule : Rule} {rules : List Rule} {lineStart : Bool} {s rest : Text} {pieces : List Piece}

theorem Rule.apply_of_read (hrule : rule.IsSound)
    (h : rule.read lineStart s = some (pieces, rest)) :
    rule.apply lineStart s = some (pieces, rest, rule.next) := by
  have hmoves : rest.length < s.length := (rule.covers_of_read hrule h).moves
  simp only [Rule.apply, h, if_pos hmoves]

theorem firstMatch_cons_of_none (h : rule.read lineStart s = none) :
    firstMatch (rule :: rules) lineStart s = firstMatch rules lineStart s := by
  have happly : rule.apply lineStart s = none := by
    simp only [Rule.apply, h]
  simp only [firstMatch, List.findSome?_cons, happly]

theorem firstMatch_cons_of_some (hrule : rule.IsSound)
    (h : rule.read lineStart s = some (pieces, rest)) :
    firstMatch (rule :: rules) lineStart s = some (pieces, rest, rule.next) := by
  simp only [firstMatch, List.findSome?_cons, Rule.apply_of_read hrule h]

theorem firstMatch_cons_of_readParts_none {atLineStart : Bool} {parts : List Part} {next : Mode}
    (h : readParts parts s = none) :
    firstMatch (⟨atLineStart, parts, next⟩ :: rules) lineStart s = firstMatch rules lineStart s := by
  refine firstMatch_cons_of_none ?_
  unfold Rule.read
  split
  · rfl
  · exact h

theorem isSome_firstMatch (hmem : rule ∈ rules) (hrule : rule.IsSound)
    (h : rule.read lineStart s = some (pieces, rest)) : (firstMatch rules lineStart s).isSome = true := by
  refine List.findSome?_isSome_iff.mpr ⟨rule, hmem, ?_⟩
  rw [Rule.apply_of_read hrule h]
  rfl

theorem covers_of_firstMatch {mode : Mode} (hrules : ∀ rule ∈ rules, rule.IsSound)
    (h : firstMatch rules lineStart s = some (pieces, rest, mode)) : Covers s pieces rest := by
  obtain ⟨rule, hmem, happly⟩ := List.exists_of_findSome?_eq_some h
  unfold Rule.apply at happly
  split at happly
  next found rest' hread =>
    split at happly
    · cases happly
      exact rule.covers_of_read (hrules rule hmem) hread
    · cases happly
  next => cases happly

end FirstMatch

/-! ## Whole texts -/

/-- Whether some pieces end a line is to be seen from the last one. -/
theorem endsLine_append_singleton (pieces : List Piece) {piece : Piece} (h : piece.2 ≠ []) :
    endsLine (pieces ++ [piece]) = (piece.2.getLast? == some '\n') := by
  have htext : (pieces ++ [piece]).flatMap Prod.snd = pieces.flatMap Prod.snd ++ piece.2 := by
    simp
  rw [endsLine, htext, List.getLast?_append_of_ne_nil _ h]

section Lex

variable {rules : Mode → List Rule}

theorem lex_cons {mode next : Mode} {lineStart : Bool} {c : Char} {cs rest : Text} {pieces : List Piece}
    (h : firstMatch (rules mode) lineStart (c :: cs) = some (pieces, rest, next)) :
    lex rules mode lineStart (c :: cs) =
      pieces.filter (fun piece => piece.2 ≠ []) ++ lex rules next (endsLine pieces) rest := by
  rw [lex]
  split
  next hmatch =>
    rw [h] at hmatch
    cases hmatch
    rfl
  next hmatch =>
    rw [h] at hmatch
    cases hmatch

variable (hrules : ∀ mode, ∀ rule ∈ rules mode, rule.IsSound)

include hrules

/-- The pieces of a text, put together, are the text. -/
theorem textOf_lex (mode : Mode) (lineStart : Bool) (s : Text) : textOf (lex rules mode lineStart s) = s := by
  fun_induction lex rules mode lineStart s with
  | case1 => rfl
  | case2 mode lineStart c cs pieces rest next hmatch ih =>
      rw [textOf_append, textOf_filter, ih]
      exact (covers_of_firstMatch (hrules mode) hmatch).text
  | case3 mode lineStart cs hmatch ih => rw [textOf_cons, ih, List.singleton_append]
  | case4 mode lineStart c cs hmatch hc ih => rw [textOf_cons, ih, List.singleton_append]

/-- Where some rule always reads something, no piece is an error. -/
theorem ne_error_of_mem_lex
    (htotal : ∀ mode lineStart c cs, (firstMatch (rules mode) lineStart (c :: cs)).isSome = true)
    (mode : Mode) (lineStart : Bool) (s : Text) : ∀ piece ∈ lex rules mode lineStart s, piece.1 ≠ .error := by
  fun_induction lex rules mode lineStart s with
  | case1 => exact fun piece h => absurd h List.not_mem_nil
  | case2 mode lineStart c cs pieces rest next hmatch ih =>
      intro piece hmem
      rcases List.mem_append.mp hmem with hmem | hmem
      · exact (covers_of_firstMatch (hrules mode) hmatch).sound piece (List.mem_filter.mp hmem).1
      · exact ih piece hmem
  | case3 mode lineStart cs hmatch ih =>
      have hsome := htotal mode lineStart '\n' cs
      rw [hmatch] at hsome
      cases hsome
  | case4 mode lineStart c cs hmatch hc ih =>
      have hsome := htotal mode lineStart c cs
      rw [hmatch] at hsome
      cases hsome

end Lex

end AtMark.Highlight
