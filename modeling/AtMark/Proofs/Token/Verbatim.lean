import AtMark.Proofs.Document.Block
import AtMark.Proofs.Token.Concatenation
import AtMark.Proofs.Token.Header

/-!
# `Proofs.Token.Verbatim`: the bodies of fences

## What is proved

Between the header of a fenced directive and the line that closes it, lines stand for themselves: the body is
one content token that holds them as they are, joined by newlines, whatever markup they look like, and the
node of the directive has that text (`fenced_body_verbatim`).

## How

The step at a fence depends only on the lines that are read from the body and on what is left behind it
(`unguarded_block`).  So the two ways to close a body, with the marker on a line of its own or behind the last line,
after blanks, are compared by the lines that are read from them, and these are the same (`Fence.read_closed`,
`Fence.read_closed_inline`).

## What it takes

The lines must be lines of a body (`Fence.BodyLine`), that is, not close the fence themselves; and since carriage
returns at the end of a line belong to its line break, they must not end in one.  Mathematics loses the indentation of
its first line, so there the first line has none.

Behind the header only blanks may stand on its line.  A text there would be the first line of the body, without the
blanks before it.
-/

namespace AtMark

open Text

/-! ## Lines inside a fence -/

namespace Fence

/-- A line that closes a fence: it ends in the closing marker, or the marker is all that stands on it. -/
def IsCloser (line : Text) : Prop :=
  Token.endMarker <:+ trimEnd isIndent line ∨ strip line = Token.endMarker

instance : DecidablePred IsCloser :=
  fun line => inferInstanceAs
    (Decidable (Token.endMarker <:+ trimEnd isIndent line ∨ strip line = Token.endMarker))

/-- A line that stands for itself inside a fence. -/
structure BodyLine (line : Text) : Prop where
  one_line : '\n' ∉ line
  no_return : line.getLast? ≠ some '\r'
  open_line : ¬IsCloser line

instance : DecidablePred BodyLine := fun line =>
  decidable_of_iff ('\n' ∉ line ∧ line.getLast? ≠ some '\r' ∧ ¬IsCloser line)
    ⟨fun ⟨hline, hreturn, hopen⟩ => ⟨hline, hreturn, hopen⟩,
     fun h => ⟨h.one_line, h.no_return, h.open_line⟩⟩

variable {line blanks s : Text} {lines : List Text}

theorem ofLine_bodyLine (h : BodyLine line) : LineForm.ofLine line = .body line := by
  have hreturn : trimEnd isReturn line = line := by
    refine trimEnd_eq_self fun c hc => ?_
    refine beq_eq_false_iff_ne.mpr ?_
    rintro rfl
    exact h.no_return hc
  have hstrip : strip (trimEnd isIndent line) ≠ Token.endMarker := by
    rw [strip, trim_trimEnd fun _ => isBlank_of_isIndent]
    exact fun heq => h.open_line (.inr heq)
  have hcut : Search.cutEnd? Token.endMarker (trimEnd isIndent line) = none := by
    refine Option.eq_none_iff_forall_ne_some.mpr fun front hfront => ?_
    exact h.open_line (.inl ⟨front, (Search.cutEnd?_eq_some_iff.mp hfront).symm⟩)
  unfold LineForm.ofLine
  dsimp only
  rw [hreturn, if_neg hstrip, hcut]

/-- A line with the closing marker behind it is the last of its body. -/
theorem ofLine_lastLine (hline : allBlank line = false) (hlast : ∀ c ∈ line.getLast?, isIndent c = false)
    (hblanks : ∀ c ∈ blanks, isIndent c = true) :
    LineForm.ofLine (line ++ blanks ++ Token.endMarker) = .lastLine line := by
  have htrim : ∀ (p : Char → Bool) (front : Text), p 'd' = false →
      trimEnd p (front ++ Token.endMarker) = front ++ Token.endMarker := by
    intro p front hp
    refine trimEnd_eq_self fun c hc => ?_
    rw [List.getLast?_append] at hc
    cases hc
    exact hp
  have hstrip : strip (line ++ blanks ++ Token.endMarker) ≠ Token.endMarker := by
    obtain ⟨c, hc, hsolid⟩ := List.all_eq_false.mp hline
    have hsolid : isBlank c = false := Bool.eq_false_iff.mpr hsolid
    have hmem := mem_dropWhile hc hsolid
    rw [strip, trim, List.append_assoc, dropWhile_append_of_mem hc hsolid, ← List.append_assoc,
      htrim isBlank _ rfl]
    intro heq
    have hlen := congrArg List.length heq
    have hpos := List.length_pos_of_mem hmem
    simp only [List.length_append] at hlen
    omega
  have hcut : Search.cutEnd? Token.endMarker (line ++ blanks ++ Token.endMarker) =
      some (line ++ blanks) := Search.cutEnd?_eq_some_iff.mpr rfl
  unfold LineForm.ofLine
  dsimp only
  rw [htrim isReturn _ rfl, htrim isIndent _ rfl, if_neg hstrip, hcut]
  dsimp only
  rw [trimEnd_append_of_all hblanks, trimEnd_eq_self hlast]

/-! ## Bodies -/

/-- What one line does to a body. -/
def LineForm.extend (form : LineForm) (s : Text) : Body :=
  match form with
  | .closer => ⟨[], s, true⟩
  | .lastLine text => ⟨[text], s, true⟩
  | .body text => (read s).cons text

theorem read_line (hline : '\n' ∉ line) (s : Text) :
    read (line ++ '\n' :: s) = (LineForm.ofLine line).extend s := by
  have hne : line ++ '\n' :: s ≠ [] := List.append_ne_nil_of_right_ne_nil _ (List.cons_ne_nil _ _)
  rw [read, if_neg hne, firstLine_line hline, afterLine_line hline]
  cases LineForm.ofLine line with
  | closer => rfl
  | lastLine text => rfl
  | body text => rfl

theorem read_ofLines (hlines : ∀ line ∈ lines, BodyLine line) {rest : List Text} {left : Text}
    (hs : read s = ⟨rest, left, true⟩) : read (ofLines lines ++ s) = ⟨lines ++ rest, left, true⟩ := by
  induction lines with
  | nil => exact hs
  | cons line lines ih =>
      have hline := hlines line List.mem_cons_self
      rw [ofLines_cons, List.append_assoc, List.cons_append, read_line hline.one_line,
        ofLine_bodyLine hline, LineForm.extend,
        ih fun l hl => hlines l (List.mem_cons_of_mem _ hl)]
      rfl

theorem read_endMarker (s : Text) : read (Token.endMarker ++ '\n' :: s) = ⟨[], s, true⟩ := by
  rw [read_line (by decide)]
  rfl

theorem read_closed (hlines : ∀ line ∈ lines, BodyLine line) (s : Text) :
    read (ofLines lines ++ (Token.endMarker ++ '\n' :: s)) = ⟨lines, s, true⟩ := by
  have hread := read_ofLines hlines (read_endMarker s)
  rwa [List.append_nil] at hread

theorem read_closed_inline (hlines : ∀ l ∈ lines ++ [line], BodyLine l)
    (hline : allBlank line = false) (hlast : ∀ c ∈ line.getLast?, isIndent c = false)
    (hblanks : ∀ c ∈ blanks, isIndent c = true) (s : Text) :
    read (ofLines lines ++ (line ++ blanks ++ Token.endMarker ++ '\n' :: s)) =
      ⟨lines ++ [line], s, true⟩ := by
  have hone : '\n' ∉ line ++ blanks ++ Token.endMarker := by
    intro hmem
    rcases List.mem_append.mp hmem with h | h
    · rcases List.mem_append.mp h with h | h
      · exact (hlines line List.mem_concat_self).one_line h
      · exact Bool.noConfusion (hblanks '\n' h)
    · exact absurd h (by decide)
  have hread : read (line ++ blanks ++ Token.endMarker ++ '\n' :: s) = ⟨[line], s, true⟩ := by
    rw [read_line hone, ofLine_lastLine hline hlast hblanks]
    rfl
  exact read_ofLines (fun l hl => hlines l (List.mem_append_left _ hl)) hread

end Fence

/-! ## Blocks with a body -/

namespace Directive

theorem isName_of_mem_defaultFenced {name : Text} (h : name ∈ defaultFenced) : IsName name := by
  have hall : ∀ name ∈ defaultFenced, IsName name := by decide
  exact hall name h

theorem bearsBody_of_mem_defaultFenced {name : Text} (h : name ∈ defaultFenced) :
    (kind name).bearsBody = true := by
  have hall : ∀ name ∈ defaultFenced, (kind name).bearsBody = true := by decide
  exact hall name h

end Directive

namespace TokenStream

variable {fenced : List Text} {name head blanks body rest : Text} {items : List Parameter}
  {lines : List Text}

/-- The tokens of a fenced directive and its body. -/
def blockTokens (name : Text) (items : List Parameter) (lines : List Text) : List Token :=
  ⟨.directive, name, false⟩ :: (items.flatMap Parameter.tokens ++
    (Token.contentUnlessEmpty (joinLines lines) false ++ [Token.blockEnd]))

theorem unguarded_fence (h : Fence.read body = ⟨lines, rest, true⟩) :
    (unguarded fenced ⟨body, some name⟩).tokens =
      Token.contentUnlessEmpty (joinLines lines) false ++ Token.blockEnd ::
        (unguarded fenced ⟨rest, none⟩).tokens := by
  have hne : body ≠ [] := by
    rintro rfl
    rw [Fence.read, if_pos rfl] at h
    exact absurd (congrArg Fence.Body.closed h) Bool.false_ne_true
  have hstep : (LineReader.markup fenced).step ⟨body, some name⟩ =
      ⟨Token.contentUnlessEmpty (joinLines lines) false ++ [Token.blockEnd], [], ⟨rest, none⟩⟩ := by
    show Fence.scan name body = _
    rw [Fence.scan_of_closed name (congrArg Fence.Body.closed h), h]
  rw [unguarded_step fenced hne, hstep, after, List.append_assoc]
  rfl

/-- All that counts of a body is the lines that are read from it and what is left. -/
theorem unguarded_block (hname : Directive.IsName name) (hfenced : name ∈ fenced)
    (hhead : Header name items head) (hblanks : ∀ c ∈ blanks, isIndent c = true)
    (hmath : name = Fence.math → ∀ c ∈ body.head?, isIndent c = false)
    (hbody : Fence.read body = ⟨lines, rest, true⟩) :
    (unguarded fenced ⟨head ++ blanks ++ '\n' :: body, none⟩).tokens =
      blockTokens name items lines ++ (unguarded fenced ⟨rest, none⟩).tokens := by
  have hne : head ++ blanks ++ '\n' :: body ≠ [] :=
    List.append_ne_nil_of_right_ne_nil _ (List.cons_ne_nil _ _)
  have hstart : (if name = Fence.math then body.dropWhile isIndent else body) = body := by
    split
    · next h =>
      exact dropWhile_append_of_head (fun _ hc => absurd hc List.not_mem_nil) (hmath h)
    · rfl
  have hstep : (LineReader.markup fenced).step ⟨head ++ blanks ++ '\n' :: body, none⟩ =
      ⟨⟨.directive, name, false⟩ :: items.flatMap Parameter.tokens, [], ⟨body, some name⟩⟩ := by
    have hscan := Header.scan_fenced hname hfenced hhead hblanks body
    rw [hstart] at hscan
    exact hscan
  rw [unguarded_step fenced hne, hstep, after]
  dsimp only
  rw [unguarded_fence hbody, blockTokens]
  simp only [List.cons_append, List.append_assoc, List.nil_append]

theorem children_blockTokens (hbody : (Directive.kind name).bearsBody = true)
    (items : List Parameter) (lines : List Text) (ts : List Token) :
    (Document.ofTokens (blockTokens name items lines ++ ts)).children =
      ⟨Directive.kind name, .ofList (items.map Parameter.entry), joinLines lines, true, []⟩ ::
        (Document.ofTokens ts).children := by
  obtain ⟨block, hread, hnode⟩ := DirectiveBlock.read_closed hbody items (joinLines lines) ts
  have htokens : blockTokens name items lines ++ ts =
      ⟨.directive, name, false⟩ :: (items.flatMap Parameter.tokens ++
        (Token.contentUnlessEmpty (joinLines lines) false ++ Token.blockEnd :: ts)) := by
    rw [blockTokens]
    simp only [List.cons_append, List.append_assoc, List.nil_append]
  show (Block.ofTokens _).filterMap Block.node? = _
  rw [htokens, Block.ofTokens_directive rfl, hread, List.filterMap_cons, Block.node?, hnode]
  rfl

/-- Verbatim bodies: the lines between a fenced directive's header and its closing marker are one
content token, and the text of the directive's node.  The marker may as well stand behind the last line. -/
theorem fenced_body_verbatim (limit : Int) (hname : name ∈ Directive.defaultFenced)
    (hhead : Header name items head) (hblanks : ∀ c ∈ blanks, isIndent c = true)
    (hlines : ∀ line ∈ lines, Fence.BodyLine line)
    (hmath : name = Fence.math → ∀ line ∈ lines.head?, ∀ c ∈ line.head?, isIndent c = false)
    (hrest : rest.head? ≠ some '\uFEFF') :
    ∃ whole following,
      ofSource Directive.defaultFenced limit (.text (head ++ blanks ++ '\n' ::
        (ofLines lines ++ (Token.endMarker ++ '\n' :: rest)))) = .ok whole ∧
      ofSource Directive.defaultFenced limit (.text rest) = .ok following ∧
      whole.tokens = blockTokens name items lines ++ following.tokens ∧
      (Document.ofTokens whole.tokens).children =
        ⟨Directive.kind name, .ofList (items.map Parameter.entry), joinLines lines, true, []⟩ ::
          (Document.ofTokens following.tokens).children ∧
      ∀ init last spaces, lines = init ++ [last] → allBlank last = false →
        (∀ c ∈ last.getLast?, isIndent c = false) → spaces ≠ [] → (∀ c ∈ spaces, c = ' ') →
        ∃ inline, ofSource Directive.defaultFenced limit (.text (head ++ blanks ++ '\n' ::
            (ofLines init ++ (last ++ spaces ++ Token.endMarker ++ '\n' :: rest)))) = .ok inline ∧
          inline.tokens = whole.tokens := by
  have hisName := Directive.isName_of_mem_defaultFenced hname
  have hmark : ∀ s, (head ++ blanks ++ '\n' :: s).head? ≠ some '\uFEFF' := by
    intro s
    rw [List.append_assoc]
    exact hhead.head?_ne_mark hisName _
  have hclosed := unguarded_block hisName hname hhead hblanks
    (fun h => head?_ofLines_append rfl (hmath h) fun _ c hc => by cases hc; rfl)
    (Fence.read_closed hlines rest)
  refine ⟨_, _, ofSource_text _ _ (hmark _), ofSource_text _ _ hrest, hclosed, ?_, ?_⟩
  · show (Document.ofTokens (unguarded _ _).tokens).children = _
    rw [hclosed]
    exact children_blockTokens (Directive.bearsBody_of_mem_defaultFenced hname) ..
  · intro init last spaces hinit hlast hend hspaces hspace
    subst hinit
    have hindent : ∀ c ∈ spaces, isIndent c = true := fun c hc => by rw [hspace c hc]; rfl
    have hstart : name = Fence.math →
        ∀ c ∈ (ofLines init ++ (last ++ spaces ++ Token.endMarker ++ '\n' :: rest)).head?,
          isIndent c = false := by
      intro h
      refine head?_ofLines_append rfl (fun line hline => ?_) (fun hnil c hc => ?_)
      · refine hmath h line ?_
        rw [List.head?_append, hline]
        rfl
      · subst hnil
        cases last with
        | nil => exact Bool.noConfusion hlast
        | cons d last =>
            cases hc
            exact hmath h _ rfl c rfl
    have hinline := unguarded_block hisName hname hhead hblanks hstart
      (Fence.read_closed_inline hlines hlast hend hindent rest)
    exact ⟨_, ofSource_text _ _ (hmark _), hinline.trans hclosed.symm⟩

theorem fenced_body_verbatim_math :
    Fence.math ∈ Directive.defaultFenced ∧
      Header Fence.math [⟨"k", ")\"", true⟩] "@math(k=\")\\\"\")" ∧
      (∀ c ∈ " \t".toList, isIndent c = true) ∧
      (∀ line ∈ ["x @end y".toList, "", "  # \r @@z"], Fence.BodyLine line) ∧
      ∃ whole following,
        ofSource Directive.defaultFenced 1 (.text
          "@math(k=\")\\\"\") \t\nx @end y\n\n  # \r @@z\n@end\nafter\n") = .ok whole ∧
        ofSource Directive.defaultFenced 1 (.text "after\n") = .ok following ∧
        whole.tokens =
          [⟨.directive, "@math", false⟩, ⟨.parameterKey, "k", false⟩, ⟨.parameterValue, ")\"", true⟩,
           ⟨.content, "x @end y\n\n  # \r @@z", false⟩, Token.blockEnd] ++ following.tokens ∧
        (∃ inline, ofSource Directive.defaultFenced 1 (.text
          "@math(k=\")\\\"\") \t\nx @end y\n\n  # \r @@z  @end\nafter\n") = .ok inline ∧
            inline.tokens = whole.tokens) := by
  have hname : Fence.math ∈ Directive.defaultFenced := by decide
  have hhead : Header Fence.math [⟨"k", ")\"", true⟩] "@math(k=\")\\\"\")" :=
    .list (by decide) (by decide +kernel)
  have hblanks : ∀ c ∈ " \t".toList, isIndent c = true := List.all_eq_true.mp (by decide)
  have hlines : ∀ line ∈ ["x @end y".toList, "", "  # \r @@z"], Fence.BodyLine line := by decide
  have hrest : "after\n".toList.head? ≠ some '\uFEFF' := by decide
  have hmath : Fence.math = Fence.math → ∀ line ∈ ["x @end y".toList, "", "  # \r @@z"].head?,
      ∀ c ∈ line.head?, isIndent c = false := by
    rintro - line ⟨⟩ c ⟨⟩
    rfl
  obtain ⟨whole, following, hwhole, hfollowing, htokens, -, hinline⟩ :=
    fenced_body_verbatim 1 hname hhead hblanks hlines hmath hrest
  refine ⟨hname, hhead, hblanks, hlines, whole, following, hwhole, hfollowing, htokens, ?_⟩
  refine hinline ["x @end y".toList, ""] "  # \r @@z" (List.replicate 2 ' ') rfl (by decide) ?_
    (by decide) fun c hc => List.eq_of_mem_replicate hc
  rintro c ⟨⟩
  rfl

end TokenStream
end AtMark
