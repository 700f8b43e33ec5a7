import AtMark.Proofs.Inline.Emphasis

/-!
# `Proofs.Inline.Nesting`: the tags of the emphasis pass

## What is proved

`Nested source html words` says that a text became HTML by writing some of its markers as tags, so that the tags are
balanced and properly nested and no element has only blanks in it; `words` is what the HTML says without its tags.  The
pass does just that to a text without backslashes (`exists_nested`), whichever way it divides a run of asterisks into
markers.

A text without tags of its own can be got back: with the marker of each tag written for the tag, in whatever order
the tags are replaced, the output is the text again (`Nested.replaceTags_eq`, `render_nested`).

## How

Replacing goes tag by tag, and each of the four begins like another one.  But none is the beginning of another
(`Tag.isPassed_html`), so a tag is replaced wherever it stands as long as every other one is a tag still or a marker
(`replaceAll_written`).

## What is not

Texts with backslashes, where the output has lost the backslash of each escaped asterisk and the text does not come
back.
-/

namespace AtMark.Emphasis

open Search Text

/-- The two kinds of element. -/
inductive Element where
  | strong
  | emphasis
deriving DecidableEq, Repr

/-- The tags of the pass. -/
inductive Tag where
  | opening (element : Element)
  | closing (element : Element)
deriving DecidableEq, Repr

/-- A tag as it is written. -/
def Tag.html : Tag → Text
  | .opening .strong => "<strong>"
  | .closing .strong => "</strong>"
  | .opening .emphasis => "<em>"
  | .closing .emphasis => "</em>"

/-- The marker on either side of an element. -/
def Element.marker : Element → Text
  | .strong => "**"
  | .emphasis => "*"

/-- The marker that a tag is written for. -/
def Tag.marker : Tag → Text
  | .opening element => element.marker
  | .closing element => element.marker

/-- All tags of the pass. -/
def Tag.all : List Tag :=
  [.opening .strong, .closing .strong, .opening .emphasis, .closing .emphasis]

/-- The text became the HTML by writing markers as balanced tags around more than blanks. -/
inductive Nested : Text → Text → Text → Prop
  | nil : Nested [] [] []
  | char {c : Char} {source html words : Text} : c ≠ '<' → Nested source html words →
      Nested (c :: source) (c :: html) (c :: words)
  | element (e : Element) {inner innerHtml innerWords rest restHtml restWords : Text} :
      Nested inner innerHtml innerWords → allBlank innerWords = false → Nested rest restHtml restWords →
        Nested (e.marker ++ inner ++ e.marker ++ rest)
          ((Tag.opening e).html ++ innerHtml ++ (Tag.closing e).html ++ restHtml) (innerWords ++ restWords)

variable {s source html words inner rest : Text}

/-! ## The output is nested -/

theorem Nested.refl (htag : '<' ∉ s) : Nested s s s := by
  induction s with
  | nil => exact .nil
  | cons c s ih =>
      rw [List.mem_cons, not_or] at htag
      exact .char (Ne.symm htag.1) (ih htag.2)

/-- Since an element has more than blanks in it, the words are blank only if the source is. -/
theorem Nested.allBlank_eq (h : Nested source html words) : allBlank words = allBlank source := by
  induction h with
  | nil => rfl
  | @char c _ _ _ _ _ ih => exact congrArg (isBlank c && ·) ih
  | @element e inner _ innerWords rest _ restWords _ hwords _ _ _ =>
      have hstar : '*' ∈ e.marker := by
        cases e with
        | strong => decide
        | emphasis => decide
      have hsource : '*' ∈ e.marker ++ inner ++ e.marker ++ rest := by simp [hstar]
      rw [allBlank_eq_false_of_mem hsource (by decide), allBlank, List.all_append]
      exact Bool.and_eq_false_imp.mpr fun h => absurd h (Bool.eq_false_iff.mp hwords)

theorem allBlank_of_enclosed? {marker : Text} (h : enclosed? marker s = some (inner, rest)) :
    allBlank inner = false := by
  simpa using (Option.filter_eq_some_iff.mp h).2

theorem exists_nested (htag : '<' ∉ s) (hslash : '\\' ∉ s) : ∃ words, Nested s (render s) words := by
  induction s using render_induction with
  | nil =>
      rw [render]
      exact ⟨[], .nil⟩
  | escaped s ih => exact absurd List.mem_cons_self hslash
  | strong s inner rest hfound ihinner ihrest =>
      rw [List.mem_cons, List.mem_cons, not_or, not_or] at htag hslash
      obtain ⟨htag, htag'⟩ := not_mem_of_enclosed? hfound htag.2.2
      obtain ⟨hslash, hslash'⟩ := not_mem_of_enclosed? hfound hslash.2.2
      obtain ⟨words, hinner⟩ := ihinner htag hslash
      obtain ⟨words', hrest⟩ := ihrest htag' hslash'
      have hwords := hinner.allBlank_eq.trans (allBlank_of_enclosed? hfound)
      rw [render_double, hfound, eq_of_enclosed? hfound]
      exact ⟨words ++ words', .element .strong hinner hwords hrest⟩
  | double s hnone ih =>
      rw [List.mem_cons, List.mem_cons, not_or, not_or] at htag hslash
      obtain ⟨words, h⟩ := ih htag.2.2 hslash.2.2
      rw [render_double, hnone]
      exact ⟨_, .char (by decide) (.char (by decide) h)⟩
  | emphasis s inner rest hs hfound ih =>
      rw [List.mem_cons, not_or] at htag hslash
      obtain ⟨htag, htag'⟩ := not_mem_of_enclosed? hfound htag.2
      obtain ⟨words, hrest⟩ := ih htag' (not_mem_of_enclosed? hfound hslash.2).2
      rw [render_single hs, hfound, eq_of_enclosed? hfound]
      exact ⟨inner ++ words, .element .emphasis (.refl htag) (allBlank_of_enclosed? hfound) hrest⟩
  | single s hs hnone ih =>
      rw [List.mem_cons, not_or] at htag hslash
      obtain ⟨words, h⟩ := ih htag.2 hslash.2
      rw [render_single hs, hnone]
      exact ⟨_, .char (by decide) h⟩
  | other c s hc hescape ih =>
      rw [List.mem_cons, not_or] at htag hslash
      obtain ⟨words, h⟩ := ih htag.2 hslash.2
      rw [render_cons hc hescape]
      exact ⟨_, .char (Ne.symm htag.1) h⟩

/-! ## Back to markers -/

/-- Characters and tags in a row, with the tags written in some way. -/
def written (write : Tag → Text) (signs : List (Char ⊕ Tag)) : Text :=
  signs.flatMap (Sum.elim (fun c => [c]) write)

/-- Writes markers for tags, one tag after the other. -/
def replaceTags (order : List Tag) (s : Text) : Text :=
  order.foldl (fun s tag => replaceAll tag.html tag.marker s) s

theorem Nested.exists_signs (h : Nested source html words) : ∃ signs : List (Char ⊕ Tag),
    (∀ c, .inl c ∈ signs → c ≠ '<') ∧ written Tag.html signs = html ∧ written Tag.marker signs = source := by
  induction h with
  | nil => exact ⟨[], nofun, rfl, rfl⟩
  | @char c _ _ _ hc _ ih =>
      obtain ⟨signs, hplain, hhtml, hsource⟩ := ih
      refine ⟨.inl c :: signs, fun d hd => ?_, congrArg (c :: ·) hhtml, congrArg (c :: ·) hsource⟩
      rcases List.mem_cons.mp hd with hd | hd
      · cases hd
        exact hc
      · exact hplain d hd
  | element e _ _ _ ihinner ihrest =>
      obtain ⟨inner, hinner, rfl, rfl⟩ := ihinner
      obtain ⟨rest, hrest, rfl, rfl⟩ := ihrest
      refine ⟨.inr (.opening e) :: (inner ++ .inr (.closing e) :: rest), fun c hc => ?_, ?_, ?_⟩
      · simp only [List.mem_cons, List.mem_append, reduceCtorEq, false_or] at hc
        exact hc.elim (hinner c) (hrest c)
      · simp [written]
      · simp [written, Tag.marker]

theorem Tag.mem_all (tag : Tag) : tag ∈ all := by
  cases tag with
  | opening e =>
      cases e with
      | strong => decide
      | emphasis => decide
  | closing e =>
      cases e with
      | strong => decide
      | emphasis => decide

theorem Tag.exists_html_eq (tag : Tag) : ∃ name, tag.html = '<' :: name ∧ '<' ∉ name := by
  have hall : ∀ tag ∈ all, tag.html = '<' :: tag.html.tail ∧ '<' ∉ tag.html.tail := by decide
  exact ⟨tag.html.tail, hall tag tag.mem_all⟩

/-- Another tag begins like this one, but neither is the beginning of the other. -/
theorem Tag.isPassed_html {tag other : Tag} (hne : other ≠ tag) : IsPassed tag.html other.html := by
  have hall : ∀ tag ∈ all, ∀ other ∈ all, other ≠ tag → ¬tag.html <+: other.html ∧ ¬other.html <+: tag.html := by
    decide
  obtain ⟨hleft, hright⟩ := hall tag tag.mem_all other other.mem_all hne
  obtain ⟨name, hname, -⟩ := tag.exists_html_eq
  obtain ⟨name', hname', hfree⟩ := other.exists_html_eq
  rw [hname, hname'] at hleft hright ⊢
  exact .of_incomparable hfree hleft hright

variable {signs : List (Char ⊕ Tag)} {write : Tag → Text} {tag : Tag}

/-- A tag is replaced wherever it stands, as long as every other one is a tag still or a text without tags. -/
theorem replaceAll_written (hplain : ∀ c, .inl c ∈ signs → c ≠ '<') (htag : write tag = tag.html)
    (hwrite : ∀ other, write other = other.html ∨ '<' ∉ write other) (new : Text) :
    replaceAll tag.html new (written write signs) = written (Function.update write tag new) signs := by
  obtain ⟨name, hname, -⟩ := tag.exists_html_eq
  have hne : tag.html ≠ [] := hname ▸ List.cons_ne_nil '<' name
  have hpassed : ∀ {s : Text}, '<' ∉ s → IsPassed tag.html s := fun hs => hname ▸ .of_not_mem hs
  refine replaceAll_flatMap hne fun sign hsign => ?_
  cases sign with
  | inl c => exact .inr ⟨hpassed fun h => hplain c hsign (List.mem_singleton.mp h).symm, rfl⟩
  | inr other =>
      show write other = tag.html ∧ Function.update write tag new other = new ∨
        IsPassed tag.html (write other) ∧ Function.update write tag new other = write other
      by_cases hother : other = tag
      · subst hother
        exact .inl ⟨htag, Function.update_self ..⟩
      · refine .inr ⟨?_, Function.update_of_ne hother ..⟩
        rcases hwrite other with hhtml | hfree
        · rw [hhtml]
          exact Tag.isPassed_html hother
        · exact hpassed hfree

theorem replaceTags_written {order : List Tag} (hplain : ∀ c, .inl c ∈ signs → c ≠ '<') (hnodup : order.Nodup)
    (horder : ∀ tag ∈ order, write tag = tag.html)
    (hwrite : ∀ other, write other = other.html ∨ '<' ∉ write other) :
    replaceTags order (written write signs) =
      written (fun tag => if tag ∈ order then tag.marker else write tag) signs := by
  induction order generalizing write with
  | nil => simp [replaceTags]
  | cons tag order ih =>
      obtain ⟨hmem, hnodup⟩ := List.nodup_cons.mp hnodup
      obtain ⟨htag, horder⟩ := List.forall_mem_cons.mp horder
      have hmarker : '<' ∉ tag.marker := by
        have hall : ∀ tag ∈ Tag.all, '<' ∉ tag.marker := by decide
        exact hall tag tag.mem_all
      have horder' : ∀ other ∈ order, Function.update write tag tag.marker other = other.html := by
        intro other hother
        have hne : other ≠ tag := fun h => hmem (h ▸ hother)
        rw [Function.update_of_ne hne, horder other hother]
      have hwrite' : ∀ other, Function.update write tag tag.marker other = other.html ∨
          '<' ∉ Function.update write tag tag.marker other := by
        intro other
        by_cases hother : other = tag
        · rw [hother, Function.update_self]
          exact .inr hmarker
        · rw [Function.update_of_ne hother]
          exact hwrite other
      show replaceTags order (replaceAll tag.html tag.marker (written write signs)) = _
      rw [replaceAll_written hplain htag hwrite, ih hnodup horder' hwrite']
      congr 1
      funext other
      by_cases hother : other = tag
      · subst hother
        simp [hmem]
      · simp [hother]

theorem Nested.replaceTags_eq (h : Nested source html words) {order : List Tag} (horder : order.Perm Tag.all) :
    replaceTags order html = source := by
  obtain ⟨signs, hplain, rfl, rfl⟩ := h.exists_signs
  have hnodup : order.Nodup := horder.nodup_iff.mpr (by decide)
  rw [replaceTags_written hplain hnodup (fun _ _ => rfl) fun _ => .inl rfl]
  congr 1
  funext tag
  exact if_pos (horder.mem_iff.mpr tag.mem_all)

/-- The output of the pass has balanced and properly nested tags around more than blanks, and markers written for its
tags, in any order, give the text back. -/
theorem render_nested (htag : '<' ∉ s) (hslash : '\\' ∉ s) :
    (∃ words, Nested s (render s) words) ∧ ∀ order, order.Perm Tag.all → replaceTags order (render s) = s := by
  obtain ⟨words, hnested⟩ := exists_nested htag hslash
  exact ⟨⟨words, hnested⟩, fun order horder => hnested.replaceTags_eq horder⟩

/-- Runs of three and more asterisks, emphasis in strong text and markers without a partner. -/
theorem render_nested_runs :
    '<' ∉ "***a* b** **c *d* e** ** *".toList ∧ '\\' ∉ "***a* b** **c *d* e** ** *".toList ∧
      render "***a* b** **c *d* e** ** *" =
        "<strong><em>a</em> b</strong> <strong>c <em>d</em> e</strong> ** *" ∧
      replaceTags Tag.all "<strong><em>a</em> b</strong> <strong>c <em>d</em> e</strong> ** *" =
        "***a* b** **c *d* e** ** *" := by
  have htag : '<' ∉ "***a* b** **c *d* e** ** *".toList := by decide
  have hslash : '\\' ∉ "***a* b** **c *d* e** ** *".toList := by decide
  have hrender : render "***a* b** **c *d* e** ** *" =
      "<strong><em>a</em> b</strong> <strong>c <em>d</em> e</strong> ** *" := by decide +kernel
  obtain ⟨-, hback⟩ := render_nested htag hslash
  have hall := hback Tag.all (.refl _)
  rw [hrender] at hall
  exact ⟨htag, hslash, hrender, hall⟩

end AtMark.Emphasis
