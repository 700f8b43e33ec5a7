import AtMark.Proofs.Document.Block

/-!
# `Proofs.Document.Concatenation`: the document of two token lists

## What is proved

A directive ends whatever stands before it, so damage stays inside one block.  Put a list that is empty or
begins with a directive (`IsBoundary`) behind any other list: the children of the whole are the children of the two
lists, whatever the first one looks like (`Document.children_append`).

Each reader of a block stops where it would have stopped at the end of the first list, and leaves the second one as it
is: the reader of parameters, for which a key at the very end finds no value (`DirectiveBlock.readParameters_boundary`),
the reader of the header line, and the reader of a body (`BlockBody.read_append`).  Only the reason why a body ended is
another one, and no node keeps that (`DirectiveBlock.node_append`).

## What is not

That the notices are those of the two lists.  They are not: a body that ends with its list is not reported, and one that
a directive interrupts is.
-/

namespace AtMark

/-- The list is empty or begins with a directive. -/
def IsBoundary (us : List Token) : Prop :=
  ∀ t ∈ us.head?, t.kind = .directive

namespace IsBoundary

variable {us : List Token}

theorem read_body (h : IsBoundary us) : ∃ ending, BlockBody.read us = (⟨[], ending⟩, us) := by
  cases us with
  | nil => exact ⟨.outOfTokens, rfl⟩
  | cons d us =>
      have hkind : d.kind = .directive := h d rfl
      refine ⟨.interrupted d.lexeme, ?_⟩
      rw [BlockBody.read, hkind]

theorem not_parameterKey (h : IsBoundary us) : ∀ t ∈ us.head?, t.kind ≠ .parameterKey := by
  intro t ht hkey
  rw [h t ht] at hkey
  exact TokenKind.noConfusion hkey

theorem readHeader_eq (h : IsBoundary us) : DirectiveBlock.readHeader us = (none, us) := by
  cases us with
  | nil => rfl
  | cons d us =>
      have hkind : d.kind = .directive := h d rfl
      rw [DirectiveBlock.readHeader, hkind]
      rfl

end IsBoundary

variable {us : List Token}

/-! ## The readers of a block -/

/-- The lines of a body that is not over when the first list ends do not go on behind it. -/
theorem BlockBody.read_append (h : IsBoundary us) (ts : List Token) :
    (read (ts ++ us)).1.lines = (read ts).1.lines ∧ (read (ts ++ us)).2 = (read ts).2 ++ us := by
  induction ts with
  | nil =>
      obtain ⟨ending, hread⟩ := h.read_body
      rw [List.nil_append, hread]
      exact ⟨rfl, rfl⟩
  | cons t ts ih =>
      obtain ⟨hlines, hrest⟩ := ih
      rw [List.cons_append, read, read]
      cases t.kind with
      | directive => exact ⟨rfl, rfl⟩
      | blockEnd => exact ⟨rfl, rfl⟩
      | content => exact ⟨congrArg (t.lexeme :: ·) hlines, hrest⟩
      | parameterKey => exact ⟨hlines, hrest⟩
      | parameterValue => exact ⟨hlines, hrest⟩

namespace DirectiveBlock

theorem readParameters_boundary (h : IsBoundary us) (ts : List Token) :
    readParameters (ts ++ us) = ((readParameters ts).1, (readParameters ts).2 ++ us) := by
  fun_induction readParameters ts with
  | case1 key value rest hkinds ih =>
      rw [List.cons_append, List.cons_append, readParameters, if_pos hkinds, ih]
  | case2 key value rest hkinds =>
      rw [List.cons_append, List.cons_append, readParameters, if_neg hkinds]
  | case3 ts hshort =>
      cases ts with
      | nil => exact readParameters_of_head h.not_parameterKey
      | cons key ts =>
          cases ts with
          | nil =>
              cases us with
              | nil => rfl
              | cons d us =>
                  have hkind : d.kind = .directive := h d rfl
                  show readParameters (key :: d :: us) = ([], key :: d :: us)
                  rw [readParameters, if_neg]
                  rintro ⟨-, hvalue⟩
                  exact TokenKind.noConfusion (hkind.symm.trans hvalue)
          | cons value rest => exact absurd rfl (hshort key value rest)

theorem readHeader_boundary (h : IsBoundary us) (ts : List Token) :
    readHeader (ts ++ us) = ((readHeader ts).1, (readHeader ts).2 ++ us) := by
  cases ts with
  | nil => exact h.readHeader_eq
  | cons t ts =>
      rw [List.cons_append, readHeader, readHeader]
      split
      · rfl
      · rfl

/-- A directive makes the same node, and leaves what it left, with the second list behind. -/
theorem node_append (h : IsBoundary us) (name : Text) (ts : List Token) :
    (read name (ts ++ us)).1.node = (read name ts).1.node ∧
      (read name (ts ++ us)).2 = (read name ts).2 ++ us := by
  have hparameters := readParameters_boundary h ts
  have hheader := readHeader_boundary h (readParameters ts).2
  cases hbody : (Directive.kind name).bearsBody with
  | false =>
      rw [read_unbodied hbody hparameters, read_unbodied hbody rfl, hheader]
      exact ⟨rfl, rfl⟩
  | true =>
      obtain ⟨hlines, hrest⟩ := BlockBody.read_append h (readHeader (readParameters ts).2).2
      rw [read_bodied hbody hparameters, read_bodied hbody rfl, hheader]
      refine ⟨?_, hrest⟩
      simp only [node, text, hlines]

end DirectiveBlock

/-! ## All blocks -/

theorem Block.nodes_append (h : IsBoundary us) (ts : List Token) :
    (ofTokens (ts ++ us)).filterMap node? =
      (ofTokens ts).filterMap node? ++ (ofTokens us).filterMap node? := by
  induction ts using ofTokens_induction with
  | nil =>
      rw [ofTokens]
      rfl
  | directive t ts hkind ih =>
      obtain ⟨hnode, hrest⟩ := DirectiveBlock.node_append h t.lexeme ts
      rw [List.cons_append, ofTokens_directive hkind, ofTokens_directive hkind, hrest]
      simp only [List.filterMap_cons, node?, hnode, ih, List.cons_append]
  | content t ts hkind ih =>
      rw [List.cons_append, ofTokens_content hkind, ofTokens_content hkind]
      simp only [List.filterMap_cons, node?, ih, List.cons_append]
  | stray t ts hdirective hcontent ih =>
      rw [List.cons_append, ofTokens_stray hdirective hcontent, ofTokens_stray hdirective hcontent]
      simp only [List.filterMap_cons, node?, ih]

/-- The children of two token lists one behind the other are those of the first, whatever it looks like, and
then those of the second, if that is empty or begins with a directive. -/
theorem Document.children_append (ts : List Token) {us : List Token}
    (h : ∀ t ∈ us.head?, t.kind = .directive) :
    (ofTokens (ts ++ us)).children = (ofTokens ts).children ++ (ofTokens us).children :=
  Block.nodes_append h ts

/-- A code block that has lost its closing marker and ends in the middle of a pair, before a heading. -/
theorem Document.children_append_unclosed :
    (∀ t ∈ [(⟨.directive, "@heading", false⟩ : Token), ⟨.content, "Next", false⟩].head?,
        t.kind = .directive) ∧
      (ofTokens ([⟨.directive, "@code", false⟩, ⟨.parameterKey, "language", false⟩] ++
          [⟨.directive, "@heading", false⟩, ⟨.content, "Next", false⟩])).children =
        [⟨.codeBlock, .empty, [], true, []⟩, ⟨.heading, .empty, "Next", false, []⟩] := by
  have h : ∀ t ∈ [(⟨.directive, "@heading", false⟩ : Token), ⟨.content, "Next", false⟩].head?,
      t.kind = .directive := by
    rintro t ⟨⟩
    rfl
  have hcode : (ofTokens [⟨.directive, "@code", false⟩, ⟨.parameterKey, "language", false⟩]).children =
      [⟨.codeBlock, .empty, [], true, []⟩] := by
    show (Block.ofTokens _).filterMap Block.node? = _
    rw [Block.ofTokens_directive rfl]
    exact congrArg _ children_nil
  refine ⟨h, ?_⟩
  rw [children_append _ h, hcode]
  exact congrArg _ ((children_text rfl [] "Next" false []).trans (congrArg _ children_nil))

end AtMark
