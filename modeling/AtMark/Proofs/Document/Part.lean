import AtMark.Proofs.Document.Concatenation
import AtMark.Proofs.Render.Builtin

/-!
# `Proofs.Document.Part`: what the children of a document are made of

## What is proved

Of a token list, the parser keeps the directives and the texts (`Token.kept`).  These fall into parts, one
behind the other and one for each child: a text on its own, or a directive with the texts that belong to it
(`Block.exists_parts`).  So no text is lost, taken twice or moved, whatever stray keys, values and markers
stand between the tokens.  Every child is of a kind that the library handles, so it leaves in the page what its
handler makes of it, or nothing (`Document.children_parts`).

A text is taken at three places: on its own, on the header line, and in a body.  Each reader has one lemma
here, which says what it takes of the kept tokens and what it leaves.

## What is not

Which parameters a directive takes.  The keys and values in front of its texts become its attributes, and any others
are passed over; neither is a text or a directive.
-/

namespace AtMark

/-! ## Kinds of nodes -/

/-- No directive makes the root of a document. -/
theorem Directive.kind_ne_document (name : Text) : kind name ≠ .document := by
  unfold kind
  cases h : table.lookup (canonical name) with
  | none => exact NodeKind.noConfusion
  | some k =>
      have htable : ∀ entry ∈ table, entry.2 ≠ .document := by decide
      obtain ⟨before, after, heq, -⟩ := List.lookup_eq_some_iff.mp h
      exact htable (canonical name, k) (heq ▸ List.mem_append_right _ List.mem_cons_self)

/-! ## Parts -/

/-- The tokens that a document keeps: directives and texts. -/
def Token.kept (ts : List Token) : List Token :=
  ts.filter fun t => t.kind = .directive ∨ t.kind = .content

namespace Token

variable {t : Token}

theorem kept_cons_of_directive (h : t.kind = .directive) (ts : List Token) :
    kept (t :: ts) = t :: kept ts :=
  List.filter_cons_of_pos (by simp [h])

theorem kept_cons_of_content (h : t.kind = .content) (ts : List Token) :
    kept (t :: ts) = t :: kept ts :=
  List.filter_cons_of_pos (by simp [h])

theorem kept_cons_of_stray (hdirective : t.kind ≠ .directive) (hcontent : t.kind ≠ .content)
    (ts : List Token) : kept (t :: ts) = kept ts :=
  List.filter_cons_of_neg (by simp [hdirective, hcontent])

theorem filter_kept {kind : TokenKind} (h : kind = .directive ∨ kind = .content) (ts : List Token) :
    (kept ts).filter (fun t => t.kind = kind) = ts.filter (fun t => t.kind = kind) := by
  rw [kept, List.filter_filter]
  refine List.filter_congr fun t _ => ?_
  simp only [← Bool.decide_and, decide_eq_decide, and_iff_left_iff_imp]
  rintro rfl
  exact h

end Token

/-- What one child of a document is made of. -/
inductive Part where
  | paragraph (text : Token)
  | directive (head : Token) (texts : List Token)

namespace Part

/-- The texts of a part. -/
def texts : Part → List Token
  | paragraph text => [text]
  | directive _ texts => texts

/-- The directive of a part, if it has one. -/
def head? : Part → Option Token
  | paragraph _ => none
  | directive head _ => some head

/-- The tokens of a part, in their order. -/
def tokens (p : Part) : List Token :=
  p.head?.toList ++ p.texts

/-- The kind of node that a part makes: the one that the table gives for its directive. -/
def kind : Part → NodeKind
  | paragraph _ => .content
  | directive head _ => Directive.kind head.lexeme

/-- The head is a directive and the texts are texts. -/
structure WellFormed (p : Part) : Prop where
  head : ∀ t ∈ p.head?, t.kind = .directive
  texts : ∀ t ∈ p.texts, t.kind = .content

/-- The node is what the part makes.  Only a directive that bears a body has more than one text. -/
structure Makes (p : Part) (n : Node) : Prop where
  kind : n.kind = p.kind
  content : n.content = Text.joinLines (p.texts.map (·.lexeme))
  single : 1 < p.texts.length → n.kind.bearsBody = true
  children : n.children = []

theorem WellFormed.texts_eq {p : Part} (h : p.WellFormed) :
    p.tokens.filter (fun t => t.kind = .content) = p.texts := by
  have hhead : p.head?.toList.filter (fun t => t.kind = .content) = [] := by
    refine List.filter_eq_nil_iff.mpr fun t ht => ?_
    rw [h.head t (Option.mem_toList.mp ht)]
    decide
  rw [tokens, List.filter_append, hhead, List.nil_append, List.filter_eq_self]
  exact fun t ht => decide_eq_true (h.texts t ht)

theorem WellFormed.head_eq {p : Part} (h : p.WellFormed) :
    p.tokens.filter (fun t => t.kind = .directive) = p.head?.toList := by
  have htexts : p.texts.filter (fun t => t.kind = .directive) = [] := by
    refine List.filter_eq_nil_iff.mpr fun t ht => ?_
    rw [h.texts t ht]
    decide
  rw [tokens, List.filter_append, htexts, List.append_nil, List.filter_eq_self]
  exact fun t ht => decide_eq_true (h.head t (Option.mem_toList.mp ht))

theorem Makes.kind_ne_document {p : Part} {n : Node} (h : p.Makes n) : n.kind ≠ .document := by
  rw [h.kind]
  cases p with
  | paragraph text => exact NodeKind.noConfusion
  | directive head texts => exact Directive.kind_ne_document head.lexeme

theorem forall_of_makes {parts : List Part} {ns : List Node} (h : List.Forall₂ Makes parts ns) :
    ∀ n ∈ ns, n.children = [] ∧ n.kind ≠ .document := by
  induction h with
  | nil => exact List.forall_mem_nil _
  | cons hmakes _ ih =>
      exact List.forall_mem_cons.mpr ⟨⟨hmakes.children, hmakes.kind_ne_document⟩, ih⟩

end Part

/-! ## The readers of a block -/

/-- A body takes the texts up to its end, as they come. -/
theorem BlockBody.exists_texts (ts : List Token) :
    ∃ texts : List Token, (∀ t ∈ texts, t.kind = .content) ∧
      (read ts).1.lines = texts.map (·.lexeme) ∧
      Token.kept ts = texts ++ Token.kept (read ts).2 := by
  fun_induction read ts with
  | case1 => exact ⟨[], List.forall_mem_nil _, rfl, rfl⟩
  | case2 t ts hkind =>
      refine ⟨[], List.forall_mem_nil _, rfl, ?_⟩
      exact Token.kept_cons_of_stray (by simp [hkind]) (by simp [hkind]) ts
  | case3 t ts hkind => exact ⟨[], List.forall_mem_nil _, rfl, rfl⟩
  | case4 t ts hkind ih =>
      obtain ⟨texts, htexts, hlines, hkept⟩ := ih
      refine ⟨t :: texts, List.forall_mem_cons.mpr ⟨hkind, htexts⟩, ?_, ?_⟩
      · exact congrArg (t.lexeme :: ·) hlines
      · rw [Token.kept_cons_of_content hkind, hkept, List.cons_append]
  | case5 t ts hend hdirective hcontent ih =>
      obtain ⟨texts, htexts, hlines, hkept⟩ := ih
      refine ⟨texts, htexts, hlines, ?_⟩
      rw [Token.kept_cons_of_stray hdirective hcontent, hkept]

namespace DirectiveBlock

/-- Parameters take no texts and no directives. -/
theorem kept_readParameters (ts : List Token) :
    Token.kept (readParameters ts).2 = Token.kept ts := by
  fun_induction readParameters ts with
  | case1 key value rest hkinds ih =>
      rw [ih, Token.kept_cons_of_stray (by simp [hkinds.1]) (by simp [hkinds.1]),
        Token.kept_cons_of_stray (by simp [hkinds.2]) (by simp [hkinds.2])]
  | case2 => rfl
  | case3 => rfl

/-- The header line takes one text or none. -/
theorem kept_readHeader (ts : List Token) :
    (∀ t ∈ (readHeader ts).1, t.kind = .content) ∧
      Token.kept ts = (readHeader ts).1.toList ++ Token.kept (readHeader ts).2 := by
  fun_cases readHeader ts with
  | case1 t rest hkind => exact ⟨by rintro _ ⟨⟩; exact hkind, Token.kept_cons_of_content hkind rest⟩
  | case2 t rest hkind => exact ⟨nofun, rfl⟩
  | case3 => exact ⟨nofun, rfl⟩

end DirectiveBlock

/-- What a directive takes of the kept tokens is its texts, and its node holds their lines. -/
theorem DirectiveBlock.exists_texts (name : Text) (ts : List Token) :
    ∃ texts : List Token, (∀ t ∈ texts, t.kind = .content) ∧
      (read name ts).1.node.kind = Directive.kind name ∧
      (read name ts).1.node.content = Text.joinLines (texts.map (·.lexeme)) ∧
      (1 < texts.length → (Directive.kind name).bearsBody = true) ∧
      Token.kept ts = texts ++ Token.kept (read name ts).2 := by
  obtain ⟨hheader, hkept⟩ := kept_readHeader (readParameters ts).2
  rw [kept_readParameters] at hkept
  cases hbody : (Directive.kind name).bearsBody with
  | false =>
      refine ⟨(readHeader (readParameters ts).2).1.toList, ?_, ?_⟩
      · exact fun t ht => hheader t (Option.mem_toList.mp ht)
      · rw [read_unbodied hbody rfl, hkept]
        refine ⟨rfl, ?_, ?_, rfl⟩
        · show (headerText _).1 = _
          unfold headerText
          cases (readHeader (readParameters ts).2).1 with
          | none => rfl
          | some t => exact (Text.joinLines_singleton t.lexeme).symm
        · intro hmore
          cases h : (readHeader (readParameters ts).2).1 with
          | none => simp [h] at hmore
          | some t => simp [h] at hmore
  | true =>
      obtain ⟨texts, htexts, hlines, hrest⟩ :=
        BlockBody.exists_texts (readHeader (readParameters ts).2).2
      refine ⟨(readHeader (readParameters ts).2).1.toList ++ texts, ?_, ?_⟩
      · intro t ht
        rcases List.mem_append.mp ht with ht | ht
        · exact hheader t (Option.mem_toList.mp ht)
        · exact htexts t ht
      · rw [read_bodied hbody rfl, hkept, hrest, List.append_assoc, List.map_append, ← hlines]
        exact ⟨rfl, rfl, fun _ => rfl, rfl⟩

/-! ## All blocks -/

/-- The kept tokens fall into parts, one behind the other, and each of them makes one node. -/
theorem Block.exists_parts (ts : List Token) :
    ∃ parts : List Part, List.Forall₂ Part.Makes parts ((ofTokens ts).filterMap node?) ∧
      (∀ p ∈ parts, p.WellFormed) ∧ parts.flatMap Part.tokens = Token.kept ts := by
  induction ts using ofTokens_induction with
  | nil =>
      rw [ofTokens]
      exact ⟨[], .nil, List.forall_mem_nil _, rfl⟩
  | directive t ts hkind ih =>
      obtain ⟨parts, hmakes, hwell, htokens⟩ := ih
      obtain ⟨texts, htexts, hnodeKind, hcontent, hsingle, hkept⟩ :=
        DirectiveBlock.exists_texts t.lexeme ts
      rw [ofTokens_directive hkind]
      refine ⟨.directive t texts :: parts, .cons ⟨hnodeKind, hcontent, ?_, rfl⟩ hmakes, ?_, ?_⟩
      · rw [hnodeKind]
        exact hsingle
      · exact List.forall_mem_cons.mpr ⟨⟨by rintro _ ⟨⟩; exact hkind, htexts⟩, hwell⟩
      · rw [List.flatMap_cons, htokens, Token.kept_cons_of_directive hkind, hkept]
        rfl
  | content t ts hkind ih =>
      obtain ⟨parts, hmakes, hwell, htokens⟩ := ih
      rw [ofTokens_content hkind]
      refine ⟨.paragraph t :: parts, .cons ⟨rfl, ?_, ?_, rfl⟩ hmakes, ?_, ?_⟩
      · exact (Text.joinLines_singleton t.lexeme).symm
      · exact fun hmore => absurd hmore (Nat.lt_irrefl 1)
      · have htext : ∀ text ∈ [t], text.kind = .content := List.forall_mem_singleton.mpr hkind
        exact List.forall_mem_cons.mpr ⟨⟨fun _ ht => absurd ht (Option.not_mem_none _), htext⟩, hwell⟩
      · rw [List.flatMap_cons, htokens, Token.kept_cons_of_content hkind]
        rfl
  | stray t ts hdirective hcontent ih =>
      obtain ⟨parts, hmakes, hwell, htokens⟩ := ih
      rw [ofTokens_stray hdirective hcontent]
      refine ⟨parts, hmakes, hwell, ?_⟩
      rw [htokens, Token.kept_cons_of_stray hdirective hcontent]

/-! ## The document and its page -/

/-- A document keeps all texts of its tokens, each once and in order.  They fall into groups, one for each
child, whose lines are the child's text; the directives make their children one by one, each of the kind that
the table gives.  Every child is of a kind that the library handles and leaves in the page nothing or what the
handler makes of it, so the page is the same whatever stands in it for a kind that nothing renders. -/
theorem Document.children_parts (ts : List Token) :
    (ofTokens ts).kind = .document ∧
      (∀ n ∈ (ofTokens ts).children, n.children = [] ∧ n.kind ≠ .document) ∧
      (∃ parts : List Part, List.Forall₂ Part.Makes parts (ofTokens ts).children ∧
        parts.flatMap Part.texts = ts.filter (fun t => t.kind = .content) ∧
        parts.filterMap Part.head? = ts.filter (fun t => t.kind = .directive)) ∧
      (∀ n ∈ (ofTokens ts).children, Render.builtin.Handles n.kind ∧
        ∀ ctx, (Render.builtin.render ctx n).html = .ok [] ∨
          ∃ spec handler, Render.builtin n.kind = some spec ∧ spec.handler = some handler ∧
            Render.builtin.render ctx n = handler ctx n) ∧
      ∀ host options spec,
        ({ host, options, registry := Render.builtin.register .document spec } : Renderer).page
            (ofTokens ts) = ({ host, options } : Renderer).page (ofTokens ts) := by
  obtain ⟨parts, hmakes, hwell, htokens⟩ := Block.exists_parts ts
  have hchildren : ∀ n ∈ (ofTokens ts).children, n.children = [] ∧ n.kind ≠ .document :=
    Part.forall_of_makes hmakes
  refine ⟨rfl, hchildren, ⟨parts, hmakes, ?_, ?_⟩, ?_, ?_⟩
  · rw [← Token.filter_kept (.inr rfl), ← htokens, List.filter_flatMap]
    exact List.flatMap_congr fun p hp => (hwell p hp).texts_eq.symm
  · rw [← Token.filter_kept (.inl rfl), ← htokens, List.filter_flatMap, List.filterMap_eq_flatMap_toList]
    exact List.flatMap_congr fun p hp => (hwell p hp).head_eq.symm
  · intro n hn
    have hhandles : Render.builtin.Handles n.kind := (Render.builtin_handles_iff n.kind).mpr (hchildren n hn).2
    exact ⟨hhandles, fun ctx => Registry.render_of_handles hhandles ctx⟩
  · intro host options spec
    have hsame : ∀ n ∈ (ofTokens ts).children,
        Render.builtin.register .document spec n.kind = Render.builtin n.kind :=
      fun n hn => if_neg (hchildren n hn).2
    rw [Renderer.page_builtin]
    exact Renderer.page_of_builtin hsame

end AtMark
