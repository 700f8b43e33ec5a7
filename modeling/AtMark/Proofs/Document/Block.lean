import AtMark.Document
import AtMark.Proofs.Text.Line
import AtMark.Token.Parameters

/-!
# `Proofs.Document.Block`: the blocks of a token list

One equation for each kind of token that a list can begin with, and what a directive's block takes of the
tokens behind it: all the pairs that stand there, one content token, and for a directive that bears a body
everything up to the closing marker.

The equations are on two levels.  `Block.ofTokens` takes a list apart, and `ofTokens_induction` is the induction that
goes with it: a directive takes all that belongs to it, any other token stands alone.  The children of a document are
the nodes of its blocks, so each of the equations is stated once more for them (`Document.children_content` and so on),
which is the form that statements about documents use.

They are all about lists that begin in a certain way, with anything behind.  So what a block takes is known without
knowing what follows, as long as it is known how that begins.  The blocks of two lists, one behind the other, are
another matter and in `Proofs.Document.Concatenation`.
-/

namespace AtMark

/-- A parameter as the parser keeps it. -/
def Parameter.entry (p : Parameter) : Text × Text :=
  (p.key, p.value)

namespace BlockBody

/-- Contents up to the closing marker are the body. -/
theorem read_contents (texts : List Text) (ts : List Token) :
    read (texts.map (⟨.content, ·, false⟩) ++ Token.blockEnd :: ts) = (⟨texts, .closed⟩, ts) := by
  induction texts with
  | nil => rfl
  | cons text texts ih =>
      rw [List.map_cons, List.cons_append, read, ih]
      rfl

end BlockBody

namespace DirectiveBlock

variable {name : Text} {ts : List Token}

theorem readParameters_of_head (h : ∀ t ∈ ts.head?, t.kind ≠ .parameterKey) :
    readParameters ts = ([], ts) := by
  unfold readParameters
  split
  · next key value rest =>
    exact if_neg fun hkind => h key rfl hkind.1
  · rfl

/-- All pairs that stand behind a directive are its parameters. -/
theorem readParameters_append (pairs : List (Token × Token))
    (hpairs : ∀ p ∈ pairs, p.1.kind = .parameterKey ∧ p.2.kind = .parameterValue)
    (h : ∀ t ∈ ts.head?, t.kind ≠ .parameterKey) :
    readParameters (pairs.flatMap (fun p => [p.1, p.2]) ++ ts) =
      (pairs.map fun p => (p.1.lexeme, p.2.lexeme), ts) := by
  induction pairs with
  | nil => exact readParameters_of_head h
  | cons p pairs ih =>
      have hkinds := hpairs p List.mem_cons_self
      have hmore := ih fun q hq => hpairs q (List.mem_cons_of_mem _ hq)
      rw [List.flatMap_cons, List.append_assoc, List.cons_append, List.cons_append, List.nil_append,
        readParameters, if_pos hkinds, hmore]
      rfl

theorem readParameters_items (items : List Parameter) (h : ∀ t ∈ ts.head?, t.kind ≠ .parameterKey) :
    readParameters (items.flatMap Parameter.tokens ++ ts) = (items.map Parameter.entry, ts) := by
  have hpairs := readParameters_append
    (items.map fun p => (⟨.parameterKey, p.key, false⟩, ⟨.parameterValue, p.value, p.owned⟩))
    (by
      intro p hp
      obtain ⟨q, -, rfl⟩ := List.mem_map.mp hp
      exact ⟨rfl, rfl⟩) h
  rw [List.flatMap_map, List.map_map] at hpairs
  exact hpairs

/-- A directive that bears a body takes all up to the end of the body. -/
theorem read_bodied (hbody : (Directive.kind name).bearsBody = true) {pairs : List (Text × Text)}
    {rest : List Token} (hpairs : readParameters ts = (pairs, rest)) :
    read name ts =
      (⟨name, pairs, (readHeader rest).1, some (BlockBody.read (readHeader rest).2).1⟩,
       (BlockBody.read (readHeader rest).2).2) := by
  unfold read
  rw [hpairs]
  exact if_pos hbody

theorem read_unbodied (hbody : (Directive.kind name).bearsBody = false) {pairs : List (Text × Text)}
    {rest : List Token} (hpairs : readParameters ts = (pairs, rest)) :
    read name ts = (⟨name, pairs, (readHeader rest).1, none⟩, (readHeader rest).2) := by
  unfold read
  rw [hpairs]
  exact if_neg (Bool.not_eq_true _ ▸ hbody)

/-- Contents that a marker closes are the lines of their directive's text, the one on its header line among
them. -/
theorem read_contents (hbody : (Directive.kind name).bearsBody = true) (items : List Parameter)
    (texts : List Text) (ts : List Token) :
    ∃ block, read name (items.flatMap Parameter.tokens ++
        (texts.map (⟨.content, ·, false⟩) ++ Token.blockEnd :: ts)) = (block, ts) ∧
      block.node =
        ⟨Directive.kind name, .ofList (items.map Parameter.entry), Text.joinLines texts, true, []⟩ := by
  cases texts with
  | nil =>
      have hhead : ∀ t ∈ (Token.blockEnd :: ts).head?, t.kind ≠ .parameterKey := by
        rintro t ⟨⟩
        exact TokenKind.noConfusion
      exact ⟨_, read_bodied hbody (readParameters_items items hhead), rfl⟩
  | cons text texts =>
      have hhead : ∀ t ∈ ((⟨.content, text, false⟩ : Token) ::
          (texts.map (⟨.content, ·, false⟩) ++ Token.blockEnd :: ts)).head?, t.kind ≠ .parameterKey := by
        rintro t ⟨⟩
        exact TokenKind.noConfusion
      have hread := read_bodied hbody (readParameters_items items hhead)
      rw [readHeader, if_pos rfl, BlockBody.read_contents] at hread
      exact ⟨_, hread, rfl⟩

theorem read_closed (hbody : (Directive.kind name).bearsBody = true) (items : List Parameter)
    (text : Text) (ts : List Token) :
    ∃ block, read name (items.flatMap Parameter.tokens ++
        (Token.contentUnlessEmpty text false ++ Token.blockEnd :: ts)) = (block, ts) ∧
      block.node = ⟨Directive.kind name, .ofList (items.map Parameter.entry), text, true, []⟩ := by
  cases text with
  | nil => exact read_contents hbody items [] ts
  | cons c text =>
      have hread := read_contents hbody items [c :: text] ts
      rw [Text.joinLines_singleton] at hread
      exact hread

/-- A text that no marker closes is the content of its directive all the same. -/
theorem read_unclosed (hbody : (Directive.kind name).bearsBody = true) (items : List Parameter)
    (text : Text) (owned : Bool) :
    ∃ block, read name (items.flatMap Parameter.tokens ++ Token.contentUnlessEmpty text owned) = (block, []) ∧
      block.node = ⟨Directive.kind name, .ofList (items.map Parameter.entry), text, true, []⟩ := by
  cases text with
  | nil =>
      have hnone : ∀ t ∈ ([] : List Token).head?, t.kind ≠ .parameterKey := nofun
      exact ⟨_, read_bodied hbody (readParameters_items items hnone), rfl⟩
  | cons c text =>
      have hhead : ∀ t ∈ [(⟨.content, c :: text, owned⟩ : Token)].head?, t.kind ≠ .parameterKey := by
        rintro t ⟨⟩
        exact TokenKind.noConfusion
      refine ⟨_, read_bodied hbody (readParameters_items items hhead), ?_⟩
      rw [node, DirectiveBlock.text]
      exact congrArg (Node.mk _ _ · true []) (Text.joinLines_singleton (c :: text))

end DirectiveBlock

namespace Block

variable {t : Token}

theorem ofTokens_directive (h : t.kind = .directive) (ts : List Token) :
    ofTokens (t :: ts) =
      directive (DirectiveBlock.read t.lexeme ts).1 :: ofTokens (DirectiveBlock.read t.lexeme ts).2 := by
  rw [ofTokens, h]

theorem ofTokens_content (h : t.kind = .content) (ts : List Token) :
    ofTokens (t :: ts) = paragraph t :: ofTokens ts := by
  rw [ofTokens, h]

theorem ofTokens_blockEnd (h : t.kind = .blockEnd) (ts : List Token) :
    ofTokens (t :: ts) = stray t :: ofTokens ts := by
  rw [ofTokens, h]

theorem ofTokens_stray (hdirective : t.kind ≠ .directive) (hcontent : t.kind ≠ .content)
    (ts : List Token) : ofTokens (t :: ts) = stray t :: ofTokens ts := by
  rw [ofTokens]
  split
  · next h => exact absurd h hdirective
  · next h => exact absurd h hcontent
  · rfl

/-- Induction along the blocks: a directive takes all that belongs to it, any other token stands alone. -/
theorem ofTokens_induction {motive : List Token → Prop} (nil : motive [])
    (directive : ∀ t ts, t.kind = .directive → motive (DirectiveBlock.read t.lexeme ts).2 →
      motive (t :: ts))
    (content : ∀ t ts, t.kind = .content → motive ts → motive (t :: ts))
    (stray : ∀ t ts, t.kind ≠ .directive → t.kind ≠ .content → motive ts → motive (t :: ts))
    (ts : List Token) : motive ts := by
  fun_induction ofTokens ts with
  | case1 => exact nil
  | case2 t ts hkind ih => exact directive t ts hkind ih
  | case3 t ts hkind ih => exact content t ts hkind ih
  | case4 t ts hdirective hcontent ih => exact stray t ts hdirective hcontent ih

end Block

namespace Document

variable {name : Text} {ts : List Token}

theorem children_nil : (ofTokens []).children = [] := by
  show (Block.ofTokens []).filterMap Block.node? = []
  rw [Block.ofTokens]
  rfl

theorem children_content (text : Text) (owned : Bool) (ts : List Token) :
    (ofTokens (⟨.content, text, owned⟩ :: ts)).children =
      ⟨.content, .empty, text, owned, []⟩ :: (ofTokens ts).children := by
  show (Block.ofTokens _).filterMap Block.node? = _
  rw [Block.ofTokens_content rfl]
  rfl

theorem children_blockEnd (ts : List Token) :
    (ofTokens (Token.blockEnd :: ts)).children = (ofTokens ts).children := by
  show (Block.ofTokens _).filterMap Block.node? = _
  rw [Block.ofTokens_blockEnd rfl]
  rfl

theorem children_unbodied (hbody : (Directive.kind name).bearsBody = false) (items : List Parameter)
    (hts : ∀ t ∈ ts.head?, t.kind ≠ .parameterKey) :
    (ofTokens (⟨.directive, name, false⟩ :: (items.flatMap Parameter.tokens ++ ts))).children =
      (DirectiveBlock.mk name (items.map Parameter.entry) (DirectiveBlock.readHeader ts).1 none).node ::
        (ofTokens (DirectiveBlock.readHeader ts).2).children := by
  have hread := DirectiveBlock.read_unbodied hbody (DirectiveBlock.readParameters_items items hts)
  show (Block.ofTokens _).filterMap Block.node? = _
  rw [Block.ofTokens_directive rfl, hread]
  rfl

theorem children_text (hbody : (Directive.kind name).bearsBody = false) (items : List Parameter)
    (text : Text) (owned : Bool) (ts : List Token) :
    (ofTokens (⟨.directive, name, false⟩ ::
        (items.flatMap Parameter.tokens ++ ⟨.content, text, owned⟩ :: ts))).children =
      ⟨Directive.kind name, .ofList (items.map Parameter.entry), text, owned, []⟩ ::
        (ofTokens ts).children :=
  children_unbodied hbody items (by rintro t ⟨⟩; exact TokenKind.noConfusion)

theorem children_closed (hbody : (Directive.kind name).bearsBody = false) (items : List Parameter)
    (ts : List Token) :
    (ofTokens (⟨.directive, name, false⟩ ::
        (items.flatMap Parameter.tokens ++ Token.blockEnd :: ts))).children =
      ⟨Directive.kind name, .ofList (items.map Parameter.entry), [], false, []⟩ ::
        (ofTokens ts).children := by
  rw [← children_blockEnd ts]
  exact children_unbodied hbody items (by rintro t ⟨⟩; exact TokenKind.noConfusion)

theorem children_contents (hbody : (Directive.kind name).bearsBody = true) (items : List Parameter)
    (texts : List Text) (ts : List Token) :
    (ofTokens (⟨.directive, name, false⟩ :: (items.flatMap Parameter.tokens ++
        (texts.map (⟨.content, ·, false⟩) ++ Token.blockEnd :: ts)))).children =
      ⟨Directive.kind name, .ofList (items.map Parameter.entry), Text.joinLines texts, true, []⟩ ::
        (ofTokens ts).children := by
  obtain ⟨block, hread, hnode⟩ := DirectiveBlock.read_contents hbody items texts ts
  show (Block.ofTokens _).filterMap Block.node? = _
  rw [Block.ofTokens_directive rfl, hread, ← hnode]
  rfl

theorem children_alone (hbody : (Directive.kind name).bearsBody = false) (items : List Parameter) :
    (ofTokens (⟨.directive, name, false⟩ :: (items.flatMap Parameter.tokens ++ []))).children =
      [⟨Directive.kind name, .ofList (items.map Parameter.entry), [], false, []⟩] := by
  rw [children_unbodied hbody items fun t ht => absurd ht (by simp)]
  exact congrArg _ children_nil

end Document

end AtMark
