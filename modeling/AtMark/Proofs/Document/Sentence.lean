import AtMark.Document
import AtMark.Proofs.Document.Block
import AtMark.Proofs.Token.Grammar

/-!
# `Proofs.Document.Sentence`: the blocks of a sentence

## What is proved

The tokens of every source, with any fenced directives, fall into phrases, and the parser reads them by their phrases
(`TokenStream.ofSource_grammar`): every directive of the sentence begins a block, which has the pairs of its phrase for
attributes, and a token that belongs to nothing is a closing marker.

## How

That the stream is a sentence is shown in `Proofs.Token.Grammar`.  Here is what the grammar is worth to the parser.
The readers of a block take tokens off the front and know nothing of phrases; each of them, put before a sentence, is
seen to stop between two phrases and never behind a directive (`IsRemainder`).  From there it goes block by block
(`ofTokens_allTokens`).

## What is not

Lists of tokens that no source has.  There a key can stand without a value and a value without a key, the parser passes
over both, and what its document keeps of such a list is said in `Proofs.Document.Part`.
-/

namespace AtMark

open Phrase

/-- The name of a directive with the attributes of its node. -/
def Block.attributes? : Block → Option (Text × Table)
  | directive b => some (b.name, b.node.attributes)
  | paragraph _ => none
  | stray _ => none

/-- The name of a directive with the attributes that its pairs make. -/
def Phrase.attributes? : Phrase → Option (Text × Table)
  | directive head pairs =>
      some (head.lexeme, .ofList (pairs.map fun p => (p.1.lexeme, p.2.lexeme)))
  | content _ => none
  | blockEnd _ => none

/-- The tokens are those of the last of some phrases, and no directive stands before them. -/
def IsRemainder (phrases : List Phrase) (ts : List Token) : Prop :=
  ∃ rest, rest <:+ phrases ∧
    rest.filterMap Phrase.attributes? = phrases.filterMap Phrase.attributes? ∧ ts = allTokens rest

namespace IsRemainder

variable {phrases : List Phrase} {ts : List Token} {p : Phrase}

theorem refl (phrases : List Phrase) : IsRemainder phrases (allTokens phrases) :=
  ⟨phrases, List.suffix_refl _, rfl, rfl⟩

theorem cons (hp : p.attributes? = none) (h : IsRemainder phrases ts) :
    IsRemainder (p :: phrases) ts := by
  obtain ⟨rest, hsuffix, hattributes, hts⟩ := h
  refine ⟨rest, hsuffix.trans (List.suffix_cons _ _), ?_, hts⟩
  rw [List.filterMap_cons_none hp]
  exact hattributes

end IsRemainder

/-! ## The readers of a block -/

theorem BlockBody.isRemainder_read {phrases : List Phrase} (h : ∀ p ∈ phrases, p.WellFormed) :
    IsRemainder phrases (read (allTokens phrases)).2 := by
  induction phrases with
  | nil => exact .refl []
  | cons p phrases ih =>
      have hp := h p List.mem_cons_self
      have hmore := ih fun q hq => h q (List.mem_cons_of_mem _ hq)
      cases p with
      | directive head pairs =>
          have hread : (read (allTokens (directive head pairs :: phrases))).2 =
              allTokens (directive head pairs :: phrases) := by
            show (read (head :: _)).2 = head :: _
            rw [read, hp.1]
          rw [hread]
          exact .refl _
      | content token =>
          have hread : (read (allTokens (content token :: phrases))).2 =
              (read (allTokens phrases)).2 := by
            show (read (token :: _)).2 = _
            rw [read, hp.1]
            rfl
          rw [hread]
          exact hmore.cons rfl
      | blockEnd token =>
          have hread : (read (allTokens (blockEnd token :: phrases))).2 = allTokens phrases := by
            show (read (token :: _)).2 = _
            rw [read, hp.1]
            rfl
          rw [hread]
          exact (IsRemainder.refl phrases).cons rfl

namespace DirectiveBlock

theorem readHeader_allTokens {phrases : List Phrase} (h : ∀ p ∈ phrases, p.WellFormed) :
    (readHeader (allTokens phrases)).2 = allTokens phrases ∨
      ∃ token rest, phrases = content token :: rest ∧
        (readHeader (allTokens phrases)).2 = allTokens rest := by
  cases phrases with
  | nil => exact .inl rfl
  | cons p phrases =>
      have hp := h p List.mem_cons_self
      cases p with
      | directive head pairs =>
          refine .inl ?_
          show (readHeader (head :: _)).2 = head :: _
          rw [readHeader, hp.1]
          rfl
      | content token =>
          refine .inr ⟨token, phrases, rfl, ?_⟩
          show (readHeader (token :: _)).2 = _
          rw [readHeader, hp.1]
          rfl
      | blockEnd token =>
          refine .inl ?_
          show (readHeader (token :: _)).2 = token :: _
          rw [readHeader, hp.1]
          rfl

/-- A directive put before a sentence with its pairs takes these for parameters, and stops between two
phrases. -/
theorem read_phrase (name : Text) {pairs : List (Token × Token)} (hpairs : ∀ p ∈ pairs, IsPair p)
    {phrases : List Phrase} (h : ∀ p ∈ phrases, p.WellFormed) :
    ∃ block ts, read name (pairs.flatMap (fun p => [p.1, p.2]) ++ allTokens phrases) = (block, ts) ∧
      block.name = name ∧ block.parameters = pairs.map (fun p => (p.1.lexeme, p.2.lexeme)) ∧
      IsRemainder phrases ts := by
  have hparameters := readParameters_append pairs
    (fun p hp => ⟨(hpairs p hp).1, (hpairs p hp).2.2⟩) (head?_allTokens_ne h)
  cases hbody : (Directive.kind name).bearsBody with
  | false =>
      refine ⟨_, _, read_unbodied hbody hparameters, rfl, rfl, ?_⟩
      rcases readHeader_allTokens h with hrest | ⟨token, rest, rfl, hrest⟩
      · rw [hrest]
        exact .refl _
      · rw [hrest]
        exact (IsRemainder.refl rest).cons rfl
  | true =>
      refine ⟨_, _, read_bodied hbody hparameters, rfl, rfl, ?_⟩
      rcases readHeader_allTokens h with hrest | ⟨token, rest, rfl, hrest⟩
      · rw [hrest]
        exact BlockBody.isRemainder_read h
      · rw [hrest]
        exact (BlockBody.isRemainder_read fun p hp => h p (List.mem_cons_of_mem _ hp)).cons rfl

end DirectiveBlock

/-! ## All blocks -/

namespace Block

theorem ofTokens_allTokens {phrases : List Phrase} (h : ∀ p ∈ phrases, p.WellFormed) :
    (∀ t, stray t ∈ ofTokens (allTokens phrases) → t.kind = .blockEnd) ∧
      (ofTokens (allTokens phrases)).filterMap attributes? =
        phrases.filterMap Phrase.attributes? := by
  -- A block may take several phrases, so the induction is on their number.
  induction hn : phrases.length using Nat.strong_induction_on generalizing phrases with
  | _ n ih =>
      subst hn
      cases phrases with
      | nil =>
          rw [show allTokens [] = [] from rfl, ofTokens]
          exact ⟨fun _ ht => absurd ht List.not_mem_nil, rfl⟩
      | cons p phrases =>
          have hp := h p List.mem_cons_self
          have hphrases : ∀ q ∈ phrases, q.WellFormed := fun q hq => h q (List.mem_cons_of_mem _ hq)
          cases p with
          | directive head pairs =>
              obtain ⟨block, ts, hread, hname, hparameters, rest, hsuffix, hattributes, rfl⟩ :=
                DirectiveBlock.read_phrase head.lexeme hp.2.2 hphrases
              obtain ⟨hstray, hmore⟩ := ih rest.length (Nat.lt_succ_of_le hsuffix.length_le)
                (fun q hq => hphrases q (hsuffix.subset hq)) rfl
              rw [allTokens_cons, Phrase.tokens, List.cons_append, ofTokens_directive hp.1, hread]
              refine ⟨fun t ht => ?_, ?_⟩
              · rcases List.mem_cons.mp ht with ht | ht
                · exact Block.noConfusion ht
                · exact hstray t ht
              · have hblock : (directive block).attributes? =
                    (Phrase.directive head pairs).attributes? := by
                  rw [attributes?, Phrase.attributes?, DirectiveBlock.node, hname, hparameters]
                rw [List.filterMap_cons, List.filterMap_cons, hblock, hmore, hattributes]
          | content token =>
              obtain ⟨hstray, hmore⟩ := ih phrases.length (Nat.lt_succ_self _) hphrases rfl
              rw [allTokens_cons, Phrase.tokens, List.cons_append, ofTokens_content hp.1]
              refine ⟨fun t ht => ?_, hmore⟩
              rcases List.mem_cons.mp ht with ht | ht
              · exact Block.noConfusion ht
              · exact hstray t ht
          | blockEnd token =>
              obtain ⟨hstray, hmore⟩ := ih phrases.length (Nat.lt_succ_self _) hphrases rfl
              rw [allTokens_cons, Phrase.tokens, List.cons_append, ofTokens_blockEnd hp.1]
              refine ⟨fun t ht => ?_, hmore⟩
              rcases List.mem_cons.mp ht with ht | ht
              · cases ht
                exact hp.1
              · exact hstray t ht

end Block

/-- The grammar of the stream, over any source and any fenced directives: the tokens fall into phrases, so
that a key and a value only stand as a pair, behind a directive or another pair.  When the stream is parsed,
only closing markers belong to nothing, and the directives have exactly the pairs of their phrases for
attributes. -/
theorem TokenStream.ofSource_grammar (fenced : List Text) (limit : Int) (source : Source) :
    ∃ stream phrases, ofSource fenced limit source = .ok stream ∧
      stream.tokens = allTokens phrases ∧ (∀ p ∈ phrases, p.WellFormed) ∧
      (TokenKind.blockEnd :: kinds stream.tokens).IsChain TokenKind.MayPrecede ∧
      (∀ t, Block.stray t ∈ Block.ofTokens stream.tokens → t.kind = .blockEnd) ∧
      (Block.ofTokens stream.tokens).filterMap Block.attributes? =
        phrases.filterMap Phrase.attributes? := by
  obtain ⟨phrases, hphrases, htokens⟩ := isSentence_unguarded fenced ⟨source.decode, none⟩
  refine ⟨_, phrases, ofSource_eq fenced limit source, htokens, hphrases, ?_, ?_⟩
  · show (TokenKind.blockEnd :: kinds (unguarded fenced ⟨source.decode, none⟩).tokens).IsChain _
    rw [htokens]
    exact isChain_kinds hphrases _ (by decide)
  · show (∀ t, Block.stray t ∈ Block.ofTokens (unguarded fenced ⟨source.decode, none⟩).tokens → _) ∧
      (Block.ofTokens (unguarded fenced ⟨source.decode, none⟩).tokens).filterMap _ = _
    rw [htokens]
    exact Block.ofTokens_allTokens hphrases

end AtMark
