import AtMark.Proofs.Token.Progress

/-!
# `Proofs.Token.Grammar`: the grammar of the token stream

Tokens come in phrases: a directive with its parameters, each a key and a value; a content; a closing marker.
A list of tokens that falls into such phrases is a sentence (`IsSentence`), and every stream is one
(`isSentence_unguarded`), over any source and any fenced directives.

Sentences can be put one behind the other, so it is enough to look at one step: the tokens of a line, form by
form, those of a directive with its list, and those of a fence.  A parameter list is closed under this
whether it found its parenthesis or was cut off at the end of its line, since either way its tokens are
those of its items, and the key of an item is a name.

What may follow what is said in another way as well, by pairs of neighbours: a key is followed by a value, a value
stands behind a key, and a key behind a directive or a value (`MayPrecede`, `isChain_kinds`).

A sentence says nothing about what its contents are, nor which closing marker closes what.  A marker may stand where
nothing is open, and a directive may have no marker; that is sorted out by the parser, whose reading of a sentence is
in `Proofs.Document.Sentence`.
-/

namespace AtMark

open Text

/-! ## Phrases and sentences -/

/-- A phrase of the token stream. -/
inductive Phrase where
  | directive (head : Token) (pairs : List (Token × Token))
  | content (token : Token)
  | blockEnd (token : Token)
deriving DecidableEq, Repr

namespace Phrase

/-- The tokens of a phrase. -/
def tokens : Phrase → List Token
  | directive head pairs => head :: pairs.flatMap fun p => [p.1, p.2]
  | content token => [token]
  | blockEnd token => [token]

/-- A key and a value. -/
def IsPair (p : Token × Token) : Prop :=
  p.1.kind = .parameterKey ∧ Name.IsName p.1.lexeme ∧ p.2.kind = .parameterValue

/-- Each token is of the kind that its place asks for, and its text has the shape of that kind. -/
def WellFormed : Phrase → Prop
  | directive head pairs =>
      head.kind = .directive ∧ Directive.IsName head.lexeme ∧ ∀ p ∈ pairs, IsPair p
  | content token => token.kind = .content ∧ token.lexeme ≠ []
  | blockEnd token => token.kind = .blockEnd ∧ token.lexeme = Token.endMarker

/-- The tokens of some phrases. -/
def allTokens (phrases : List Phrase) : List Token :=
  phrases.flatMap tokens

theorem allTokens_cons (p : Phrase) (phrases : List Phrase) :
    allTokens (p :: phrases) = p.tokens ++ allTokens phrases := rfl

/-- No phrase begins with a key. -/
theorem head?_allTokens_ne {phrases : List Phrase} (h : ∀ p ∈ phrases, p.WellFormed) :
    ∀ t ∈ (allTokens phrases).head?, t.kind ≠ .parameterKey := by
  intro t ht
  cases phrases with
  | nil => exact absurd ht (by simp [allTokens])
  | cons p phrases =>
      have hp := h p List.mem_cons_self
      cases p with
      | directive head pairs =>
          cases ht
          rw [hp.1]
          exact TokenKind.noConfusion
      | content token =>
          cases ht
          rw [hp.1]
          exact TokenKind.noConfusion
      | blockEnd token =>
          cases ht
          rw [hp.1]
          exact TokenKind.noConfusion

end Phrase

/-- The tokens fall into phrases. -/
def IsSentence (ts : List Token) : Prop :=
  ∃ phrases, (∀ p ∈ phrases, Phrase.WellFormed p) ∧ ts = Phrase.allTokens phrases

namespace IsSentence

variable {ts us : List Token}

theorem nil : IsSentence [] :=
  ⟨[], fun _ hp => absurd hp List.not_mem_nil, rfl⟩

theorem append (hts : IsSentence ts) (hus : IsSentence us) : IsSentence (ts ++ us) := by
  obtain ⟨ps, hps, rfl⟩ := hts
  obtain ⟨qs, hqs, rfl⟩ := hus
  refine ⟨ps ++ qs, fun p hp => ?_, (List.flatMap_append).symm⟩
  rcases List.mem_append.mp hp with hp | hp
  · exact hps p hp
  · exact hqs p hp

theorem phrase {p : Phrase} (hp : p.WellFormed) : IsSentence p.tokens :=
  ⟨[p], fun _ hq => List.mem_singleton.mp hq ▸ hp, (List.append_nil _).symm⟩

theorem content {text : Text} {owned : Bool} (h : text ≠ []) :
    IsSentence [⟨.content, text, owned⟩] :=
  phrase (p := .content ⟨.content, text, owned⟩) ⟨rfl, h⟩

theorem blockEnd : IsSentence [Token.blockEnd] :=
  phrase (p := .blockEnd Token.blockEnd) ⟨rfl, rfl⟩

theorem contentUnlessEmpty (text : Text) (owned : Bool) :
    IsSentence (Token.contentUnlessEmpty text owned) := by
  unfold Token.contentUnlessEmpty
  split
  · exact nil
  · next h => exact content fun hnil => h (List.isEmpty_iff.mpr hnil)

end IsSentence

/-! ## Content -/

theorem Escape.isSentence_contentToken {s : Text} (h : s ≠ []) : IsSentence [contentToken s] :=
  .content (resolve_ne_nil h)

theorem Prose.isSentence_tokens (s : Text) : IsSentence (tokens s) := by
  fun_induction tokens s with
  | case1 s h => exact .contentUnlessEmpty _ _
  | case2 s before after h ih =>
      refine .append ?_ (.append (.content (List.cons_ne_nil _ _)) ih)
      split
      · exact .nil
      · next hblank =>
        refine .content fun hnil => hblank ?_
        rw [hnil]
        rfl

/-! ## Parameters -/

namespace Parameters

/-- Every key is a name. -/
theorem isName_of_mem_items {s : Text} {p : Parameter} (h : p ∈ (scan s).items) :
    Name.IsName p.key := by
  fun_induction scan s with
  | case1 => exact absurd h List.not_mem_nil
  | case2 cs => exact absurd h List.not_mem_nil
  | case3 c cs _ hname ih =>
      rcases List.mem_cons.mp h with rfl | h
      · refine ⟨List.cons_ne_nil _ _, fun d hd => ?_⟩
        rcases List.mem_cons.mp hd with rfl | hd
        · exact hname
        · exact List.mem_takeWhile_imp hd
      · exact ih h
  | case4 c cs _ _ ih => exact ih h

theorem isName_of_mem_recover {s : Text} {p : Parameter} (h : p ∈ (recover s).items) :
    Name.IsName p.key := by
  unfold recover at h
  split at h
  · exact isName_of_mem_items h
  · exact isName_of_mem_items h

end Parameters

namespace Line

theorem isName_of_mem_parameters {s : Text} {p : Parameter} (h : p ∈ (parameters s).items) :
    Name.IsName p.key := by
  unfold parameters at h
  split at h
  · exact Parameters.isName_of_mem_recover h
  · exact absurd h List.not_mem_nil

/-- A directive and the list behind it are one phrase. -/
theorem isSentence_header {name : Text} (hname : Directive.IsName name) (s : Text) :
    IsSentence (⟨.directive, name, false⟩ :: (parameters s).tokens) := by
  have hphrase := IsSentence.phrase (p := .directive ⟨.directive, name, false⟩
    ((parameters s).items.map fun p =>
      (⟨.parameterKey, p.key, false⟩, ⟨.parameterValue, p.value, p.owned⟩)))
    ⟨rfl, hname, fun p hp => by
      obtain ⟨q, hq, rfl⟩ := List.mem_map.mp hp
      exact ⟨rfl, isName_of_mem_parameters hq, rfl⟩⟩
  rw [Phrase.tokens, List.flatMap_map] at hphrase
  exact hphrase

/-! ## Lines and fences -/

theorem isSentence_headingTokens (level : Nat) (text : Text) :
    IsSentence (headingTokens level text) := by
  unfold headingTokens
  refine .append (.phrase (p := .directive ⟨.directive, "@heading", true⟩
    [(⟨.parameterKey, "level", true⟩, ⟨.parameterValue, ofNat level, true⟩)])
    ⟨rfl, by decide, fun p hp => ?_⟩) ?_
  · rw [List.mem_singleton.mp hp]
    exact ⟨rfl, show Name.IsName "level".toList from by decide, rfl⟩
  · split
    · exact .nil
    · next h => exact Escape.isSentence_contentToken h

theorem isSentence_tailTokens (tail : Text) : IsSentence (tailTokens tail) := by
  unfold tailTokens
  split
  · next front hfront =>
    split
    · refine Escape.isSentence_contentToken ?_
      rw [Search.cutEnd?_eq_some_iff.mp hfront]
      exact List.append_ne_nil_of_right_ne_nil _ (by decide)
    · refine .append ?_ .blockEnd
      split
      · exact .nil
      · next h => exact Escape.isSentence_contentToken h
  · split
    · exact .nil
    · next h => exact Escape.isSentence_contentToken h

theorem LineForm.isSentence_tokens (form : LineForm) : IsSentence form.tokens := by
  cases form with
  | skipped => exact .nil
  | closer => exact .blockEnd
  | heading level text => exact isSentence_headingTokens level text
  | directive name => exact .nil
  | loneMark text => exact .append (.content (by decide)) (Prose.isSentence_tokens text)
  | prose text => exact Prose.isSentence_tokens text

theorem isSentence_scan (fenced : List Text) (s : Text) : IsSentence (scan fenced s).tokens := by
  rcases scan_cases fenced s with ⟨name, r, hname, -, hscan⟩ | ⟨-, hscan⟩
  · have hheader := isSentence_header (LineForm.directive_of_ofLine hname).1 (r ++ fromLineEnd s)
    rw [hscan]
    by_cases hfenced : name ∈ fenced
    · rw [scanDirective_fenced hfenced]
      exact hheader
    · rw [scanDirective_unfenced hfenced]
      exact hheader.append (isSentence_tailTokens _)
  · rw [hscan]
    exact LineForm.isSentence_tokens _

end Line

theorem Fence.isSentence_scan (directive s : Text) : IsSentence (scan directive s).tokens := by
  unfold scan Body.tokens
  refine .append (.contentUnlessEmpty _ _) ?_
  split
  · exact .blockEnd
  · exact .nil

/-! ## Steps and runs -/

theorem LineReader.isSentence_step (fenced : List Text) (cursor : Cursor) :
    IsSentence ((markup fenced).step cursor).tokens := by
  obtain ⟨rest, fence⟩ := cursor
  cases fence with
  | none => exact Line.isSentence_scan fenced rest
  | some directive => exact Fence.isSentence_scan directive rest

theorem TokenStream.isSentence_unguarded (fenced : List Text) (cursor : Cursor) :
    IsSentence (unguarded fenced cursor).tokens := by
  fun_induction unguarded fenced cursor with
  | case1 cursor hnil => exact .nil
  | case2 cursor hne ih => exact (LineReader.isSentence_step fenced cursor).append ih

/-! ## Neighbours

What the phrases say about the kinds of two tokens that stand next to each other. -/

namespace TokenKind

/-- May a token of the first kind stand right before one of the second? -/
def MayPrecede (a b : TokenKind) : Prop :=
  (a = parameterKey ↔ b = parameterValue) ∧ (b = parameterKey → a = directive ∨ a = parameterValue)

instance (a b : TokenKind) : Decidable (MayPrecede a b) :=
  inferInstanceAs (Decidable (_ ∧ _))

end TokenKind

namespace Phrase

open TokenKind

/-- The kinds of tokens, with a kind that takes no parameters on either side. -/
def kinds (ts : List Token) : List TokenKind :=
  ts.map Token.kind ++ [.blockEnd]

theorem isChain_pairs {pairs : List (Token × Token)} {ts : List Token}
    (hpairs : ∀ p ∈ pairs, IsPair p)
    (hts : ∀ a : TokenKind, a ≠ .parameterKey → (a :: kinds ts).IsChain MayPrecede) (a : TokenKind)
    (ha : a = .directive ∨ a = .parameterValue) :
    (a :: kinds ((pairs.flatMap fun p => [p.1, p.2]) ++ ts)).IsChain MayPrecede := by
  induction pairs generalizing a with
  | nil =>
      refine hts a ?_
      rintro rfl
      exact absurd ha (by decide)
  | cons p pairs ih =>
      obtain ⟨hkey, -, hvalue⟩ := hpairs p List.mem_cons_self
      have hmore := ih (fun q hq => hpairs q (List.mem_cons_of_mem _ hq)) .parameterValue (.inr rfl)
      show (a :: p.1.kind :: p.2.kind :: kinds _).IsChain MayPrecede
      rw [hkey, hvalue, List.isChain_cons_cons, List.isChain_cons_cons]
      refine ⟨⟨?_, fun _ => ha⟩, by decide, hmore⟩
      rcases ha with rfl | rfl
      · decide
      · decide

theorem isChain_kinds {phrases : List Phrase} (h : ∀ p ∈ phrases, p.WellFormed) (a : TokenKind)
    (ha : a ≠ .parameterKey) : (a :: kinds (allTokens phrases)).IsChain MayPrecede := by
  induction phrases generalizing a with
  | nil =>
      show [a, TokenKind.blockEnd].IsChain MayPrecede
      rw [List.isChain_cons_cons]
      refine ⟨⟨⟨fun h => absurd h ha, fun h => absurd h (by decide)⟩, fun h => absurd h (by decide)⟩, ?_⟩
      exact .singleton _
  | cons p phrases ih =>
      have hp := h p List.mem_cons_self
      have hmore := ih fun q hq => h q (List.mem_cons_of_mem _ hq)
      have hfirst : ∀ b : TokenKind, b ≠ .parameterKey → b ≠ .parameterValue → MayPrecede a b :=
        fun b hkey hvalue =>
          ⟨⟨fun h => absurd h ha, fun h => absurd h hvalue⟩, fun h => absurd h hkey⟩
      cases p with
      | directive head pairs =>
          show (a :: head.kind :: kinds _).IsChain MayPrecede
          rw [hp.1, List.isChain_cons_cons]
          exact ⟨hfirst _ (by decide) (by decide), isChain_pairs hp.2.2 hmore _ (.inl rfl)⟩
      | content token =>
          show (a :: token.kind :: kinds _).IsChain MayPrecede
          rw [hp.1, List.isChain_cons_cons]
          exact ⟨hfirst _ (by decide) (by decide), hmore _ (by decide)⟩
      | blockEnd token =>
          show (a :: token.kind :: kinds _).IsChain MayPrecede
          rw [hp.1, List.isChain_cons_cons]
          exact ⟨hfirst _ (by decide) (by decide), hmore _ (by decide)⟩

end Phrase
end AtMark
