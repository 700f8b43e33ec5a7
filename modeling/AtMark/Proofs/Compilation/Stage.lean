import AtMark.Proofs.Compilation
import AtMark.Proofs.Hook

/-!
# `Proofs.Compilation.Stage`: stages in any order

## What is proved

Every stage overwrites its own field of a compilation and reads those before it.  What a run of stages has made is
therefore told by three marks: whether there are tokens, and of which tokens the tree and the page are
(`Progress`).  A stage moves the marks, and the compilation that belongs to them is the one that the stage leaves
(`Progress.run_state`); so after any stages the compilation is that of the marks moved by each of them
(`Progress.runAll_state`).

No stage takes a mark back.  Once the source is tokenized the next tree is that of its tokens, once there is that
tree the next page is its page, and there it stays (`Progress.page_of_sublist`).  So stages may be repeated and
interleaved, and as soon as the three that make the page have been run in their order, the page is the one that
the compilation of the source gives (`Compilation.stages_interleave`).

## The one hypothesis

Each tree that is rendered has a page.  In `stages_interleave` that comes from the highlighter, which does not fail
where code is coloured (`Highlighter.NeverFails`); up to there a page is any function from trees to texts that the
renderer agrees with.  Without it a stage may fail, and then no later stage is run.
-/

namespace AtMark

/-! ## Compilations without render hooks -/

namespace Compilation

/-- No plugin of the compilation has a render hook; that holds if it has no plugins. -/
def Hookless (c : Compilation) : Prop :=
  ∀ p ∈ c.plugins.getD [], p.render = none

theorem hooks_of_hookless {c : Compilation} (h : c.Hookless) : c.hooks.result = .ok c := by
  obtain ⟨source, settings, plugins, verbosity, tokens, document, html⟩ := c
  cases plugins with
  | none => rfl
  | some plugins =>
      have hplugins : ∀ p ∈ plugins, p.render = none := h
      simp only [hooks, Plugin.pageOf_of_hookless hplugins]

end Compilation

/-! ## What stages have made -/

/-- Of which tokens a tree or a page is: there is none, it is of no tokens, or of those of the source. -/
inductive Extent where
  | unmade
  | bare
  | full
deriving DecidableEq, Repr

/-- What stages have made: whether there are tokens, and of which tokens the tree and the page are. -/
structure Progress where
  tokenized : Bool := false
  document : Extent := .unmade
  page : Extent := .unmade
deriving DecidableEq, Repr

namespace Extent

/-- The tree of an extent. -/
def tree (tokens : List Token) : Extent → Option Node
  | unmade => none
  | bare => some (Document.ofTokens [])
  | full => some (Document.ofTokens tokens)

/-- The page of an extent. -/
def html (page : Node → Text) (tokens : List Token) : Extent → Text
  | unmade => []
  | bare => page (Document.ofTokens [])
  | full => page (Document.ofTokens tokens)

end Extent

namespace Progress

/-- What has been made after one more stage. -/
def step (p : Progress) : Stage → Progress
  | .tokenize => { p with tokenized := true }
  | .parse => { p with document := if p.tokenized then .full else .bare }
  | .render => { p with page := if p.document = .unmade then p.page else p.document }
  | .hooks => p

/-- The compilation in which so much has been made, given the pages of trees. -/
def state (page : Node → Text) (tokens : List Token) (c : Compilation) (p : Progress) : Compilation :=
  { c with
    tokens := if p.tokenized then some tokens else none
    document := p.document.tree tokens
    html := p.page.html page tokens }

section State

variable {c : Compilation} {stream : TokenStream} {host : Host} {page : Node → Text} (hhookless : c.Hookless)
  (hstream :
    TokenStream.ofSource c.settings.fencedDirectives c.settings.stuckLimit c.source = .ok stream)
  (hpage : ∀ document, (c.renderer host).page document = .ok (page document))

include hhookless hstream hpage

/-- A stage leaves the compilation of the marks that it moves. -/
theorem run_state (p : Progress) (stage : Stage) :
    ((p.state page stream.tokens c).run host stage).result =
      .ok ((p.step stage).state page stream.tokens c) := by
  obtain ⟨tokenized, document, rendered⟩ := p
  cases stage with
  | tokenize =>
      have htokenize := Compilation.tokenize_eq
        (c := state page stream.tokens c ⟨tokenized, document, rendered⟩) hstream
      exact congrArg Outcome.result htokenize
  | parse =>
      cases tokenized with
      | false => rfl
      | true => rfl
  | render =>
      cases document with
      | unmade => rfl
      | bare =>
          have hrender := Compilation.render_eq_of_ok
            (c := state page stream.tokens c ⟨tokenized, .bare, rendered⟩) rfl (hpage _)
          exact congrArg Outcome.result hrender
      | full =>
          have hrender := Compilation.render_eq_of_ok
            (c := state page stream.tokens c ⟨tokenized, .full, rendered⟩) rfl (hpage _)
          exact congrArg Outcome.result hrender
  | hooks => exact Compilation.hooks_of_hookless hhookless

theorem runAll_state (p : Progress) (stages : List Stage) :
    ((p.state page stream.tokens c).runAll host stages).result =
      .ok ((stages.foldl step p).state page stream.tokens c) := by
  induction stages generalizing p with
  | nil => rfl
  | cons stage rest ih =>
      rw [Compilation.runAll]
      simp only [run_state hhookless hstream hpage]
      exact ih (p.step stage)

/-- Every stage of a run is gone through, and it leaves the compilation of some marks. -/
theorem trace_state (p : Progress) (stages : List Stage) :
    ((p.state page stream.tokens c).trace host stages).map Prod.fst = stages ∧
      ∀ entry ∈ (p.state page stream.tokens c).trace host stages,
        ∃ q : Progress, entry.2.result = .ok (q.state page stream.tokens c) := by
  induction stages generalizing p with
  | nil =>
      rw [Compilation.trace]
      exact ⟨rfl, fun entry h => absurd h List.not_mem_nil⟩
  | cons stage rest ih =>
      have hstage := run_state hhookless hstream hpage p stage
      obtain ⟨hrest, hentries⟩ := ih (p.step stage)
      rw [Compilation.trace]
      simp only [hstage, List.map_cons, List.mem_cons, hrest]
      refine ⟨trivial, ?_⟩
      rintro entry (rfl | hmem)
      · exact ⟨p.step stage, hstage⟩
      · exact hentries entry hmem

end State

/-! ## Marks that stay -/

/-- A property of the marks that every stage keeps. -/
def Stays (P : Progress → Prop) : Prop :=
  ∀ p stage, P p → P (p.step stage)

theorem Stays.foldl {P : Progress → Prop} (h : Stays P) (stages : List Stage) {p : Progress} (hp : P p) :
    P (stages.foldl step p) := by
  induction stages generalizing p with
  | nil => exact hp
  | cons stage rest ih => exact ih (h p stage hp)

/-- What one property leads to by a stage holds after any stages with that one among them. -/
theorem Stays.foldl_of_mem {P Q : Progress → Prop} (hP : Stays P) (hQ : Stays Q) {stage : Stage}
    (hstage : ∀ p, P p → Q (p.step stage)) {stages : List Stage} (hmem : stage ∈ stages) {p : Progress}
    (hp : P p) : Q (stages.foldl step p) := by
  obtain ⟨before, behind, rfl⟩ := List.append_of_mem hmem
  rw [List.foldl_append, List.foldl_cons]
  exact hQ.foldl behind (hstage _ (hP.foldl before hp))

/-- There are tokens. -/
def IsTokenized (p : Progress) : Prop :=
  p.tokenized = true

/-- There are tokens, and the tree is theirs. -/
def IsParsed (p : Progress) : Prop :=
  p.IsTokenized ∧ p.document = .full

/-- The page is that of the tree of the tokens. -/
def IsRendered (p : Progress) : Prop :=
  p.IsParsed ∧ p.page = .full

theorem stays_tokenized : Stays IsTokenized := by
  intro p stage h
  cases stage <;> simp_all [IsTokenized, step]

theorem stays_parsed : Stays IsParsed := by
  intro p stage h
  cases stage <;> simp_all [IsParsed, IsTokenized, step]

theorem stays_rendered : Stays IsRendered := by
  intro p stage h
  cases stage <;> simp_all [IsRendered, IsParsed, IsTokenized, step]

theorem isTokenized_step (p : Progress) : IsTokenized (p.step .tokenize) := rfl

theorem isParsed_step {p : Progress} (h : p.IsTokenized) : IsParsed (p.step .parse) :=
  ⟨h, if_pos h⟩

theorem isRendered_step {p : Progress} (h : p.IsParsed) : IsRendered (p.step .render) := by
  have hmade : p.document ≠ .unmade := by
    rw [h.2]
    exact nofun
  exact ⟨h, (if_neg hmade).trans h.2⟩

/-- Stages that hold the three of a page in their order make the page of the source's tokens. -/
theorem page_of_sublist {stages : List Stage} (h : List.Sublist [.tokenize, .parse, .render] stages)
    (p : Progress) : (stages.foldl step p).page = .full := by
  obtain ⟨first, rest, rfl, htokenize, h⟩ := List.cons_sublist_iff.mp h
  obtain ⟨second, rest, rfl, hparse, h⟩ := List.cons_sublist_iff.mp h
  have hrender : Stage.render ∈ rest := List.singleton_sublist.mp h
  have hanything : Stays fun _ => True := fun _ _ h => h
  have htokenized : IsTokenized (first.foldl step p) :=
    hanything.foldl_of_mem stays_tokenized (fun q _ => isTokenized_step q) htokenize trivial
  have hparsed : IsParsed (second.foldl step (first.foldl step p)) :=
    stays_tokenized.foldl_of_mem stays_parsed (fun _ => isParsed_step) hparse htokenized
  have hrendered : IsRendered (rest.foldl step (second.foldl step (first.foldl step p))) :=
    stays_parsed.foldl_of_mem stays_rendered (fun _ => isRendered_step) hrender hparsed
  rw [List.foldl_append, List.foldl_append]
  exact hrendered.2

end Progress

/-! ## Stages repeated and interleaved -/

namespace Compilation

/-- The compilation `c` has been made of `c₀` by stages that read these tokens: only its own three fields may be
other ones; there are no tokens or these; the tree is missing or that of no tokens or of these; and the page is
empty or that of one of the two trees. -/
structure IsMade (host : Host) (tokens : List Token) (c₀ c : Compilation) : Prop where
  inputs : c = { c₀ with tokens := c.tokens, document := c.document, html := c.html }
  tokens_eq : c.tokens = none ∨ c.tokens = some tokens
  document_eq : c.document = none ∨ c.document = some (Document.ofTokens []) ∨
    c.document = some (Document.ofTokens tokens)
  html_eq : c.html = [] ∨ (c₀.renderer host).page (Document.ofTokens []) = .ok c.html ∨
    (c₀.renderer host).page (Document.ofTokens tokens) = .ok c.html

theorem isMade_state {host : Host} {page : Node → Text} (tokens : List Token) (c : Compilation)
    (hpage : ∀ document, (c.renderer host).page document = .ok (page document)) (p : Progress) :
    IsMade host tokens c (p.state page tokens c) := by
  obtain ⟨tokenized, document, rendered⟩ := p
  refine ⟨rfl, ?_, ?_, ?_⟩
  · cases tokenized with
    | false => exact .inl rfl
    | true => exact .inr rfl
  · cases document with
    | unmade => exact .inl rfl
    | bare => exact .inr (.inl rfl)
    | full => exact .inr (.inr rfl)
  · cases rendered with
    | unmade => exact .inl rfl
    | bare => exact .inr (.inl (hpage _))
    | full => exact .inr (.inr (hpage _))

theorem finish_of_hookless {plugins : Option (List Plugin)} (h : ∀ p ∈ plugins.getD [], p.render = none)
    (page : Text) : finish plugins (.ok page) = .ok page := by
  cases plugins with
  | none => rfl
  | some plugins =>
      have hplugins : ∀ p ∈ plugins, p.render = none := h
      rw [finish, Plugin.pageOf_of_hookless hplugins]
      rfl

/-- Without render hooks, and where the highlighter does its work if there is any for it, stages may be taken in any
order and any number of times: none fails, after each the compilation is one made of the tokens of the source, and once
the stages of a page have been taken in their order among the others, the page at the end is the one that the source
compiles to. -/
theorem stages_interleave (host : Host) (source : Source) (settings : Settings)
    (hhighlighter : settings.highlightCode = true → host.highlighter.NeverFails)
    (plugins : Option (List Plugin)) (hhookless : ∀ p ∈ plugins.getD [], p.render = none) (verbosity : Int)
    (stages : List Stage) :
    ∃ stream, TokenStream.ofSource settings.fencedDirectives settings.stuckLimit source = .ok stream ∧
      ((start source settings plugins verbosity).trace host stages).map Prod.fst = stages ∧
      (∀ entry ∈ (start source settings plugins verbosity).trace host stages,
        ∃ c, entry.2.result = .ok c ∧
          IsMade host stream.tokens (start source settings plugins verbosity) c) ∧
      (List.Sublist [.tokenize, .parse, .render] stages →
        ∃ c, ((start source settings plugins verbosity).runAll host stages).result = .ok c ∧
          ∀ v, (compile host source settings plugins v).result = .ok c.html) := by
  obtain ⟨stream, hstream⟩ : ∃ stream,
      TokenStream.ofSource settings.fencedDirectives settings.stuckLimit source = .ok stream :=
    ⟨_, TokenStream.ofSource_eq _ _ source⟩
  have hpages : ∀ document, ∃ page : Text,
      ((start source settings plugins verbosity).renderer host).page document = .ok page := by
    intro document
    obtain ⟨body, hbody⟩ := Renderer.exists_page host settings.renderOptions hhighlighter document
    exact ⟨_, hbody⟩
  obtain ⟨page, hpage⟩ := Classical.skolem.mp hpages
  have htrace := Progress.trace_state (c := start source settings plugins verbosity) hhookless hstream
    hpage {} stages
  have hrun := Progress.runAll_state (c := start source settings plugins verbosity) hhookless hstream
    hpage {} stages
  refine ⟨stream, hstream, htrace.1, fun entry hentry => ?_, fun hsublist => ?_⟩
  · obtain ⟨q, hq⟩ := htrace.2 entry hentry
    exact ⟨_, hq, isMade_state stream.tokens _ hpage q⟩
  · refine ⟨_, hrun, fun v => ?_⟩
    have hresult := compile_result hstream host plugins v
    rw [show ({ host, options := settings.renderOptions } : Renderer).page _ = _ from hpage _,
      finish_of_hookless hhookless] at hresult
    rw [hresult, Progress.state, Progress.page_of_sublist hsublist]
    rfl

/-- A page made before there are tokens, then of no tokens, and at last of the source's, with its code coloured; the
tree and the tokens are made again behind it, and the one plugin has no render hook. -/
theorem stages_interleave_repeated :
    let source : Source := .text "@code(language=text)\nlet x\n@end"
    let settings : Settings := { highlightCode := true }
    let stages : List Stage :=
      [.render, .parse, .render, .tokenize, .render, .parse, .hooks, .render, .tokenize, .parse]
    let plugins : List Plugin := [⟨"quiet", true, none⟩]
    Host.plain.highlighter.NeverFails ∧ (∀ p ∈ plugins, p.render = none) ∧
      List.Sublist [.tokenize, .parse, .render] stages ∧
      ((start source settings (some plugins) 0).trace .plain stages).map Prod.fst = stages ∧
      ∃ c, ((start source settings (some plugins) 0).runAll .plain stages).result = .ok c ∧
        (compile .plain source settings (some plugins) 3).result = .ok c.html := by
  intro source settings stages plugins
  have hhookless : ∀ p ∈ plugins, p.render = none := List.forall_mem_singleton.mpr rfl
  have hsublist : List.Sublist [.tokenize, .parse, .render] stages := by decide
  obtain ⟨_, -, hstages, -, hpage⟩ := stages_interleave .plain source settings
    (fun _ => Highlighter.plain_neverFails) (some plugins) hhookless 0 stages
  obtain ⟨c, hrun, hcompile⟩ := hpage hsublist
  exact ⟨Highlighter.plain_neverFails, hhookless, hsublist, hstages, c, hrun, hcompile 3⟩

end Compilation
end AtMark
