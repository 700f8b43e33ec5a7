import AtMark.Document
import AtMark.Hook
import AtMark.Render.Page
import AtMark.Settings
import AtMark.Token.Stream

/-!
# `Compilation`: from a source to a page

A compilation carries a document through four stages: its tokens, its tree, its page, and the page after the
render hooks.  Each stage fills in its own field from those before it, so stages may be repeated and taken
in any order.  A stage reports what it noticed and which hooks it called; only what is reported depends on
the verbosity.

What is not the program's own comes with the host: the files, and the highlighter that code blocks are given to
(`Host`).  Rendering fails if the highlighter does, and then no later stage is run.
-/

namespace AtMark

/-- What a compilation works with, and what it has made so far. -/
structure Compilation where
  source : Source
  settings : Settings
  plugins : Option (List Plugin)
  verbosity : Int
  tokens : Option (List Token) := none
  document : Option Node := none
  html : Text := []

/-- Why a compilation stops. -/
inductive CompileError where
  | stuck (report : Stuck)
  | render (fault : RenderFault)
  | hook (fault : HookFault)
deriving DecidableEq, Repr

/-- The stages of a compilation. -/
inductive Stage where
  | tokenize
  | parse
  | render
  | hooks
deriving DecidableEq, Repr

/-- The stages in their order. -/
def Stage.all : List Stage := [tokenize, parse, render, hooks]

/-- What a stage yields beside its notices and its calls of hooks. -/
structure Outcome (α : Type) where
  result : Except CompileError α
  notices : List Notice
  calls : List HookCall

namespace Compilation

/-- Tokenizes the source.  The reader of a source does not get stuck (`TokenStream.ofSource_eq`), so nothing is
reported with an error. -/
def tokenize (c : Compilation) : Outcome Compilation :=
  match TokenStream.ofSource c.settings.fencedDirectives c.settings.stuckLimit c.source with
  | .ok stream =>
    ⟨.ok { c with tokens := some stream.tokens },
     stream.notices ++ [.tokenized stream.tokens.length], []⟩
  | .error report => ⟨.error (.stuck report), [], []⟩

/-- Makes the tree of the tokens; without tokens it is empty. -/
def parse (c : Compilation) : Outcome Compilation :=
  let tokens := c.tokens.getD []
  ⟨.ok { c with document := some (Document.ofTokens tokens) }, Document.notices tokens, []⟩

/-- The renderer of a compilation. -/
def renderer (host : Host) (c : Compilation) : Renderer :=
  { host, options := c.settings.renderOptions }

/-- Makes the page of the tree; without a tree there is nothing to do. -/
def render (host : Host) (c : Compilation) : Outcome Compilation :=
  match c.document with
  | none => ⟨.ok c, [.noDocument], []⟩
  | some document =>
    let notices := (c.renderer host).notices document
    match (c.renderer host).page document with
    | .ok page => ⟨.ok { c with html := page }, notices ++ [.rendered page.length], []⟩
    | .error fault => ⟨.error (.render fault), notices, []⟩

/-- Runs the render hooks on the page. -/
def hooks (c : Compilation) : Outcome Compilation :=
  match c.plugins with
  | none => ⟨.ok c, [], []⟩
  | some plugins =>
    let run := Plugin.runOnText plugins c.html
    match Plugin.pageOf run with
    | .ok page => ⟨.ok { c with html := page }, run.notices, run.calls⟩
    | .error fault => ⟨.error (.hook fault), run.notices, run.calls⟩

/-- Runs a stage. -/
def run (host : Host) (stage : Stage) (c : Compilation) : Outcome Compilation :=
  match stage with
  | .tokenize => c.tokenize
  | .parse => c.parse
  | .render => c.render host
  | .hooks => c.hooks

/-- The outcomes of stages run one after the other, up to the first that fails. -/
def trace (host : Host) : List Stage → Compilation → List (Stage × Outcome Compilation)
  | [], _ => []
  | stage :: rest, c =>
    let outcome := c.run host stage
    match outcome.result with
    | .ok c' => (stage, outcome) :: trace host rest c'
    | .error _ => [(stage, outcome)]

/-- Runs stages one after the other. -/
def runAll (host : Host) : List Stage → Compilation → Outcome Compilation
  | [], c => ⟨.ok c, [], []⟩
  | stage :: rest, c =>
    let first := c.run host stage
    match first.result with
    | .ok c' =>
      let more := runAll host rest c'
      ⟨more.result, first.notices ++ more.notices, first.calls ++ more.calls⟩
    | .error e => ⟨.error e, first.notices, first.calls⟩

/-- The journal after stages run one after the other.  Each stage binds the verbosity of the compilation that it
is given, and what it notices is reported there. -/
def journal (host : Host) : List Stage → Compilation → Journal → Journal
  | [], _, j => j
  | stage :: rest, c, j =>
    let outcome := c.run host stage
    let j' := (j.bind (some c.verbosity)).reportAll outcome.notices
    match outcome.result with
    | .ok c' => journal host rest c' j'
    | .error _ => j'

/-- A compilation that has made nothing yet. -/
def start (source : Source) (settings : Settings) (plugins : Option (List Plugin))
    (verbosity : Int) : Compilation :=
  { source, settings, plugins, verbosity }

end Compilation

/-- The verbosity that settings raise a verbosity to. -/
def Settings.verbosity (s : Settings) (verbosity : Int) : Int :=
  if s.debugMode then max verbosity 3 else verbosity

/-- Compiles a source to a page. -/
def compile (host : Host) (source : Source) (settings : Settings) (plugins : Option (List Plugin))
    (verbosity : Int) : Outcome Text :=
  let outcome := (Compilation.start source settings plugins (settings.verbosity verbosity)).runAll
    host Stage.all
  ⟨outcome.result.map Compilation.html, outcome.notices, outcome.calls⟩

/-- The journal after a source is compiled. -/
def compileJournal (host : Host) (source : Source) (settings : Settings)
    (plugins : Option (List Plugin)) (verbosity : Int) (j : Journal) : Journal :=
  (Compilation.start source settings plugins (settings.verbosity verbosity)).journal host Stage.all j

/-- What is logged when a source is compiled. -/
def compileLog (host : Host) (source : Source) (settings : Settings)
    (plugins : Option (List Plugin)) (verbosity : Int) : List Text :=
  (compileJournal host source settings plugins verbosity {}).lines

end AtMark
