import AtMark.Compilation
import AtMark.Proofs.Render.Builtin
import AtMark.Proofs.Token.Progress

/-!
# `Proofs.Compilation`: what a compilation makes

## What is proved

The stages of a compilation work on one record and may be run in any order.  In their own order they come down to
functions one behind the other: the tokens of the source, their document, its page, and the page after the render
hooks (`compile_result`).  Nothing else of the record reaches the result, and neither does the verbosity.

## What it takes

The highlighter and the hooks are not the program's own and may fail, and then their fault is the result
(`Compilation.finish`).  Nothing else fails: the source is read to its end (`TokenStream.ofSource_eq`), so a source is
compiled to a page if there are no plugins and the highlighter, where code is coloured, does its work
(`exists_compile_page`).
-/

namespace AtMark

namespace Compilation

variable {c : Compilation} {stream : TokenStream}

/-- A page after the render hooks, if there is one. -/
def finish (plugins : Option (List Plugin)) (page : Except RenderFault Text) : Except CompileError Text :=
  match page, plugins with
  | .error fault, _ => .error (.render fault)
  | .ok page, none => .ok page
  | .ok page, some plugins => (Plugin.pageOf (Plugin.runOnText plugins page)).mapError .hook

theorem tokenize_eq
    (h : TokenStream.ofSource c.settings.fencedDirectives c.settings.stuckLimit c.source = .ok stream) :
    c.tokenize = ⟨.ok { c with tokens := some stream.tokens },
      stream.notices ++ [.tokenized stream.tokens.length], []⟩ := by
  rw [tokenize, h]

theorem hooks_result (c : Compilation) : c.hooks.result.map html = finish c.plugins (.ok c.html) := by
  unfold hooks finish
  cases c.plugins with
  | none => rfl
  | some plugins =>
      dsimp only
      cases Plugin.pageOf (Plugin.runOnText plugins c.html) with
      | ok page => rfl
      | error fault => rfl

theorem render_eq_of_ok {host : Host} {document : Node} {page : Text} (hdocument : c.document = some document)
    (hpage : (c.renderer host).page document = .ok page) :
    c.render host = ⟨.ok { c with html := page },
      (c.renderer host).notices document ++ [.rendered page.length], []⟩ := by
  rw [render, hdocument]
  dsimp only
  rw [hpage]

theorem render_eq_of_error {host : Host} {document : Node} {fault : RenderFault}
    (hdocument : c.document = some document) (hpage : (c.renderer host).page document = .error fault) :
    c.render host = ⟨.error (.render fault), (c.renderer host).notices document, []⟩ := by
  rw [render, hdocument]
  dsimp only
  rw [hpage]

theorem runAll_result
    (h : TokenStream.ofSource c.settings.fencedDirectives c.settings.stuckLimit c.source = .ok stream)
    (host : Host) :
    (c.runAll host Stage.all).result.map html =
      finish c.plugins ((c.renderer host).page (Document.ofTokens stream.tokens)) := by
  -- With tokens there is a tree, and with a tree it is the renderer that decides whether there is a page.
  let parsed : Compilation :=
    { c with tokens := some stream.tokens, document := some (Document.ofTokens stream.tokens) }
  have hparsed : (c.runAll host Stage.all).result = (runAll host [.render, .hooks] parsed).result := by
    rw [Stage.all, runAll, run, tokenize_eq h]
    rfl
  rw [hparsed, runAll, run]
  cases hpage : (c.renderer host).page (Document.ofTokens stream.tokens) with
  | error fault =>
      rw [render_eq_of_error (c := parsed) rfl hpage]
      rfl
  | ok page =>
      rw [render_eq_of_ok (c := parsed) rfl hpage]
      -- With a page the hooks decide.
      let rendered : Compilation := { parsed with html := page }
      have hlast : (runAll host [.hooks] rendered).result = rendered.hooks.result := by
        rw [runAll, run]
        cases rendered.hooks.result with
        | ok c' => rfl
        | error e => rfl
      exact (congrArg (Except.map html) hlast).trans (hooks_result rendered)

end Compilation

/-- The result of a compilation depends on the settings, the tokens of the source, the host and the plugins. -/
theorem compile_result {settings : Settings} {source : Source} {stream : TokenStream}
    (h : TokenStream.ofSource settings.fencedDirectives settings.stuckLimit source = .ok stream)
    (host : Host) (plugins : Option (List Plugin)) (verbosity : Int) :
    (compile host source settings plugins verbosity).result =
      Compilation.finish plugins
        (({ host, options := settings.renderOptions } : Renderer).page (Document.ofTokens stream.tokens)) :=
  Compilation.runAll_result (c := .start source settings plugins (settings.verbosity verbosity)) h host

/-- Without plugins there is a page, if the highlighter does not fail where it is asked for. -/
theorem exists_compile_page {host : Host} {settings : Settings}
    (h : settings.highlightCode = true → host.highlighter.NeverFails) (source : Source) (verbosity : Int) :
    ∃ head body, (compile host source settings none verbosity).result = .ok (Renderer.assemble head body) := by
  have hstream := TokenStream.ofSource_eq settings.fencedDirectives settings.stuckLimit source
  obtain ⟨body, hpage⟩ := Renderer.exists_page host settings.renderOptions h (Document.ofTokens
    (TokenStream.unguarded settings.fencedDirectives ⟨source.decode, none⟩).counted.tokens)
  have hresult := compile_result hstream host none verbosity
  rw [hpage] at hresult
  exact ⟨_, body, hresult⟩

end AtMark
