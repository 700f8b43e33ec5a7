import AtMark.Proofs.Compilation

/-!
# `Proofs.Compilation.Verbosity`: who listens does not matter

## What is proved

A compilation carries its verbosity from stage to stage, and every stage binds it to the journal before it
reports.  No stage asks for it.  So with another verbosity every stage does the same, the record that it hands
on differs in the verbosity alone (`run_withVerbosity`), and a run of stages has the same result, the same
notices and the same calls of hooks (`runAll_withVerbosity`).  What is logged of a run are those of its notices
that the verbosity lets through, also if the run ends in an error (`lines_journal`); at a lower verbosity these
are the ones of lower level among those logged at a higher one (`compile_verbosity`).

The host is any, and nothing is assumed of it.  The highlighter may fail, and its fault is then the same at both
verbosities; which languages it knows decides what is reported, and the two reports agree; a lock file that cannot be
used is reported in the same words.

## What is not

What the highlighter and the hooks may log themselves.  They are given no verbosity and no journal.
-/

namespace AtMark

/-! ## What a journal takes up -/

namespace Journal

/-- The entries of some notices that pass a gate. -/
def passing (gate : Option Int) (notices : List Notice) : List Entry :=
  (notices.map Notice.entry).filter (passes gate)

theorem passing_cons (gate : Option Int) (n : Notice) (notices : List Notice) :
    passing gate (n :: notices) =
      if passes gate n.entry then n.entry :: passing gate notices else passing gate notices :=
  List.filter_cons

theorem passing_append (gate : Option Int) (notices more : List Notice) :
    passing gate (notices ++ more) = passing gate notices ++ passing gate more := by
  simp only [passing, List.map_append, List.filter_append]

theorem passing_of_le {low high : Int} (h : low ≤ high) (notices : List Notice) :
    passing (some low) notices = (passing (some high) notices).filter (passes (some low)) := by
  rw [passing, passing, List.filter_filter]
  refine List.filter_congr fun e _ => ?_
  simp only [passes]
  by_cases hlow : e.level ≤ low
  · simp [hlow, Int.le_trans hlow h]
  · simp [hlow]

theorem gate_report (j : Journal) (e : Entry) : (j.report e).gate = j.gate := by
  unfold report
  split
  · rfl
  · rfl

theorem lines_reportAll (j : Journal) (notices : List Notice) :
    (j.reportAll notices).lines = j.lines ++ (passing j.gate notices).map Entry.message := by
  induction notices generalizing j with
  | nil => exact (List.append_nil _).symm
  | cons n rest ih =>
      show ((j.report n.entry).reportAll rest).lines = _
      rw [ih, gate_report, passing_cons, report]
      split
      · rw [List.append_assoc, List.map_cons, List.singleton_append]
      · rfl

end Journal

/-! ## Stages at another verbosity -/

/-- An outcome with another result. -/
def Outcome.map {α β : Type} (f : α → β) (o : Outcome α) : Outcome β :=
  ⟨o.result.map f, o.notices, o.calls⟩

namespace Compilation

variable {host : Host}

/-- The compilation with another verbosity. -/
def withVerbosity (verbosity : Int) (c : Compilation) : Compilation :=
  { c with verbosity }

/-- A stage does the same at every verbosity. -/
theorem run_withVerbosity (verbosity : Int) (c : Compilation) (stage : Stage) :
    (c.withVerbosity verbosity).run host stage =
      (c.run host stage).map (withVerbosity verbosity) := by
  obtain ⟨source, settings, plugins, _, tokens, document, html⟩ := c
  cases stage with
  | tokenize =>
      simp only [run, tokenize, withVerbosity]
      cases TokenStream.ofSource settings.fencedDirectives settings.stuckLimit source with
      | ok stream => rfl
      | error report => rfl
  | parse => rfl
  | render =>
      cases document with
      | none => rfl
      | some document =>
          simp only [run, render, withVerbosity, renderer]
          cases ({ host, options := settings.renderOptions } : Renderer).page document with
          | ok page => rfl
          | error fault => rfl
  | hooks =>
      cases plugins with
      | none => rfl
      | some plugins =>
          simp only [run, hooks, withVerbosity]
          cases Plugin.pageOf (Plugin.runOnText plugins html) with
          | ok page => rfl
          | error fault => rfl

/-- A stage hands on the verbosity that it was given. -/
theorem verbosity_of_run {stage : Stage} {c c' : Compilation}
    (h : (c.run host stage).result = .ok c') : c'.verbosity = c.verbosity := by
  have hsame : c.run host stage = (c.run host stage).map (withVerbosity c.verbosity) :=
    run_withVerbosity c.verbosity c stage
  have hset : Except.ok (c'.withVerbosity c.verbosity) = (.ok c' : Except CompileError Compilation) := by
    rw [← h, hsame, Outcome.map, h]
    rfl
  exact (congrArg verbosity (Except.ok.inj hset)).symm

theorem runAll_withVerbosity (verbosity : Int) (stages : List Stage) (c : Compilation) :
    (c.withVerbosity verbosity).runAll host stages =
      (c.runAll host stages).map (withVerbosity verbosity) := by
  induction stages generalizing c with
  | nil => rfl
  | cons stage rest ih =>
      simp only [runAll, run_withVerbosity, Outcome.map]
      cases (c.run host stage).result with
      | ok c' =>
          simp only [Except.map, ih, Outcome.map]
      | error e => rfl

/-- Whatever was bound before, stages log those of their notices that their verbosity lets through. -/
theorem lines_journal (stages : List Stage) (c : Compilation) (j : Journal) :
    (c.journal host stages j).lines =
      j.lines ++ (Journal.passing (some c.verbosity) (c.runAll host stages).notices).map
        Entry.message := by
  induction stages generalizing c j with
  | nil => exact (List.append_nil _).symm
  | cons stage rest ih =>
      have hstage : ((j.bind (some c.verbosity)).reportAll (c.run host stage).notices).lines =
          j.lines ++ (Journal.passing (some c.verbosity) (c.run host stage).notices).map
            Entry.message := Journal.lines_reportAll ..
      rw [journal, runAll]
      cases hrun : (c.run host stage).result with
      | ok c' =>
          dsimp only
          rw [ih, hstage, verbosity_of_run hrun, Journal.passing_append, List.map_append,
            List.append_assoc]
      | error e => exact hstage

end Compilation

/-! ## Compilations at two verbosities -/

theorem compile_withVerbosity (host : Host) (source : Source) (settings : Settings)
    (plugins : Option (List Plugin)) (low high : Int) :
    compile host source settings plugins low = compile host source settings plugins high := by
  have hrun : (Compilation.start source settings plugins (settings.verbosity low)).runAll host
      Stage.all = ((Compilation.start source settings plugins (settings.verbosity high)).runAll host
        Stage.all).map (Compilation.withVerbosity (settings.verbosity low)) :=
    Compilation.runAll_withVerbosity (settings.verbosity low) Stage.all
      (.start source settings plugins (settings.verbosity high))
  rw [compile, compile, hrun]
  dsimp only [Outcome.map]
  cases ((Compilation.start source settings plugins (settings.verbosity high)).runAll host
      Stage.all).result with
  | ok c => rfl
  | error e => rfl

theorem Settings.verbosity_mono (settings : Settings) {low high : Int} (h : low ≤ high) :
    settings.verbosity low ≤ settings.verbosity high := by
  unfold Settings.verbosity
  split <;> omega

/-- The entries logged when a source is compiled. -/
def compileEntries (host : Host) (source : Source) (settings : Settings)
    (plugins : Option (List Plugin)) (verbosity : Int) : List Entry :=
  Journal.passing (some (settings.verbosity verbosity))
    (compile host source settings plugins verbosity).notices

/-- At two verbosities a compilation has the same result, page or error, and calls the same hooks on the same
bytes.  What it adds to a journal, whichever, is the wording of its entries, and those of the lower verbosity
are the ones of the higher whose level it reaches. -/
theorem compile_verbosity (host : Host) (source : Source) (settings : Settings)
    (plugins : Option (List Plugin)) {low high : Int} (h : low ≤ high) :
    (compile host source settings plugins low).result =
        (compile host source settings plugins high).result ∧
      (compile host source settings plugins low).calls =
        (compile host source settings plugins high).calls ∧
      (∀ verbosity j, (compileJournal host source settings plugins verbosity j).lines =
        j.lines ++ (compileEntries host source settings plugins verbosity).map Entry.message) ∧
      compileEntries host source settings plugins low =
        (compileEntries host source settings plugins high).filter
          fun e => e.level ≤ settings.verbosity low := by
  have hsame := compile_withVerbosity host source settings plugins low high
  refine ⟨congrArg Outcome.result hsame, congrArg Outcome.calls hsame, fun verbosity j => ?_, ?_⟩
  · exact Compilation.lines_journal Stage.all _ j
  · rw [compileEntries, compileEntries, hsame]
    exact Journal.passing_of_le (settings.verbosity_mono h) _

/-- Code in a language that the highlighter does not know, a hook that gives the page back and one that gives nothing
back: the compilation fails, and what was logged until then differs in the traces. -/
theorem compile_verbosity_hooks :
    let source := Source.text "@code(language=y)\nx\n@end"
    let settings : Settings := { highlightCode := true }
    let plugins : List Plugin :=
      [⟨"same", false, some .bytes⟩, ⟨"odd", false, some fun _ => .foreign .nothing⟩]
    (compile .plain source settings (some plugins) 2).result = .error (.hook ⟨"odd", .nothing⟩) ∧
      (compile .plain source settings (some plugins) 2).result =
        (compile .plain source settings (some plugins) 3).result ∧
      (compile .plain source settings (some plugins) 2).calls.map HookCall.plugin = ["same", "odd"] ∧
      compileEntries .plain source settings (some plugins) 2 =
        [⟨2, "Tokenized 5 tokens"⟩, ⟨2, "Parsed 1 top-level nodes"⟩, ⟨2, "Rendering HTML..."⟩,
          ⟨2, "No highlighter for language 'y', using plain text"⟩, ⟨2, "Rendered 172 characters of HTML"⟩] ∧
      compileEntries .plain source settings (some plugins) 3 =
        [⟨3, "Tokenized 5 tokens"⟩, ⟨2, "Tokenized 5 tokens"⟩, ⟨2, "Parsed 1 top-level nodes"⟩,
          ⟨2, "Rendering HTML..."⟩, ⟨3, "Collected 0 style aliases"⟩,
          ⟨2, "No highlighter for language 'y', using plain text"⟩, ⟨2, "Rendered 172 characters of HTML"⟩,
          ⟨3, "Applied render hook 'same'"⟩] := by
  intro source settings plugins
  let tokens : List Token :=
    [⟨.directive, "@code", false⟩, ⟨.parameterKey, "language", false⟩, ⟨.parameterValue, "y", false⟩,
      ⟨.content, "x", false⟩, Token.blockEnd]
  have hstream : TokenStream.ofSource Directive.defaultFenced 1000 source = .ok ⟨tokens, [.scanned 5]⟩ := by
    rw [TokenStream.ofSource_text _ _ (by decide)]
    exact congrArg Except.ok (by decide +kernel)
  have htokenize : ∀ v, (Compilation.start source settings (some plugins) v).tokenize =
      ⟨.ok { Compilation.start source settings (some plugins) v with tokens := some tokens },
        [.scanned 5, .tokenized 5], []⟩ :=
    fun v => Compilation.tokenize_eq (c := .start source settings (some plugins) v) hstream
  have hresult : (compile .plain source settings (some plugins) 2).result =
      .error (.hook ⟨"odd", .nothing⟩) := by
    rw [compile, Stage.all, Compilation.runAll, Compilation.run, htokenize]
    decide +kernel
  have hcalls : (compile .plain source settings (some plugins) 2).calls.map HookCall.plugin =
      ["same", "odd"] := by
    rw [compile, Stage.all, Compilation.runAll, Compilation.run, htokenize]
    decide +kernel
  have hhigh : compileEntries .plain source settings (some plugins) 3 =
      [⟨3, "Tokenized 5 tokens"⟩, ⟨2, "Tokenized 5 tokens"⟩, ⟨2, "Parsed 1 top-level nodes"⟩,
        ⟨2, "Rendering HTML..."⟩, ⟨3, "Collected 0 style aliases"⟩,
        ⟨2, "No highlighter for language 'y', using plain text"⟩, ⟨2, "Rendered 172 characters of HTML"⟩,
        ⟨3, "Applied render hook 'same'"⟩] := by
    rw [compileEntries, compile, Stage.all, Compilation.runAll, Compilation.run, htokenize]
    decide +kernel
  obtain ⟨hsame, -, -, hentries⟩ :=
    compile_verbosity .plain source settings (some plugins) (by decide : (2 : Int) ≤ 3)
  refine ⟨hresult, hsame, hcalls, ?_, hhigh⟩
  rw [hentries, hhigh]
  rfl

end AtMark
