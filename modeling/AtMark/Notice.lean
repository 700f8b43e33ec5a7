import AtMark.Asset.Fault
import AtMark.Node.Kind
import AtMark.Token

/-!
# `Notice`: what is reported beside a result

Reading never fails on odd markup; it recovers and says so.  A notice is the cause of such a report, kept as
data beside the result, so that the result never depends on who listens.  `Notice.entry` gives the level and
the wording: level 1 for a problem that the output shows, 2 for recovered input, 3 for a trace.

A journal keeps the entries that pass its gate: with verbosity `v` bound, those of level at most `v`; with
nothing bound, none.
-/

namespace AtMark

/-- A message with its level. -/
structure Entry where
  level : Int
  message : Text
deriving DecidableEq, Repr

/-- The causes of reports. -/
inductive Notice where
  | unterminatedList (directive : Text)
  | fenceFlushed (directive : Text) (lines : Nat)
  | fenceOpenAtEnd (directive : Text)
  | scanned (tokens : Nat)
  | tokenized (tokens : Nat)
  | unknownDirective (directive : Text)
  | bodyInterrupted (directive next : Text)
  | strayToken (kind : TokenKind) (lexeme : Text)
  | parsed (nodes : Nat)
  | rendering
  | aliasLineIgnored (line : Text)
  | aliasesCollected (count : Nat)
  | ruleWithoutSelector (line : Text)
  | declarationIgnored (part : Text)
  | unresolvedAlias (name : Text)
  | invalidLevel (raw : Text)
  | unknownLanguage (language : Text)
  | noHandler (kind : NodeKind)
  | headOnly (kind : NodeKind) (description : Text)
  | assetsUnavailable (fault : LockFault)
  | missingEntry (path key : Text)
  | registering (plugin : Text)
  | hookApplied (plugin : Text)
  | rendered (characters : Nat)
  | noDocument
deriving DecidableEq, Repr

namespace Notice

/-- A text in single quotes. -/
def quote (s : Text) : Text :=
  "'" ++ s ++ "'"

/-- How much a notice matters. -/
def level : Notice → Int
  | noDocument => 1
  | scanned _ | strayToken .. | aliasesCollected _ | headOnly .. | registering _ | hookApplied _ => 3
  | _ => 2

/-- The wording of a notice. -/
def message : Notice → Text
  | unterminatedList directive =>
      "Unterminated parameter list for " ++ directive ++ "; recovered at end of line"
  | fenceFlushed directive lines =>
      "Unterminated " ++ directive ++ " block; flushed " ++ Text.ofNat lines ++ " line(s)"
  | fenceOpenAtEnd directive => "Unterminated " ++ directive ++ " block at end of input"
  | scanned tokens | tokenized tokens => "Tokenized " ++ Text.ofNat tokens ++ " tokens"
  | unknownDirective directive => "Unknown directive " ++ quote directive ++ " treated as content"
  | bodyInterrupted directive next =>
      directive ++ " body interrupted by " ++ next ++ "; missing @end"
  | strayToken kind lexeme => "Skipping stray " ++ kind.name ++ " token " ++ quote lexeme
  | parsed nodes => "Parsed " ++ Text.ofNat nodes ++ " top-level nodes"
  | rendering => "Rendering HTML..."
  | aliasLineIgnored line => "Ignoring style alias line " ++ quote line
  | aliasesCollected count => "Collected " ++ Text.ofNat count ++ " style aliases"
  | ruleWithoutSelector line => "Ignoring global style line without selector: " ++ quote line
  | declarationIgnored part => "Ignoring style declaration " ++ quote part
  | unresolvedAlias name => "Unresolved style alias " ++ quote name
  | invalidLevel raw => "Invalid heading level " ++ quote raw ++ ", using 1"
  | unknownLanguage language =>
      "No highlighter for language " ++ quote language ++ ", using plain text"
  | noHandler kind => "No handler for " ++ kind.name ++ " node"
  | headOnly kind description => kind.name ++ " node is head-only (" ++ description ++ ")"
  | assetsUnavailable fault => "No vendored assets: " ++ fault.message
  | missingEntry path key => path ++ " has no " ++ quote key ++ " entry"
  | registering plugin => "Registering plugin " ++ quote plugin
  | hookApplied plugin => "Applied render hook " ++ quote plugin
  | rendered characters => "Rendered " ++ Text.ofNat characters ++ " characters of HTML"
  | noDocument => "No document to render"

/-- The level and the wording. -/
def entry (n : Notice) : Entry :=
  ⟨n.level, n.message⟩

end Notice

/-- The lines reported so far and the verbosity that gates the next ones, if one is bound. -/
structure Journal where
  gate : Option Int := none
  lines : List Text := []
deriving DecidableEq, Repr

namespace Journal

/-- Does an entry pass the gate? -/
def passes : Option Int → Entry → Bool
  | none, _ => false
  | some verbosity, e => e.level ≤ verbosity

/-- Binds a verbosity, or unbinds it. -/
def bind (j : Journal) (verbosity : Option Int) : Journal :=
  { j with gate := verbosity }

/-- Reports an entry. -/
def report (j : Journal) (e : Entry) : Journal :=
  if passes j.gate e then { j with lines := j.lines ++ [e.message] } else j

/-- Reports the entries of some notices in turn. -/
def reportAll (j : Journal) (notices : List Notice) : Journal :=
  notices.foldl (fun j n => j.report n.entry) j

end Journal
end AtMark
