import AtMark.Style.Declaration
import AtMark.Text.Lines

/-!
# `Style.Rule`: global style rules

A global style body holds one rule a line, `selector: declarations`.  A bare selector is a class name.
-/

namespace AtMark.Style

open Search Text

/-- A line of a global style body. -/
inductive RuleLine where
  | blank
  | withoutSelector (line : Text)
  | rule (selector : Text) (parts : List Part)
deriving DecidableEq, Repr

/-- A selector as CSS: a bare name is that of a class. -/
def normalizeSelector (selector : Text) : Text :=
  match selector with
  | '.' :: _ => selector
  | '#' :: _ => selector
  | _ => '.' :: selector

namespace RuleLine

/-- The reading of a line. -/
def ofLine (line : Text) : RuleLine :=
  let core := strip line
  if core = [] then blank
  else
    match breakOn [':'] core with
    | none => withoutSelector core
    | some (selector, body) =>
      if strip selector = [] then withoutSelector core else rule (strip selector) (parts body)

/-- The rule of a line as CSS. -/
def css? : RuleLine → Option Text
  | blank => none
  | withoutSelector _ => none
  | rule selector parts =>
    some (normalizeSelector selector ++ " \x7b" ++
      (parts.filterMap Part.pair?).flatMap (fun d => ' ' :: declarationText d) ++ " \x7d")

/-- What is reported about a line. -/
def notices : RuleLine → List Notice
  | blank => []
  | withoutSelector line => [.ruleWithoutSelector line]
  | rule _ parts => parts.flatMap Part.notices

end RuleLine

/-- The lines of a global style body, as they are read. -/
def ruleLines (body : Text) : List RuleLine :=
  (lines body).map RuleLine.ofLine

/-- The rules of a global style body as CSS. -/
def rules (body : Text) : List Text :=
  (ruleLines body).filterMap RuleLine.css?

/-- What is reported about a global style body. -/
def ruleNotices (body : Text) : List Notice :=
  (ruleLines body).flatMap RuleLine.notices

end AtMark.Style
