import AtMark.Notice
import AtMark.Search
import AtMark.Table
import AtMark.Text.Blank
import AtMark.Text.Lines

/-!
# `Style.Alias`: names for lists of classes

The body of a style definition holds one alias a line, `name: classes`.  The table of aliases grows from
body to body, and a repeated name takes the new classes.
-/

namespace AtMark.Style

open Search Text

/-- A line of a style definition. -/
inductive AliasLine where
  | blank
  | ignored (line : Text)
  | definition (name classes : Text)
deriving DecidableEq, Repr

namespace AliasLine

/-- Words joined by single spaces. -/
def joinWords (words : List Text) : Text :=
  List.intercalate [' '] words

/-- The reading of a line. -/
def ofLine (line : Text) : AliasLine :=
  let core := strip line
  if core = [] then blank
  else
    match breakOn [':'] core with
    | none => ignored core
    | some (name, classes) =>
      if strip name = [] then ignored core
      else definition (strip name) (joinWords (words classes))

/-- The name and the classes of a definition. -/
def pair? : AliasLine → Option (Text × Text)
  | definition name classes => some (name, classes)
  | _ => none

/-- What is reported about a line. -/
def notices : AliasLine → List Notice
  | ignored line => [.aliasLineIgnored line]
  | _ => []

end AliasLine

/-- The lines of a style definition, as they are read. -/
def aliasLines (body : Text) : List AliasLine :=
  (lines body).map AliasLine.ofLine

/-- The table of aliases after the body of a style definition. -/
def extendAliases (table : Table) (body : Text) : Table :=
  table.putAll ((aliasLines body).filterMap AliasLine.pair?)

/-- What is reported about the body of a style definition. -/
def aliasNotices (body : Text) : List Notice :=
  (aliasLines body).flatMap AliasLine.notices

end AtMark.Style
