import AtMark.Text.Basic

/-!
# `Asset.Path`: paths of files

A path is shown and looked up in a normal form: no empty part and no part that is a single dot, and a dot
for a path of no parts.  Two slashes at the start are kept apart from one, three or more are one.
-/

namespace AtMark.Path

/-- The slashes that a path begins with, in normal form. -/
def root : Text → Text
  | '/' :: '/' :: '/' :: _ => "/"
  | '/' :: '/' :: _ => "//"
  | '/' :: _ => "/"
  | _ => []

/-- The parts of a path between slashes that name something. -/
def parts (path : Text) : List Text :=
  (path.splitOn '/').filter fun part => part ≠ [] ∧ part ≠ ['.']

/-- The normal form of a path. -/
def normalize (path : Text) : Text :=
  let whole := root path ++ List.intercalate ['/'] (parts path)
  if whole = [] then "." else whole

end AtMark.Path
