import AtMark.Text.Basic

/-!
# `Asset.Fault`: why a lock file cannot be used
-/

namespace AtMark

/-- Why a lock file cannot be used; each cause names the file.  What the system says of a file that cannot be
read, and what the reader of JSON says of one that holds none, stands behind the name. -/
inductive LockFault where
  | missing (path : Text)
  | unreadable (path report : Text)
  | malformed (path report : Text)
  | notMapping (path : Text)
deriving DecidableEq, Repr

/-- The wording of a fault. -/
def LockFault.message : LockFault → Text
  | missing path => "Vendor lock not found: " ++ path
  | unreadable path report => "Failed to read " ++ path ++ ": " ++ report
  | malformed path report => "Failed to parse " ++ path ++ ": " ++ report
  | notMapping path => path ++ " does not hold a mapping"

end AtMark
