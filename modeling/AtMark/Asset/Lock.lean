import AtMark.Asset.Fault
import AtMark.Asset.Path
import AtMark.Json.Parse
import AtMark.Number.Layout
import AtMark.Text.Blank
import AtMark.Text.Utf8

/-!
# `Asset.Lock`: the versions that vendored assets are pinned to

A lock file holds a JSON object from asset names to versions.  A version is a text, a number, or an object
that holds one of these under `version`.  A blank file and `null` pin nothing.
-/

namespace AtMark

/-- What is found at a path: no file, a file that cannot be read, with what the system says of it, or the bytes of
a file. -/
inductive FileContent where
  | missing
  | unreadable (report : Text)
  | bytes (raw : Bytes)
deriving DecidableEq, Repr

/-- The files that can be found, by path in normal form, and what the reader of JSON says of bytes that hold none.
Its wording is not made here. -/
structure Files where
  find : Text → FileContent
  complaint : Bytes → Text

/-- No files at all. -/
def Files.empty : Files :=
  ⟨fun _ => .missing, fun _ => []⟩

/-- A lock file that was read. -/
structure Lock where
  path : Text
  entries : List (Text × Json)
deriving Repr

namespace Lock

open Text

/-- The entries that the bytes of a lock file hold. -/
def entriesOf (files : Files) (path : Text) (raw : Bytes) : Except LockFault (List (Text × Json)) :=
  match Utf8.decode? raw with
  | none => .error (.malformed path (files.complaint raw))
  | some content =>
    if allBlank content then .ok []
    else
      match Json.parse content with
      | none => .error (.malformed path (files.complaint raw))
      | some .null => .ok []
      | some (.object entries) => .ok entries
      | some _ => .error (.notMapping path)

/-- The lock file at a path. -/
def read (files : Files) (path : Text) : Except LockFault Lock :=
  let path := Path.normalize path
  match files.find path with
  | .missing => .error (.missing path)
  | .unreadable report => .error (.unreadable path report)
  | .bytes raw => (entriesOf files path raw).map (Lock.mk path)

/-- Versions given as numbers are written positionally from the fourth place behind the point up to sixteen
digits before it. -/
def layout : Layout where
  plainFrom := -4
  plainBelow := 16
  exponentWidth := 2

/-- The text of a version that is no object. -/
def plainVersion : Json → Option Text
  | .integer n => some (ofInt n)
  | .real x => some (layout.render x)
  | .string s => some s
  | _ => none

/-- The text of a version. -/
def versionText : Json → Option Text
  | .object entries => (Json.entry? entries "version").bind plainVersion
  | value => plainVersion value

/-- The version that an asset is pinned to; a blank one is none. -/
def version? (lock : Lock) (asset : Text) : Option Text :=
  (((Json.entry? lock.entries asset).bind versionText).map strip).filter (· ≠ [])

/-- How a lock is shown. -/
def description (lock : Lock) : Text :=
  "VendorLock(path='" ++ lock.path ++ "')"

end Lock
end AtMark
