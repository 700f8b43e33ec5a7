import AtMark.Asset.Lock
import AtMark.Highlight

/-!
# `Host`: what a rendering finds where it runs

A page does not depend on the document and the options alone.  The versions of vendored assets are looked up in a
file, code is coloured by a highlighter from outside, and handlers that have other nodes rendered can be at work
inside each other only so deep.  None of this is fixed here.
-/

namespace AtMark

/-- The files, the highlighter, and how many handlers may be at work inside the handler of a node. -/
structure Host where
  files : Files
  highlighter : Highlighter
  nesting : Nat

end AtMark
