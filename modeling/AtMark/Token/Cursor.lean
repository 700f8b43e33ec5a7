import AtMark.Notice
import AtMark.Token

/-!
# `Token.Cursor`: where the reader stands

The reader goes from line to line.  Besides the text that is left it keeps one thing in mind: the directive
whose verbatim body, its fence, is open.  A step reads some of the text and leaves the cursor behind it.
-/

namespace AtMark

/-- What is left to read, and the directive whose fence is open. -/
structure Cursor where
  rest : Text
  fence : Option Text
deriving DecidableEq, Repr

/-- What one step of the reader yields. -/
structure Step where
  tokens : List Token
  notices : List Notice
  next : Cursor
deriving DecidableEq, Repr

end AtMark
