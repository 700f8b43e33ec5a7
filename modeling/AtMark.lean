import AtMark.Compilation
import AtMark.Hook.Edit
import AtMark.Position.Reader
import AtMark.Render.Session
import AtMark.Settings.Reading
import AtMark.Proofs.Asset
import AtMark.Proofs.Compilation.Stage
import AtMark.Proofs.Compilation.Verbosity
import AtMark.Proofs.Document.Concatenation
import AtMark.Proofs.Document.Escape
import AtMark.Proofs.Document.Heading
import AtMark.Proofs.Document.Paragraph
import AtMark.Proofs.Document.Part
import AtMark.Proofs.Document.Sentence
import AtMark.Proofs.Highlight.Markup
import AtMark.Proofs.Highlight.Name
import AtMark.Proofs.Hook
import AtMark.Proofs.Inline
import AtMark.Proofs.Inline.Attribute
import AtMark.Proofs.Inline.AttributeList
import AtMark.Proofs.Inline.Backslash
import AtMark.Proofs.Inline.Brace
import AtMark.Proofs.Inline.Code
import AtMark.Proofs.Inline.CodeRegion
import AtMark.Proofs.Inline.CodeSpan
import AtMark.Proofs.Inline.Emphasis
import AtMark.Proofs.Inline.Entity
import AtMark.Proofs.Inline.Link
import AtMark.Proofs.Inline.Nesting
import AtMark.Proofs.Inline.Styled
import AtMark.Proofs.Position.Invariant
import AtMark.Proofs.Position.Limit
import AtMark.Proofs.Position.Round
import AtMark.Proofs.Position.Run
import AtMark.Proofs.Render.Head
import AtMark.Proofs.Render.Level
import AtMark.Proofs.Render.Order
import AtMark.Proofs.Render.Session
import AtMark.Proofs.Render.Value
import AtMark.Proofs.Style.Alias
import AtMark.Proofs.Style.Body
import AtMark.Proofs.Style.Inline
import AtMark.Proofs.Style.Rule
import AtMark.Proofs.Text.Utf8
import AtMark.Proofs.Token.Concatenation
import AtMark.Proofs.Token.Escape
import AtMark.Proofs.Token.LineBreak
import AtMark.Proofs.Token.OpenFence
import AtMark.Proofs.Token.Order
import AtMark.Proofs.Token.Recovery
import AtMark.Proofs.Token.RoundTrip
import AtMark.Proofs.Token.Slice
import AtMark.Proofs.Token.Verbatim
