import AtMark.Source
import AtMark.Token.Line
import AtMark.Token.Stuck

/-!
# `Token.Stream`: the tokens of a source

The source is read step by step: a fence takes its whole body, and outside a fence a line reader takes a
line.  A guard counts the idle steps, those after which the cursor has not moved, and stops the run when
they reach a limit; with the line reader of the markup (`LineReader.markup`) no step is idle, so the guard
never acts.  The run is over any line reader, since the guard's promise is about those that do not move.
-/

namespace AtMark

/-- A reader of lines outside a fence.  It may stand still, but never goes back. -/
structure LineReader where
  scan : Text → Step
  length_rest_le : ∀ s, (scan s).next.rest.length ≤ s.length

namespace LineReader

/-- The line reader of the markup, for the given fenced directives. -/
def markup (fenced : List Text) : LineReader :=
  ⟨Line.scan fenced, fun s => (Line.scan_rest_suffix fenced s).length_le⟩

/-- The line reader that reads nothing. -/
def frozen : LineReader :=
  ⟨fun s => ⟨[], [], ⟨s, none⟩⟩, fun _ => Nat.le_refl _⟩

/-- One step from a cursor. -/
def step (reader : LineReader) (cursor : Cursor) : Step :=
  match cursor.fence with
  | some directive => Fence.scan directive cursor.rest
  | none => reader.scan cursor.rest

theorem length_step_rest_le (reader : LineReader) (cursor : Cursor) :
    (reader.step cursor).next.rest.length ≤ cursor.rest.length := by
  unfold step
  split
  · exact (Fence.read_rest_suffix cursor.rest).length_le
  · exact reader.length_rest_le cursor.rest

end LineReader

/-- Tokens with the notices of their reading. -/
structure TokenStream where
  tokens : List Token
  notices : List Notice
deriving DecidableEq, Repr

namespace TokenStream

/-- Puts what a step yields before the rest of a stream. -/
def after (step : Step) (stream : TokenStream) : TokenStream :=
  ⟨step.tokens ++ stream.tokens, step.notices ++ stream.notices⟩

/-- The stream where nothing is left to read. -/
def atEnd (fence : Option Text) : TokenStream :=
  ⟨[], fence.toList.map .fenceOpenAtEnd⟩

/-- Reads from a cursor to the end of the source, after so many idle steps. -/
def run (reader : LineReader) (source : Text) (limit : Int) (idle : Nat) (cursor : Cursor) :
    Except Stuck TokenStream :=
  if cursor.rest = [] then .ok (atEnd cursor.fence)
  else if _ : (reader.step cursor).next.rest.length < cursor.rest.length then
    (run reader source limit 0 (reader.step cursor).next).map (after (reader.step cursor))
  else if _ : (idle : Int) + 1 < limit then
    (run reader source limit (idle + 1) (reader.step cursor).next).map
      (after (reader.step cursor))
  else .error (Stuck.atPosition source limit (source.length - cursor.rest.length))
termination_by (cursor.rest.length, (limit - idle).toNat)
decreasing_by
  · exact Prod.Lex.left _ _ ‹_›
  · have := reader.length_step_rest_le cursor
    have heq : (reader.step cursor).next.rest.length = cursor.rest.length := by omega
    rw [heq]
    exact Prod.Lex.right _ (by omega)

/-- Adds the count of the tokens to the notices. -/
def counted (stream : TokenStream) : TokenStream :=
  ⟨stream.tokens, stream.notices ++ [.scanned stream.tokens.length]⟩

/-- The stream that a line reader yields from a cursor. -/
def read (reader : LineReader) (source : Text) (limit : Int) (cursor : Cursor) :
    Except Stuck TokenStream :=
  (run reader source limit 0 cursor).map counted

/-- The stream of a text. -/
def ofText (fenced : List Text) (limit : Int) (source : Text) : Except Stuck TokenStream :=
  read (LineReader.markup fenced) source limit ⟨source, none⟩

/-- The stream of a document as it comes in. -/
def ofSource (fenced : List Text) (limit : Int) (source : Source) : Except Stuck TokenStream :=
  ofText fenced limit source.decode

/-- The idle steps allowed unless another limit is given. -/
def defaultLimit : Int := 1000

end TokenStream
end AtMark
