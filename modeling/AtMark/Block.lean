import AtMark.Node.Kind
import AtMark.Notice
import AtMark.Table
import AtMark.Token

/-!
# `Block`: tokens gathered into blocks

A list of tokens falls into blocks: a directive with its parameters, the text on its header line and, for
some directives, its body; a paragraph; or a token that belongs to nothing.  Every list of tokens has
blocks, and a directive always begins a new one, so a missing closing marker costs its own block only.
-/

namespace AtMark

/-- How the body of a directive came to its end. -/
inductive BodyEnd where
  | closed
  | interrupted (next : Text)
  | outOfTokens
deriving DecidableEq, Repr

/-- The body of a directive: its lines and how it ended. -/
structure BlockBody where
  lines : List Text
  ending : BodyEnd
deriving DecidableEq, Repr

/-- A directive with all that belongs to it.  The body is there exactly for the directives that bear one. -/
structure DirectiveBlock where
  name : Text
  parameters : List (Text × Text)
  header : Option Token
  body : Option BlockBody
deriving DecidableEq, Repr

/-- What a token list consists of. -/
inductive Block where
  | paragraph (text : Token)
  | directive (block : DirectiveBlock)
  | stray (token : Token)
deriving DecidableEq, Repr

namespace BlockBody

/-- Puts a line before the others. -/
def cons (line : Text) (b : BlockBody) : BlockBody :=
  { b with lines := line :: b.lines }

/-- Reads a body up to a closing marker, which it takes, or to the next directive, which it leaves.  Only
content counts. -/
def read : List Token → BlockBody × List Token
  | [] => (⟨[], .outOfTokens⟩, [])
  | t :: ts =>
    match t.kind with
    | .blockEnd => (⟨[], .closed⟩, ts)
    | .directive => (⟨[], .interrupted t.lexeme⟩, t :: ts)
    | .content => ((read ts).1.cons t.lexeme, (read ts).2)
    | _ => read ts

theorem read_rest_suffix (ts : List Token) : (read ts).2 <:+ ts := by
  fun_induction read ts with
  | case1 => exact List.suffix_refl _
  | case2 => exact List.suffix_cons _ _
  | case3 => exact List.suffix_refl _
  | case4 t ts _ ih => exact ih.trans (List.suffix_cons _ _)
  | case5 t ts _ _ _ ih => exact ih.trans (List.suffix_cons _ _)

end BlockBody

namespace DirectiveBlock

/-- The parameter pairs at the start. -/
def readParameters : List Token → List (Text × Text) × List Token
  | key :: value :: rest =>
    if key.kind = .parameterKey ∧ value.kind = .parameterValue then
      ((key.lexeme, value.lexeme) :: (readParameters rest).1, (readParameters rest).2)
    else ([], key :: value :: rest)
  | tokens => ([], tokens)

/-- The content token at the start, if one stands there. -/
def readHeader : List Token → Option Token × List Token
  | t :: rest => if t.kind = .content then (some t, rest) else (none, t :: rest)
  | [] => (none, [])

theorem readParameters_rest_suffix (ts : List Token) : (readParameters ts).2 <:+ ts := by
  fun_induction readParameters ts with
  | case1 key value rest _ ih =>
    exact ih.trans ((List.suffix_cons _ _).trans (List.suffix_cons _ _))
  | case2 => exact List.suffix_refl _
  | case3 => exact List.suffix_refl _

theorem readHeader_rest_suffix (ts : List Token) : (readHeader ts).2 <:+ ts := by
  unfold readHeader
  split
  · split
    · exact List.suffix_cons _ _
    · exact List.suffix_refl _
  · exact List.suffix_refl _

/-- Reads all that belongs to a directive, given the tokens behind it. -/
def read (name : Text) (ts : List Token) : DirectiveBlock × List Token :=
  let (parameters, ts) := readParameters ts
  let (header, ts) := readHeader ts
  if (Directive.kind name).bearsBody then
    let (body, ts) := BlockBody.read ts
    (⟨name, parameters, header, some body⟩, ts)
  else (⟨name, parameters, header, none⟩, ts)

theorem read_rest_suffix (name : Text) (ts : List Token) : (read name ts).2 <:+ ts := by
  have h := (readHeader_rest_suffix _).trans (readParameters_rest_suffix ts)
  unfold read
  dsimp only
  split
  · exact (BlockBody.read_rest_suffix _).trans h
  · exact h

/-- The text on the header line, with its flag; empty if there is none. -/
def headerText (b : DirectiveBlock) : Text × Bool :=
  match b.header with
  | some t => (t.lexeme, t.owned)
  | none => ([], false)

/-- The text of a directive: that on its header line and the lines of its body. -/
def text (b : DirectiveBlock) : Text × Bool :=
  match b.body with
  | some body => (Text.joinLines (b.header.toList.map (·.lexeme) ++ body.lines), true)
  | none => b.headerText

/-- What is reported about the end of a body. -/
def endNotices (b : DirectiveBlock) : List Notice :=
  match b.body with
  | some ⟨_, .interrupted next⟩ => [.bodyInterrupted b.name next]
  | _ => []

/-- What is reported about a directive. -/
def notices (b : DirectiveBlock) : List Notice :=
  (if Directive.isKnown b.name then [] else [.unknownDirective b.name]) ++ b.endNotices

end DirectiveBlock

namespace Block

/-- The blocks of a token list. -/
def ofTokens : List Token → List Block
  | [] => []
  | t :: ts =>
    match t.kind with
    | .directive =>
      directive (DirectiveBlock.read t.lexeme ts).1 :: ofTokens (DirectiveBlock.read t.lexeme ts).2
    | .content => paragraph t :: ofTokens ts
    | _ => stray t :: ofTokens ts
termination_by ts => ts.length
decreasing_by
  · have := (DirectiveBlock.read_rest_suffix t.lexeme ts).length_le
    simp only [List.length_cons]
    omega
  all_goals simp

/-- What is reported about a block. -/
def notices : Block → List Notice
  | paragraph _ => []
  | directive b => b.notices
  | stray t => [.strayToken t.kind t.lexeme]

end Block
end AtMark
