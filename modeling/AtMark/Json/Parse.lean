import AtMark.Json.Token

/-!
# `Json.Parse`: reading JSON text

Tokens are fed one by one to an automaton with a stack of the arrays and objects that are still open.  A
text is read when all its tokens are taken and one value is complete with nothing open.
-/

namespace AtMark.Json

/-- An array or object that is still open, with its items so far, the last one first. -/
inductive Frame where
  | array (items : List Json)
  | object (entries : List (Text × Json)) (name : Text)
deriving Repr

/-- What the automaton waits for. -/
inductive State where
  /-- A value. -/
  | value (stack : List Frame)
  /-- The first item of an array, or its end. -/
  | firstItem (stack : List Frame)
  /-- The first name of an object, or its end. -/
  | firstName (stack : List Frame)
  /-- A further name of an object. -/
  | name (entries : List (Text × Json)) (stack : List Frame)
  /-- The colon behind a name. -/
  | colon (entries : List (Text × Json)) (name : Text) (stack : List Frame)
  /-- A comma or an end behind a value. -/
  | behind (value : Json) (stack : List Frame)
deriving Repr

/-- The state behind a token that begins a value. -/
def State.begin (stack : List Frame) : Token → Option State
  | .openArray => some (.firstItem stack)
  | .openObject => some (.firstName stack)
  | .string s => some (.behind (.string s) stack)
  | .atom v => some (.behind v stack)
  | _ => none

/-- The state behind a token. -/
def State.step : State → Token → Option State
  | value stack, t => State.begin stack t
  | firstItem stack, .closeArray => some (.behind (.array []) stack)
  | firstItem stack, t => State.begin (.array [] :: stack) t
  | firstName stack, .closeObject => some (.behind (.object []) stack)
  | firstName stack, .string s => some (.colon [] s stack)
  | name entries stack, .string s => some (.colon entries s stack)
  | colon entries n stack, .colon => some (.value (.object entries n :: stack))
  | behind v (.array items :: stack), .comma => some (.value (.array (v :: items) :: stack))
  | behind v (.array items :: stack), .closeArray =>
      some (.behind (.array (v :: items).reverse) stack)
  | behind v (.object entries n :: stack), .comma => some (.name ((n, v) :: entries) stack)
  | behind v (.object entries n :: stack), .closeObject =>
      some (.behind (.object ((n, v) :: entries).reverse) stack)
  | _, _ => none

/-- The value that is complete, if nothing is open. -/
def State.result : State → Option Json
  | behind v [] => some v
  | _ => none

/-- The value of a JSON text. -/
def parse (s : Text) : Option Json := do
  let final ← (← tokens s).foldlM State.step (State.value [])
  final.result

end AtMark.Json
