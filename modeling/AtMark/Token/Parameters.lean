import AtMark.Search
import AtMark.Text.Blank
import AtMark.Text.Lines
import AtMark.Token
import AtMark.Token.Name

/-!
# `Token.Parameters`: the parameter list of a directive

A list stands between parentheses and holds items `key`, `key=bare` or `key="quoted"`, separated by commas
or blanks; it may run over several lines.  `scan` reads the items up to the closing parenthesis and says
whether it found one.  Characters that cannot begin a key are skipped one at a time.
-/

namespace AtMark

/-- An item of a parameter list.  A value is owned when it was made by resolving escapes; a key without
a value has the empty one. -/
structure Parameter where
  key : Text
  value : Text
  owned : Bool
deriving DecidableEq, Repr

namespace Parameter

/-- The two tokens of an item. -/
def tokens (p : Parameter) : List Token :=
  [⟨.parameterKey, p.key, false⟩, ⟨.parameterValue, p.value, p.owned⟩]

end Parameter

/-- A quoted value, read from behind its opening quote. -/
structure Quoted where
  value : Text
  owned : Bool
  rest : Text
deriving DecidableEq, Repr

namespace Quoted

/-- Puts a character before the value. -/
def cons (c : Char) (q : Quoted) : Quoted :=
  { q with value := c :: q.value }

/-- Marks the value as made by the reader. -/
def own (q : Quoted) : Quoted :=
  { q with owned := true }

/-- Reads a value up to its closing quote; a backslash stands before a character that is taken as it is.
An unclosed value runs to the end. -/
def read : Text → Quoted
  | [] => ⟨[], false, []⟩
  | '"' :: cs => ⟨[], false, cs⟩
  | '\\' :: c :: cs => ((read cs).cons c).own
  | c :: cs => (read cs).cons c

theorem rest_suffix (s : Text) : (read s).rest <:+ s := by
  fun_induction read s with
  | case1 => exact List.suffix_refl _
  | case2 cs => exact List.suffix_cons _ _
  | case3 c cs ih => exact ih.trans ((List.suffix_cons _ _).trans (List.suffix_cons _ _))
  | case4 c cs _ _ ih => exact ih.trans (List.suffix_cons _ _)

end Quoted

namespace Parameters

open Text

/-- The characters of a value without quotes. -/
def isBare (c : Char) : Bool :=
  !isBlank c && c != ',' && c != ')'

/-- The value of a key, read from behind the equals sign. -/
def readValue (s : Text) : Quoted :=
  match s.dropWhile isIndent with
  | '"' :: cs => Quoted.read cs
  | cs => ⟨cs.takeWhile isBare, false, cs.dropWhile isBare⟩

/-- The value of a key, read from behind the key: empty, with nothing consumed, unless an equals sign
follows. -/
def readAssigned (s : Text) : Quoted :=
  match s.dropWhile isIndent with
  | '=' :: cs => readValue cs
  | _ => ⟨[], false, s⟩

/-- Items up to the end of a list, what follows them, and whether a closing parenthesis ended them. -/
structure Scan where
  items : List Parameter
  rest : Text
  closed : Bool
deriving DecidableEq, Repr

namespace Scan

/-- Puts an item before the others. -/
def cons (p : Parameter) (s : Scan) : Scan :=
  { s with items := p :: s.items }

/-- The tokens of the items. -/
def tokens (s : Scan) : List Token :=
  s.items.flatMap Parameter.tokens

end Scan

theorem readValue_rest_suffix (s : Text) : (readValue s).rest <:+ s := by
  have h := List.dropWhile_suffix isIndent (l := s)
  unfold readValue
  split
  · next cs hs =>
    rw [hs] at h
    exact (Quoted.rest_suffix cs).trans ((List.suffix_cons _ _).trans h)
  · exact (List.dropWhile_suffix isBare).trans h

theorem readAssigned_rest_suffix (s : Text) : (readAssigned s).rest <:+ s := by
  have h := List.dropWhile_suffix isIndent (l := s)
  unfold readAssigned
  split
  · next cs hs =>
    rw [hs] at h
    exact (readValue_rest_suffix cs).trans ((List.suffix_cons _ _).trans h)
  · exact List.suffix_refl s

/-- The item whose key begins with the given character, and what follows it. -/
def readItem (c : Char) (cs : Text) : Parameter × Text :=
  let assigned := readAssigned (Name.rest cs)
  (⟨c :: Name.take cs, assigned.value, assigned.owned⟩, assigned.rest)

theorem readItem_rest_suffix (c : Char) (cs : Text) : (readItem c cs).2 <:+ cs :=
  (readAssigned_rest_suffix _).trans (List.dropWhile_suffix Name.isNameChar)

/-- Reads the items of a list from behind its opening parenthesis. -/
def scan : Text → Scan
  | [] => ⟨[], [], false⟩
  | c :: cs =>
    if c = ')' then ⟨[], cs, true⟩
    else if Name.isNameChar c then (scan (readItem c cs).2).cons (readItem c cs).1
    else scan cs
termination_by s => s.length
decreasing_by
  · have := (readItem_rest_suffix c cs).length_le
    simp only [List.length_cons]
    omega
  · simp

theorem scan_rest_suffix (s : Text) : (scan s).rest <:+ s := by
  fun_induction scan s with
  | case1 => exact List.suffix_refl _
  | case2 cs => exact List.suffix_cons _ _
  | case3 c cs _ _ ih => exact ih.trans ((readItem_rest_suffix c cs).trans (List.suffix_cons _ _))
  | case4 c cs _ _ ih => exact ih.trans (List.suffix_cons _ _)

/-- Reads a list that need not be closed.  A list closed nowhere ends with its own line, so that a missing
parenthesis does not swallow the document. -/
def recover (s : Text) : Scan :=
  if (scan s).closed then scan s
  else ⟨(scan (firstLine s)).items, fromLineEnd s, false⟩

theorem recover_rest_suffix (s : Text) : (recover s).rest <:+ s := by
  unfold recover
  split
  · exact scan_rest_suffix s
  · exact fromLineEnd_suffix s

/-- A scan of the part of a source between two positions, with the position where it ended. -/
structure Window where
  tokens : List Token
  position : Nat
  terminated : Bool
deriving DecidableEq, Repr

/-- Scans the items of a list between two positions of a source.  A list that is not closed there ends at
the limit. -/
def scanBetween (source : Text) (position limit : Nat) : Window :=
  let window := (source.take limit).drop position
  let found := scan window
  ⟨found.tokens,
   if found.closed then position + (window.length - found.rest.length) else limit,
   found.closed⟩

/-- Reads a list from a position of a source to where it ends, closed or recovered. -/
def recoverAt (source : Text) (position : Nat) : Window :=
  let found := recover (source.drop position)
  ⟨found.tokens, source.length - found.rest.length, found.closed⟩

end Parameters

/-- Reads a quoted value between two positions of a source, the first behind its opening quote; with the
position where it ended. -/
def Quoted.readBetween (source : Text) (position limit : Nat) : Quoted × Nat :=
  let window := (source.take limit).drop position
  let found := read window
  (found, position + (window.length - found.rest.length))

end AtMark
