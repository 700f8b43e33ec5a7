import AtMark.Html
import AtMark.Search
import AtMark.Table
import AtMark.Text.Blank
import AtMark.Text.Lower

/-!
# `Inline.SpanAttributes`: the attribute list of a style span

A list is read into items of a key and a value, and of the items only those with a known key count.  Keys
are compared without regard to case, and the last item of a key wins.  From the attributes comes the opening
tag of the span: its classes are given or looked up by name among the style aliases.
-/

namespace AtMark

/-- The attributes of a style span that mean something. -/
inductive SpanField where
  | name
  | classes
  | style
  | onClick
  | onHover
  | onFocus
deriving DecidableEq, Repr

/-- The keys that name a field. -/
def SpanField.keys : List (Text × SpanField) :=
  [("name", .name), ("class", .classes), ("classes", .classes), ("style", .style),
   ("on-click", .onClick), ("on-hover", .onHover), ("on-focus", .onFocus)]

/-- The field that a key names, in any case. -/
def SpanField.ofKey? (key : Text) : Option SpanField :=
  keys.lookup (Text.lower key)

/-- The attributes of a style span. -/
structure SpanAttributes where
  name : Option Text := none
  classes : Option Text := none
  style : Option Text := none
  onClick : Option Text := none
  onHover : Option Text := none
  onFocus : Option Text := none
deriving DecidableEq, Repr

namespace SpanAttributes

open Search Text

/-- Sets a field. -/
def set (a : SpanAttributes) (field : SpanField) (value : Text) : SpanAttributes :=
  match field with
  | .name => { a with name := some value }
  | .classes => { a with classes := some value }
  | .style => { a with style := some value }
  | .onClick => { a with onClick := some value }
  | .onHover => { a with onHover := some value }
  | .onFocus => { a with onFocus := some value }

/-- Sets the field that an item's key names; an item of another key changes nothing. -/
def setItem (a : SpanAttributes) (item : Text × Text) : SpanAttributes :=
  match SpanField.ofKey? item.1 with
  | some field => a.set field item.2
  | none => a

/-! ## Reading a list -/

/-- A list as it is read: an entity for the double quote stands for the quote itself. -/
def decodeQuotes (raw : Text) : Text :=
  replaceAll "&#34;" "\"" (replaceAll "&quot;" "\"" raw)

/-- What separates items. -/
def isSeparator (c : Char) : Bool :=
  isBlank c || c == ','

/-- What stands between a key and its value. -/
def isSign (c : Char) : Bool :=
  c == '=' || c == ':'

/-- The characters of a key. -/
def isKeyChar (c : Char) : Bool :=
  !isSeparator c && !isSign c && c != ')'

/-- The characters of a value without quotes. -/
def isBare (c : Char) : Bool :=
  !isSeparator c && c != ')'

/-- A text without a sign at its start. -/
def dropSign : Text → Text
  | [] => []
  | c :: cs => if isSign c then cs else c :: cs

/-- The value that begins with the given character, and what follows it.  An unclosed quotation runs to
the end. -/
def readValue (c : Char) (cs : Text) : Text × Text :=
  if isQuote c then (cs.takeWhile (· != c), (cs.dropWhile (· != c)).drop 1)
  else ((c :: cs).takeWhile isBare, (c :: cs).dropWhile isBare)

/-- The key that begins with the given character, empty if that is a sign, and what follows the sign behind
the key. -/
def readKey (c : Char) (cs : Text) : Text × Text :=
  if isSign c then ([], cs)
  else (c :: cs.takeWhile isKeyChar, dropSign ((cs.dropWhile isKeyChar).dropWhile isSeparator))

theorem dropSign_suffix (s : Text) : dropSign s <:+ s := by
  unfold dropSign
  split
  · exact List.suffix_refl _
  · split
    · exact List.suffix_cons _ _
    · exact List.suffix_refl _

theorem readKey_rest_suffix (c : Char) (cs : Text) : (readKey c cs).2 <:+ cs := by
  unfold readKey
  split
  · exact List.suffix_refl _
  · exact (dropSign_suffix _).trans ((List.dropWhile_suffix _).trans (List.dropWhile_suffix _))

theorem length_readValue_rest_le (c : Char) (cs : Text) :
    (readValue c cs).2.length ≤ (c :: cs).length := by
  unfold readValue
  split
  · have := (List.dropWhile_suffix (· != c) (l := cs)).length_le
    simp only [List.length_drop, List.length_cons]
    omega
  · exact (List.dropWhile_suffix isBare).length_le

/-- The items of a list, in order.  A key that nothing follows is no item. -/
def items (s : Text) : List (Text × Text) :=
  match _ : s.dropWhile isSeparator with
  | [] => []
  | c :: cs =>
    if c = ')' then items cs
    else
      match _ : (readKey c cs).2.dropWhile isSeparator with
      | [] => []
      | v :: vs => ((readKey c cs).1, (readValue v vs).1) :: items (readValue v vs).2
termination_by s.length
decreasing_by
  · have h := (List.dropWhile_suffix isSeparator (l := s)).length_le
    rw [‹s.dropWhile isSeparator = _›] at h
    exact h
  · have h₁ := (List.dropWhile_suffix isSeparator (l := s)).length_le
    have h₂ := (List.dropWhile_suffix isSeparator (l := (readKey c cs).2)).length_le
    have h₃ := (readKey_rest_suffix c cs).length_le
    have h₄ := length_readValue_rest_le v vs
    rw [‹s.dropWhile isSeparator = _›] at h₁
    rw [‹(readKey c cs).2.dropWhile isSeparator = _›] at h₂
    simp only [List.length_cons] at h₁ h₂ h₄
    omega

/-- The attributes of a list of items. -/
def ofItems (items : List (Text × Text)) : SpanAttributes :=
  items.foldl setItem {}

/-- The attributes of a list as it is written. -/
def parse (raw : Text) : SpanAttributes :=
  ofItems (items (decodeQuotes raw))

end SpanAttributes

/-! ## The opening tag -/

/-- What the opening tag of a span depends on besides its attributes: the style aliases, and whether a class
value that looks like a style is taken for one. -/
structure SpanContext where
  aliases : Table := .empty
  cssHeuristic : Bool := false
deriving DecidableEq, Repr

namespace SpanAttributes

/-- Does a class value hold a character that style declarations are made with? -/
def looksLikeCss (value : Text) : Bool :=
  value.any fun c => c == ':' || c == ';' || c == '='

/-- Is the class value taken for a style? -/
def isMoved (ctx : SpanContext) (value : Text) : Bool :=
  ctx.cssHeuristic && looksLikeCss value

/-- The classes of a span: those given, else those its name stands for. -/
def classText (ctx : SpanContext) (a : SpanAttributes) : Option Text :=
  match a.classes with
  | some value => if isMoved ctx value then none else some value
  | none => a.name.bind ctx.aliases.get?

/-- The style of a span: a class value taken for one, and the style given. -/
def styleText (ctx : SpanContext) (a : SpanAttributes) : Option Text :=
  match a.classes.filter (isMoved ctx), a.style with
  | some moved, some style => some (if style = [] then moved else moved ++ "; " ++ style)
  | some moved, none => some moved
  | none, style => style

/-- An attribute of a tag, unless its value is missing or empty. -/
def nonemptyAttr (name : Text) : Option Text → Text
  | none => []
  | some value => if value = [] then [] else Html.attr name value

/-- An attribute of a tag, unless its value is missing. -/
def optionalAttr (name : Text) : Option Text → Text
  | none => []
  | some value => Html.attr name value

/-- The opening tag of a span. -/
def openTag (ctx : SpanContext) (a : SpanAttributes) : Text :=
  "<span" ++ nonemptyAttr "class" (a.classText ctx) ++ nonemptyAttr "style" (a.styleText ctx) ++
    optionalAttr "data-on-click" a.onClick ++ optionalAttr "data-on-hover" a.onHover ++
    optionalAttr "data-on-focus" a.onFocus ++ ">"

/-- The name of a span, if its classes are to be looked up by it and no alias has that name. -/
def unresolvedName (ctx : SpanContext) (a : SpanAttributes) : Option Text :=
  match a.classes with
  | some _ => none
  | none => a.name.filter fun name => (ctx.aliases.get? name).isNone

end SpanAttributes
end AtMark
