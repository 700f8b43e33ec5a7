import AtMark.Text.Basic

/-!
# `Inline.Quotation`: searching outside quotations

Inside a style span a stretch between double or single quotes is a quotation, and nothing in it ends a part
of the span.  A backslash inside a quotation keeps the next character from closing it.  Each search answers
with the text before the place it stops at and the text from there on.
-/

namespace AtMark

/-- Where a reader stands with regard to quotations: outside, inside one opened by the given quote, or there
behind a backslash. -/
inductive Quotation where
  | outside
  | inside (quote : Char)
  | escaped (quote : Char)
deriving DecidableEq, Repr

namespace Quotation

open Text (isQuote)

/-- Where a reader stands behind a character. -/
def next : Quotation → Char → Quotation
  | outside, c => if isQuote c then inside c else outside
  | inside q, c => if c = '\\' then escaped q else if c = q then outside else inside q
  | escaped q, _ => inside q

/-- May a search stop at a character that stands here? -/
def isOpen : Quotation → Char → Bool
  | outside, c => !isQuote c
  | _, _ => false

/-- Splits a text at the first place outside quotations where the rest of it satisfies a test. -/
def breakWhere (stop : Text → Bool) (here : Quotation) : Text → Option (Text × Text)
  | [] => none
  | c :: cs =>
    if here.isOpen c && stop (c :: cs) then some ([], c :: cs)
    else (breakWhere stop (here.next c) cs).map fun (before, rest) => (c :: before, rest)

/-- The depth of braces behind a character; only braces outside quotations count. -/
def depthAfter (here : Quotation) (depth : Int) (c : Char) : Int :=
  if here.isOpen c then
    if c = '{' then depth + 1 else if c = '}' then depth - 1 else depth
  else depth

/-- Splits a text before the brace outside quotations that brings the depth down to nought. -/
def breakAtBrace (depth : Int) (here : Quotation) : Text → Option (Text × Text)
  | [] => none
  | c :: cs =>
    if here.isOpen c && c == '}' && depth == 1 then some ([], c :: cs)
    else
      (breakAtBrace (here.depthAfter depth c) (here.next c) cs).map
        fun (before, rest) => (c :: before, rest)

theorem eq_of_breakWhere {stop : Text → Bool} {here : Quotation} {s before rest : Text}
    (h : breakWhere stop here s = some (before, rest)) : s = before ++ rest := by
  induction s generalizing here before with
  | nil => cases h
  | cons c cs ih =>
    rw [breakWhere] at h
    split at h
    · cases h
      rfl
    · obtain ⟨⟨b, r⟩, hb, he⟩ := Option.map_eq_some_iff.1 h
      cases he
      simp [ih hb]

theorem eq_of_breakAtBrace {depth : Int} {here : Quotation} {s before rest : Text}
    (h : breakAtBrace depth here s = some (before, rest)) : s = before ++ rest := by
  induction s generalizing here depth before with
  | nil => cases h
  | cons c cs ih =>
    rw [breakAtBrace] at h
    split at h
    · cases h
      rfl
    · obtain ⟨⟨b, r⟩, hb, he⟩ := Option.map_eq_some_iff.1 h
      cases he
      simp [ih hb]

/-- Splits a text before the parenthesis that closes an attribute list. -/
def breakAtParen (s : Text) : Option (Text × Text) :=
  breakWhere (fun rest => rest.head? == some ')') outside s

/-- Splits a text before the brace that closes the one it begins with. -/
def breakAtClosingBrace (s : Text) : Option (Text × Text) :=
  breakAtBrace 0 outside s

end Quotation
end AtMark
