import AtMark.Inline.CodeRegion
import AtMark.Inline.Quotation
import AtMark.Inline.SpanAttributes
import AtMark.Notice

/-!
# `Inline.StyleSpan`: styled stretches of text

The second pass over inline text.  A span is `@(attributes){text}` or `@style(attributes) text @end`, and
either opening goes with either body.  A span that is not complete leaves its at sign as a character, and
reading goes on behind it.  An opening inside code is text.
-/

namespace AtMark.StyleSpan

open Search
open Quotation (breakWhere breakAtParen breakAtClosingBrace eq_of_breakWhere eq_of_breakAtBrace)

/-- What follows the opening of a span, if one stands at the start. -/
def afterOpening? (s : Text) : Option Text :=
  match skip? "@(" s with
  | some list => some list
  | none => skip? "@style(" s

/-- Splits a text before the first opening of a span. -/
def breakAtOpening : Text → Option (Text × Text)
  | [] => none
  | c :: cs =>
    if (afterOpening? (c :: cs)).isSome then some ([], c :: cs)
    else (breakAtOpening cs).map fun (before, rest) => (c :: before, rest)

/-- The blanks that may stand between an attribute list and a body. -/
def isGap (c : Char) : Bool :=
  c == ' ' || c == '\t' || c == '\r' || c == '\n'

/-- Splits a text before the first end marker outside quotations. -/
def breakAtEnd (s : Text) : Option (Text × Text) :=
  breakWhere (fun rest => (skip? Token.endMarker rest).isSome) .outside s

/-- The body at the start of a text, in braces or up to an end marker, and what follows it. -/
def readBody? (s : Text) : Option (Text × Text) :=
  match s with
  | '{' :: _ => (breakAtClosingBrace s).map fun (inside, rest) => (inside.drop 1, rest.drop 1)
  | _ => (breakAtEnd s).map fun (inside, rest) => (inside, rest.drop Token.endMarker.length)

/-- A complete span: its attribute list as written, its body, and what follows it. -/
structure Span where
  raw : Text
  body : Text
  rest : Text
deriving DecidableEq, Repr

/-- The span that begins at the start of a text, if it is complete. -/
def read? (s : Text) : Option Span := do
  let list ← afterOpening? s
  let (raw, behind) ← breakAtParen list
  let (body, rest) ← readBody? ((behind.drop 1).dropWhile isGap)
  return ⟨raw, body, rest⟩

theorem eq_of_breakAtOpening {s before rest : Text}
    (h : breakAtOpening s = some (before, rest)) : s = before ++ rest := by
  induction s generalizing before with
  | nil => cases h
  | cons c cs ih =>
    rw [breakAtOpening] at h
    split at h
    · cases h
      rfl
    · obtain ⟨⟨b, r⟩, hb, he⟩ := Option.map_eq_some_iff.1 h
      cases he
      simp [ih hb]

theorem ne_nil_of_breakAtOpening {s before rest : Text}
    (h : breakAtOpening s = some (before, rest)) : rest ≠ [] := by
  induction s generalizing before with
  | nil => cases h
  | cons c cs ih =>
    rw [breakAtOpening] at h
    split at h
    · cases h
      exact List.cons_ne_nil _ _
    · obtain ⟨⟨b, r⟩, hb, he⟩ := Option.map_eq_some_iff.1 h
      cases he
      exact ih hb

theorem length_afterOpening?_lt {s list : Text} (h : afterOpening? s = some list) :
    list.length < s.length := by
  unfold afterOpening? at h
  split at h
  · next found hfound =>
    cases h
    rw [skip?_eq_some_iff.1 hfound, List.length_append]
    exact Nat.lt_add_of_pos_left (by decide)
  · rw [skip?_eq_some_iff.1 h, List.length_append]
    exact Nat.lt_add_of_pos_left (by decide)

theorem length_readBody?_le {s body rest : Text} (h : readBody? s = some (body, rest)) :
    rest.length ≤ s.length := by
  unfold readBody? at h
  split at h
  all_goals
    obtain ⟨⟨inside, r⟩, hr, he⟩ := Option.map_eq_some_iff.1 h
    cases he
  · rw [eq_of_breakAtBrace hr]
    simp only [List.length_drop, List.length_append]
    omega
  · rw [eq_of_breakWhere hr]
    simp only [List.length_drop, List.length_append]
    omega

theorem length_read?_lt {s : Text} {span : Span} (h : read? s = some span) :
    span.rest.length < s.length := by
  unfold read? at h
  obtain ⟨list, hlist, h⟩ := Option.bind_eq_some_iff.1 h
  obtain ⟨⟨raw, behind⟩, hraw, h⟩ := Option.bind_eq_some_iff.1 h
  obtain ⟨⟨body, rest⟩, hbody, h⟩ := Option.bind_eq_some_iff.1 h
  cases h
  have h₁ := length_afterOpening?_lt hlist
  have h₂ := congrArg List.length (eq_of_breakWhere hraw)
  have h₃ := length_readBody?_le hbody
  have h₄ := (List.dropWhile_suffix isGap (l := behind.drop 1)).length_le
  simp only [List.length_append, List.length_drop] at h₂ h₄
  dsimp only
  omega

/-- A piece of the second pass: text that stays, or a span with its source. -/
inductive Piece where
  | literal (text : Text)
  | span (source raw body : Text)
deriving DecidableEq, Repr

/-- The pieces of a text, given the text before it. -/
def piecesAfter (before s : Text) : List Piece :=
  match _ : breakAtOpening s with
  | none => [.literal s]
  | some (lead, opening) =>
    match _ : CodeRegion.ahead? (before ++ lead) opening with
    | some (inside, rest) =>
      .literal (lead ++ inside) :: piecesAfter (before ++ lead ++ inside) rest
    | none =>
      match _ : read? opening with
      | none =>
        .literal (lead ++ opening.take 1) ::
          piecesAfter (before ++ lead ++ opening.take 1) (opening.drop 1)
      | some span =>
        let source := opening.take (opening.length - span.rest.length)
        .literal lead :: .span source span.raw span.body ::
          piecesAfter (before ++ lead ++ source) span.rest
termination_by s.length
decreasing_by
  all_goals
    have h := congrArg List.length (eq_of_breakAtOpening ‹_›)
    have hne := ne_nil_of_breakAtOpening ‹_›
    have hpos := List.length_pos_iff.2 hne
    simp only [List.length_append] at h
  · have := CodeRegion.length_of_ahead? hne ‹_›
    omega
  · simp only [List.length_drop]
    omega
  · have := length_read?_lt ‹_›
    omega

/-- The pieces of a text. -/
def pieces (s : Text) : List Piece :=
  piecesAfter [] s

/-- A piece as HTML. -/
def Piece.html (ctx : SpanContext) : Piece → Text
  | .literal text => text
  | .span _ raw body => (SpanAttributes.parse raw).openTag ctx ++ body ++ "</span>"

/-- What is reported about a piece. -/
def Piece.notices (ctx : SpanContext) : Piece → List Notice
  | .literal _ => []
  | .span _ raw _ =>
    ((SpanAttributes.parse raw).unresolvedName ctx).toList.map Notice.unresolvedAlias

/-- The second pass. -/
def render (ctx : SpanContext) (s : Text) : Text :=
  (pieces s).flatMap (Piece.html ctx)

/-- What is reported by the second pass. -/
def notices (ctx : SpanContext) (s : Text) : List Notice :=
  (pieces s).flatMap (Piece.notices ctx)

end AtMark.StyleSpan
