import AtMark.Proofs.Style.Declaration
import AtMark.Style.Rule

/-!
# `Proofs.Style.Rule`: a global rule from its line to its CSS

## What is proved

A selector and declarations with quoted values come out as the CSS of the rule that was meant, in their order, and any
parts with closed quotes and no comma outside of them are found again, whatever blanks are around the commas between
them (`rule_round_trip`).

## How

A rule is cut at its first colon, its declarations at the commas outside quotes, and each declaration at its first
equals sign.  A selector without a colon and keys that could not be taken for anything else survive all of these cuts,
and a value in double quotes may hold any of the signs.  The list is put together and taken apart in
`Proofs.Style.Declaration`; here the selector is put before it, which gets a sign of its own if it has none
(`normalizeSelector_eq`).

## What is not

Whether the CSS means anything.  Keys, values and selectors are texts, and no rule is left out because a browser would
not know it.
-/

namespace AtMark.Style

open Search Text

/-- A selector that can be written: it has no outer blanks and no colon. -/
structure IsSelector (selector : Text) : Prop where
  ne_nil : selector ≠ []
  strip_eq : strip selector = selector
  no_colon : ':' ∉ selector

instance (selector : Text) : Decidable (IsSelector selector) :=
  decidable_of_iff (selector ≠ [] ∧ strip selector = selector ∧ ':' ∉ selector)
    ⟨fun ⟨hne, hstrip, hcolon⟩ => ⟨hne, hstrip, hcolon⟩, fun h => ⟨h.ne_nil, h.strip_eq, h.no_colon⟩⟩

/-- The declarations of a rule as they are written. -/
def itemList (pairs : List (Text × Text)) : Text :=
  List.intercalate [',', ' '] (pairs.map item)

/-- The line of a rule. -/
def ruleText (selector : Text) (pairs : List (Text × Text)) : Text :=
  selector ++ ':' :: ' ' :: itemList pairs

theorem normalizeSelector_eq (selector : Text) :
    normalizeSelector selector =
      if selector.head? = some '.' ∨ selector.head? = some '#' then selector else '.' :: selector := by
  fun_cases normalizeSelector selector with
  | case1 s => exact (if_pos (.inl rfl)).symm
  | case2 s => exact (if_pos (.inr rfl)).symm
  | case3 s hdot hhash =>
      refine (if_neg fun h => ?_).symm
      rcases h with h | h
      · obtain ⟨rest, rfl⟩ := List.head?_eq_some_iff.mp h
        exact hdot rest rfl
      · obtain ⟨rest, rfl⟩ := List.head?_eq_some_iff.mp h
        exact hhash rest rfl

theorem head?_normalizeSelector (selector : Text) :
    (normalizeSelector selector).head? = some '.' ∨ (normalizeSelector selector).head? = some '#' := by
  rw [normalizeSelector_eq]
  split
  · next h => exact h
  · exact .inl rfl

/-- A rule begins with its selector, and a selector with its sign. -/
theorem head?_of_mem_rules {body rule : Text} (h : rule ∈ rules body) :
    rule.head? = some '.' ∨ rule.head? = some '#' := by
  obtain ⟨line, -, hcss⟩ := List.mem_filterMap.mp h
  cases line with
  | blank => cases hcss
  | withoutSelector line => cases hcss
  | rule selector parts =>
      obtain rfl := Option.some.inj hcss
      rcases head?_normalizeSelector selector with hhead | hhead
      · obtain ⟨rest, hrest⟩ := List.head?_eq_some_iff.mp hhead
        rw [hrest]
        exact .inl rfl
      · obtain ⟨rest, hrest⟩ := List.head?_eq_some_iff.mp hhead
        rw [hrest]
        exact .inr rfl

theorem joined_intercalate (parts : List Text) : Joined parts (List.intercalate [',', ' '] parts) := by
  induction parts with
  | nil => exact .nil
  | cons part parts ih =>
      cases parts with
      | nil =>
          rw [List.intercalate_singleton]
          exact .single part
      | cons next parts =>
          have hjoined := Joined.cons part [] [' '] nofun (by decide) ih
          rw [List.append_nil] at hjoined
          rw [List.intercalate_cons_cons, List.append_assoc]
          exact hjoined

section Line

variable {selector : Text} {pairs : List (Text × Text)}

theorem getLast?_itemList (h : pairs ≠ []) : (itemList pairs).getLast? = some '"' := by
  induction pairs with
  | nil => exact absurd rfl h
  | cons d pairs ih =>
      cases pairs with
      | nil =>
          rw [itemList, List.map_singleton, List.intercalate_singleton]
          exact getLast?_item d
      | cons next pairs =>
          have hlast := ih (List.cons_ne_nil next pairs)
          have hne : itemList (next :: pairs) ≠ [] := fun hnil => by
            rw [hnil] at hlast
            cases hlast
          have hjoin : itemList (d :: next :: pairs) = item d ++ [',', ' '] ++ itemList (next :: pairs) :=
            List.intercalate_cons_cons
          rw [hjoin, List.getLast?_append_of_ne_nil _ hne, hlast]

theorem splitDeclarations_itemList (h : ∀ d ∈ pairs, IsKey d.1 ∧ '"' ∉ d.2) :
    splitDeclarations (trimEnd isBlank (' ' :: itemList pairs)) = pairs.map item := by
  cases pairs with
  | nil => rfl
  | cons d pairs =>
      have htrim : trimEnd isBlank (' ' :: itemList (d :: pairs)) = [' '] ++ itemList (d :: pairs) := by
        refine trimEnd_eq_self fun c hc => ?_
        have hlast := getLast?_itemList (List.cons_ne_nil d pairs)
        rw [List.getLast?_cons, hlast] at hc
        cases hc
        decide
      rw [htrim]
      refine splitDeclarations_joined (joined_intercalate _) ?_ [' '] (by decide)
      rw [List.forall_mem_map]
      intro e he
      obtain ⟨hkey, hvalue⟩ := h e he
      exact ⟨item_ne_nil e, strip_item hkey, enclosed_item hkey hvalue⟩

theorem strip_ruleText (hselector : IsSelector selector) :
    strip (ruleText selector pairs) = selector ++ ':' :: trimEnd isBlank (' ' :: itemList pairs) := by
  have hcolon : trimEnd isBlank (':' :: ' ' :: itemList pairs) =
      ':' :: trimEnd isBlank (' ' :: itemList pairs) := trimEnd_cons (by decide)
  have hstart : (ruleText selector pairs).dropWhile isBlank = ruleText selector pairs := by
    have hhead := head?_trim (p := isBlank) (s := selector)
    rw [← strip, hselector.strip_eq] at hhead
    exact dropWhile_append_of_head (s := []) (fun _ hc => absurd hc List.not_mem_nil)
      (List.head?_append_of_ne_nil selector hselector.ne_nil ▸ hhead)
  rw [strip, trim, hstart, ruleText, trimEnd_append_of_ne_nil (by rw [hcolon]; exact List.cons_ne_nil _ _), hcolon]

theorem ofLine_ruleText (hselector : IsSelector selector) (h : ∀ d ∈ pairs, IsKey d.1 ∧ '"' ∉ d.2) :
    RuleLine.ofLine (ruleText selector pairs) =
      .rule selector (pairs.map fun d => .declaration d.1 d.2) := by
  have hparts : parts (trimEnd isBlank (' ' :: itemList pairs)) =
      pairs.map fun d => Part.declaration d.1 d.2 := by
    rw [parts, splitDeclarations_itemList h, List.map_map]
    exact List.map_congr_left fun d hd => ofText_item (h d hd).1
  rw [RuleLine.ofLine, strip_ruleText hselector, if_neg (List.append_ne_nil_of_left_ne_nil hselector.ne_nil _),
    breakOn_singleton hselector.no_colon]
  dsimp only
  rw [hselector.strip_eq, if_neg hselector.ne_nil, hparts]

end Line

/-- A selector and declarations with quoted values come out as the CSS of the rule, in their order; and any parts with
closed quotes and no comma outside of them are found again, whatever blanks are around the commas between them. -/
theorem rule_round_trip :
    (∀ (selector : Text) (pairs : List (Text × Text)), IsSelector selector →
      (∀ d ∈ pairs, IsKey d.1 ∧ '"' ∉ d.2) →
        (RuleLine.ofLine (ruleText selector pairs)).css? =
          some ((if selector.head? = some '.' ∨ selector.head? = some '#' then selector else '.' :: selector) ++
            " \x7b" ++ pairs.flatMap (fun d => ' ' :: (d.1 ++ [':'] ++ d.2 ++ [';'])) ++ " \x7d")) ∧
    ∀ (parts : List Text) (s : Text), (∀ part ∈ parts, part ≠ [] ∧ strip part = part ∧ Enclosed part) →
      Joined parts s → splitDeclarations s = parts := by
  constructor
  · intro selector pairs hselector h
    rw [ofLine_ruleText hselector h, RuleLine.css?, normalizeSelector_eq, List.filterMap_map]
    have hpairs : pairs.filterMap (Part.pair? ∘ fun d => Part.declaration d.1 d.2) = pairs :=
      List.filterMap_some
    rw [hpairs]
    rfl
  · intro parts s h hjoined
    exact splitDeclarations_joined hjoined h [] nofun

/-- A value with every sign that a rule is cut at, and one that is empty; a comma between quotes of one kind around a
quote of the other kind. -/
theorem rule_round_trip_signs :
    let pairs : List (Text × Text) := [("font-family", " A, 'B=1: "), ("x:y", [])]
    let parts : List Text := ["a='x, \"y'", "bare"]
    IsSelector "p > q" ∧ (∀ d ∈ pairs, IsKey d.1 ∧ '"' ∉ d.2) ∧
      (RuleLine.ofLine "p > q: font-family=\" A, 'B=1: \", x:y=\"\"").css? =
        some ".p > q \x7b font-family: A, 'B=1: ; x:y:; \x7d".toList ∧
      (∀ part ∈ parts, part ≠ [] ∧ strip part = part ∧ Enclosed part) ∧
      Joined parts "a='x, \"y'\t,\u3000bare" ∧ splitDeclarations "a='x, \"y'\t,\u3000bare" = parts := by
  intro pairs parts
  have hselector : IsSelector "p > q" := by decide +kernel
  have hpairs : ∀ d ∈ pairs, IsKey d.1 ∧ '"' ∉ d.2 := by decide +kernel
  have htext : ruleText "p > q" pairs = "p > q: font-family=\" A, 'B=1: \", x:y=\"\"".toList := by decide +kernel
  have hcss := rule_round_trip.1 "p > q" pairs hselector hpairs
  rw [htext] at hcss
  have hquoted : Enclosed "a='x, \"y'" :=
    .plain rfl (by decide) (.plain rfl (by decide) (.quoted "x, \"y" rfl (by decide) .nil))
  have hparts : ∀ part ∈ parts, part ≠ [] ∧ strip part = part ∧ Enclosed part := by
    refine List.forall_mem_cons.mpr ⟨⟨by decide, by decide +kernel, hquoted⟩, ?_⟩
    exact List.forall_mem_singleton.mpr ⟨by decide, by decide +kernel, .of_plain (by decide)⟩
  have hjoined : Joined parts "a='x, \"y'\t,\u3000bare" :=
    .cons _ ['\t'] ['\u3000'] (by decide) (by decide) (.single _)
  exact ⟨hselector, hpairs, hcss.trans (by decide +kernel), hparts, hjoined, rule_round_trip.2 _ _ hparts hjoined⟩

end AtMark.Style
