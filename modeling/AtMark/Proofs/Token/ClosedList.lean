import AtMark.Proofs.Token.Form

/-!
# `Proofs.Token.ClosedList`: what a closed parameter list looks like

## What is proved

`IsList` says of a text that it is a parameter list up to and with its closing parenthesis, and which items it has.
A list is put together from what stands in it: items, each in front of something that does not go on with it, and
single characters that begin no key.  A parenthesis in a quoted value is part of an item, and a quoted value that is
not closed is part of none, so such a text is no list.

A reader ends with a closing parenthesis exactly where a list ends (`scan_eq_closed_iff`).  Only what the list is made
of decides on that, and nothing that stands behind it.

## How

From a list to the reading it goes item by item (`scan_of_isList`).  The other direction is an induction over the
reading, which takes a key with its value or passes over a character; what it took is an item (`exists_isItem`), and of
the text behind that only the first character and the first behind an indentation matter (`IsItem.of_heads`).  That is
why an item stays an item when the list is cut off behind its parenthesis (`IsItem.append_iff`).

## What is not

Lists without a parenthesis.  What is kept of them is said in `Proofs.Token.Recovery`.
-/

namespace AtMark

open Text

namespace Quoted

/-- The text between the quotes of a value, the value that it stands for, and whether a backslash in it was
resolved. -/
inductive IsInner : Text → Text → Bool → Prop
  | nil : IsInner [] [] false
  | escaped {c : Char} {s value : Text} {owned : Bool} : IsInner s value owned →
      IsInner ('\\' :: c :: s) (c :: value) true
  | plain {c : Char} {s value : Text} {owned : Bool} : c ≠ '"' → c ≠ '\\' → IsInner s value owned →
      IsInner (c :: s) (c :: value) owned

theorem read_of_isInner {inner value : Text} {owned : Bool} (h : IsInner inner value owned) (rest : Text) :
    read (inner ++ '"' :: rest) = ⟨value, owned, rest⟩ := by
  induction h with
  | nil => rfl
  | @escaped c s value owned _ ih =>
      show ((read (s ++ '"' :: rest)).cons c).own = _
      rw [ih]
      rfl
  | @plain c s value owned hquote hslash _ ih =>
      rw [List.cons_append, read, ih]
      · rfl
      · exact hquote
      · exact fun _ _ h _ => hslash h

theorem exists_isInner {s : Text} (h : (read s).rest ≠ []) :
    ∃ inner, s = inner ++ '"' :: (read s).rest ∧ IsInner inner (read s).value (read s).owned := by
  fun_induction read s with
  | case1 => exact absurd rfl h
  | case2 cs => exact ⟨[], rfl, .nil⟩
  | case3 c cs ih =>
      obtain ⟨inner, hcs, hinner⟩ := ih h
      exact ⟨'\\' :: c :: inner, congrArg (fun t => '\\' :: c :: t) hcs, .escaped hinner⟩
  | case4 c cs hquote hslash ih =>
      obtain ⟨inner, hcs, hinner⟩ := ih h
      refine ⟨c :: inner, congrArg (c :: ·) hcs, .plain (fun hc => hquote hc) ?_ hinner⟩
      rintro rfl
      -- A backslash in the last place would have nothing to stand before.
      cases cs with
      | nil => exact h rfl
      | cons d cs => exact hslash d cs rfl rfl

end Quoted

namespace Parameters

/-- The value of a key as it is written in front of a text, the value that is read, and whether it is owned. -/
inductive IsValue (after : Text) : Text → Text → Bool → Prop
  | bare {value : Text} : (∀ c ∈ value, isBare c = true) → value.head? ≠ some '"' →
      (∀ c ∈ after.head?, isBare c = false) → IsValue after value value false
  | quoted {inner value : Text} {owned : Bool} : Quoted.IsInner inner value owned →
      IsValue after ('"' :: (inner ++ ['"'])) value owned

/-- An item as it is written in front of a text: a key, or a key with a value. -/
inductive IsItem (after : Text) : Text → Parameter → Prop
  | key {key : Text} : Name.IsName key → (∀ c ∈ after.head?, Name.isNameChar c = false) →
      (after.dropWhile isIndent).head? ≠ some '=' → IsItem after key ⟨key, [], false⟩
  | assigned {key front back written value : Text} {owned : Bool} : Name.IsName key →
      (∀ c ∈ front, isIndent c = true) → (∀ c ∈ back, isIndent c = true) →
      (∀ c ∈ (written ++ after).head?, isIndent c = false) → IsValue after written value owned →
      IsItem after (key ++ (front ++ '=' :: (back ++ written))) ⟨key, value, owned⟩

/-- The text, from behind the opening parenthesis, is a list up to and with its closing parenthesis, and these are its
items. -/
inductive IsList : Text → List Parameter → Prop
  | close : IsList [')'] []
  | skip {c : Char} {s : Text} {items : List Parameter} : c ≠ ')' → Name.isNameChar c = false → IsList s items →
      IsList (c :: s) items
  | item {written s : Text} {p : Parameter} {items : List Parameter} : IsItem s written p → IsList s items →
      IsList (written ++ s) (p :: items)

variable {s after rest written : Text} {p : Parameter} {items : List Parameter}

/-! ## Lists are read -/

theorem readValue_of_isValue {value back : Text} {owned : Bool} (h : IsValue after written value owned)
    (hhead : ∀ c ∈ (written ++ after).head?, isIndent c = false) (hback : ∀ c ∈ back, isIndent c = true) :
    readValue (back ++ (written ++ after)) = ⟨value, owned, after⟩ := by
  have hdrop : (back ++ (written ++ after)).dropWhile isIndent = written ++ after :=
    dropWhile_append_of_head hback hhead
  cases h with
  | bare hbare hquote hafter =>
      have hnot : (written ++ after).head? ≠ some '"' := by
        cases written with
        | nil =>
            intro h
            exact absurd (hafter '"' h) (by decide)
        | cons c written => exact hquote
      rw [readValue_of_head (by rwa [hdrop]), hdrop, takeWhile_append_of_head hbare hafter,
        dropWhile_append_of_head hbare hafter]
  | @quoted inner _ _ hinner =>
      have hwritten : '"' :: (inner ++ ['"']) ++ after = '"' :: (inner ++ '"' :: after) := by simp
      rw [readValue_quote (hdrop.trans hwritten)]
      exact Quoted.read_of_isInner hinner after

theorem scan_of_isItem (h : IsItem after written p) : scan (written ++ after) = (scan after).cons p := by
  cases h with
  | key hkey hafter hequals => rw [scan_item hkey hafter, readAssigned_of_head hequals]
  | @assigned key front back written value owned hkey hfront hback hhead hvalue =>
      have hbehind : ∀ c ∈ (front ++ '=' :: (back ++ (written ++ after))).head?, Name.isNameChar c = false := by
        intro c hc
        cases front with
        | nil =>
            cases hc
            rfl
        | cons d front =>
            cases hc
            have hindent := isBlank_of_isIndent (hfront c List.mem_cons_self)
            by_contra hname
            exact Bool.eq_false_iff.mp (Name.isBlank_eq_false (Bool.not_eq_false _ ▸ hname)) hindent
      have hsource : key ++ (front ++ '=' :: (back ++ written)) ++ after =
          key ++ (front ++ '=' :: (back ++ (written ++ after))) := by simp
      rw [hsource, scan_item hkey hbehind, readAssigned_equals (List.dropWhile_append_of_pos hfront),
        readValue_of_isValue hvalue hhead hback]

theorem IsList.mem (h : IsList s items) : ')' ∈ s := by
  induction h with
  | close => exact List.mem_singleton_self _
  | skip _ _ _ ih => exact List.mem_cons_of_mem _ ih
  | item _ _ ih => exact List.mem_append_right _ ih

theorem IsList.exists_eq_append (h : IsList s items) : ∃ inner, s = inner ++ [')'] := by
  induction h with
  | close => exact ⟨[], rfl⟩
  | @skip c s items _ _ _ ih =>
      obtain ⟨inner, rfl⟩ := ih
      exact ⟨c :: inner, rfl⟩
  | @item written s p items _ _ ih =>
      obtain ⟨inner, rfl⟩ := ih
      exact ⟨written ++ inner, (List.append_assoc ..).symm⟩

/-- Of the text behind an item only two characters matter: the first one, and the first behind an indentation. -/
theorem IsItem.of_heads {after' : Text} (h : IsItem after written p) (hhead : after'.head? = after.head?)
    (hdrop : (after'.dropWhile isIndent).head? = (after.dropWhile isIndent).head?) : IsItem after' written p := by
  cases h with
  | key hkey hafter hequals =>
      rw [← hhead] at hafter
      rw [← hdrop] at hequals
      exact .key hkey hafter hequals
  | assigned hkey hfront hback hwritten hvalue =>
      rw [List.head?_append, ← hhead, ← List.head?_append] at hwritten
      refine .assigned hkey hfront hback hwritten ?_
      cases hvalue with
      | bare hbare hquote hafter =>
          rw [← hhead] at hafter
          exact .bare hbare hquote hafter
      | quoted hinner => exact .quoted hinner

/-- What is behind the parenthesis does not decide how an item in front of it is written. -/
theorem IsItem.append_iff (hmem : ')' ∈ after) (rest : Text) :
    IsItem (after ++ rest) written p ↔ IsItem after written p := by
  have hhead : (after ++ rest).head? = after.head? := List.head?_append_of_ne_nil _ (List.ne_nil_of_mem hmem)
  have hdrop : ((after ++ rest).dropWhile isIndent).head? = (after.dropWhile isIndent).head? := by
    rw [dropWhile_append_of_mem hmem rfl]
    exact List.head?_append_of_ne_nil _ (List.ne_nil_of_mem (mem_dropWhile hmem rfl))
  exact ⟨fun h => h.of_heads hhead.symm hdrop.symm, fun h => h.of_heads hhead hdrop⟩

theorem scan_of_isList (h : IsList s items) (rest : Text) : scan (s ++ rest) = ⟨items, rest, true⟩ := by
  induction h with
  | close => rw [List.singleton_append, scan, if_pos rfl]
  | skip hclose hname _ ih =>
      rw [List.cons_append, scan, if_neg hclose, if_neg (Bool.eq_false_iff.mp hname), ih]
  | item hitem hlist ih =>
      rw [List.append_assoc, scan_of_isItem ((IsItem.append_iff hlist.mem rest).mpr hitem), ih]
      rfl

/-! ## What is read is a list -/

theorem exists_isValue (h : (readValue s).rest ≠ []) :
    ∃ written, s.dropWhile isIndent = written ++ (readValue s).rest ∧
      IsValue (readValue s).rest written (readValue s).value (readValue s).owned := by
  by_cases hquote : (s.dropWhile isIndent).head? = some '"'
  · obtain ⟨cs, hcs⟩ := List.head?_eq_some_iff.mp hquote
    rw [readValue_quote hcs] at h ⊢
    obtain ⟨inner, hinner, hvalue⟩ := Quoted.exists_isInner h
    refine ⟨'"' :: (inner ++ ['"']), ?_, .quoted hvalue⟩
    rw [hcs, List.cons_append, List.append_assoc]
    exact congrArg ('"' :: ·) hinner
  · have hsplit : (s.dropWhile isIndent).takeWhile isBare ++ (s.dropWhile isIndent).dropWhile isBare =
        s.dropWhile isIndent := List.takeWhile_append_dropWhile
    rw [readValue_of_head hquote]
    refine ⟨_, hsplit.symm, .bare ?_ ?_ (head?_dropWhile isBare _)⟩
    · exact fun c hc => List.mem_takeWhile_imp hc
    · intro hhead
      rw [← hsplit, List.head?_append, hhead] at hquote
      exact hquote rfl

theorem exists_isItem {c : Char} {cs : Text} (hc : Name.isNameChar c = true) (h : (readItem c cs).2 ≠ []) :
    ∃ written, c :: cs = written ++ (readItem c cs).2 ∧ IsItem (readItem c cs).2 written (readItem c cs).1 := by
  have hkey : Name.IsName (c :: Name.take cs) := by
    refine ⟨List.cons_ne_nil _ _, fun d hd => ?_⟩
    rcases List.mem_cons.mp hd with rfl | hd
    · exact hc
    · exact List.mem_takeWhile_imp hd
  have hsource : c :: cs = c :: Name.take cs ++ Name.rest cs := congrArg (c :: ·) (Name.take_append_rest cs).symm
  unfold readItem at h ⊢
  dsimp only at h ⊢
  by_cases hequals : ((Name.rest cs).dropWhile isIndent).head? = some '='
  · obtain ⟨vs, hvs⟩ := List.head?_eq_some_iff.mp hequals
    rw [readAssigned_equals hvs] at h ⊢
    obtain ⟨written, hwritten, hvalue⟩ := exists_isValue h
    have hfront : (Name.rest cs).takeWhile isIndent ++ '=' :: vs = Name.rest cs := by
      rw [← hvs, List.takeWhile_append_dropWhile]
    have hback : vs.takeWhile isIndent ++ (written ++ (readValue vs).rest) = vs := by
      rw [← hwritten, List.takeWhile_append_dropWhile]
    have hhead := head?_dropWhile isIndent vs
    rw [hwritten] at hhead
    refine ⟨c :: Name.take cs ++ ((Name.rest cs).takeWhile isIndent ++ '=' :: (vs.takeWhile isIndent ++ written)),
      ?_, .assigned hkey ?_ ?_ hhead hvalue⟩
    · simp only [List.append_assoc, List.cons_append]
      rw [hback, hfront, Name.take_append_rest]
    · exact fun d hd => List.mem_takeWhile_imp hd
    · exact fun d hd => List.mem_takeWhile_imp hd
  · rw [readAssigned_of_head hequals]
    exact ⟨_, hsource, .key hkey (head?_dropWhile Name.isNameChar cs) hequals⟩

theorem exists_isList (h : (scan s).closed = true) :
    ∃ front, s = front ++ (scan s).rest ∧ IsList front (scan s).items := by
  fun_induction scan s with
  | case1 => exact Bool.noConfusion h
  | case2 cs => exact ⟨[')'], rfl, .close⟩
  | case3 c cs hclose hname ih =>
      obtain ⟨front, hfront, hlist⟩ := ih h
      have hleft : (readItem c cs).2 ≠ [] := by
        rw [hfront]
        exact List.append_ne_nil_of_left_ne_nil (List.ne_nil_of_mem hlist.mem) _
      obtain ⟨written, hwritten, hitem⟩ := exists_isItem hname hleft
      refine ⟨written ++ front, ?_, .item ?_ hlist⟩
      · rw [List.append_assoc]
        exact hwritten.trans (congrArg (written ++ ·) hfront)
      · rw [hfront] at hitem
        exact (IsItem.append_iff hlist.mem _).mp hitem
  | case4 c cs hclose hname ih =>
      obtain ⟨front, hfront, hlist⟩ := ih h
      exact ⟨c :: front, congrArg (c :: ·) hfront, .skip hclose (Bool.eq_false_iff.mpr hname) hlist⟩

/-- The items up to a closing parenthesis are those of a list that stands at the start. -/
theorem scan_eq_closed_iff :
    scan s = ⟨items, rest, true⟩ ↔ ∃ front, s = front ++ rest ∧ IsList front items := by
  constructor
  · intro h
    obtain ⟨front, hfront, hlist⟩ := exists_isList (s := s) (by rw [h])
    rw [h] at hfront hlist
    exact ⟨front, hfront, hlist⟩
  · rintro ⟨front, rfl, hlist⟩
    exact scan_of_isList hlist rest

end Parameters
end AtMark
