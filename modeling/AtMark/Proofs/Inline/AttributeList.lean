import AtMark.Proofs.Inline.StyleSpan
import AtMark.Proofs.Text.Words
import Mathlib.Data.List.Induction

/-!
# `Proofs.Inline.AttributeList`: what an attribute list means

## What is proved

A list is read item by item, and the last item of a field decides (`get_ofItems`).  After a key the reader looks for a
value, past blanks, commas and at most one sign (`takeValue?`), and it goes on behind that value (`items_key`).

Two laws follow.  An item with its value in quotes is read whole, whatever the value imitates, and what stands behind
it is read as if it began the list (`QuotedItem.items_written`); so a list of such items means what its items say, and
items that name no field might as well not be there (`parse_joined`).

But a key without a value does not end at the comma: it takes the next thing in the list for its value, and with it,
as a rule, an item (`parse_word`).  The list means the same exactly if that item did not matter, which is when its
key names no field or its field is set again (`ofItems_cons_eq_iff`).

## What is not

Values without quotes in a longer list.  Such a value ends at a blank, a comma or a closing parenthesis; how it is
written is in `IsValue`, and only the item right behind a word is looked at in that way.
-/

namespace AtMark.SpanAttributes

open Text

/-! ## Fields -/

/-- The value of a field. -/
def get (a : SpanAttributes) : SpanField → Option Text
  | .name => a.name
  | .classes => a.classes
  | .style => a.style
  | .onClick => a.onClick
  | .onHover => a.onHover
  | .onFocus => a.onFocus

variable {a b : SpanAttributes} {field : SpanField} {list : List (Text × Text)} {item : Text × Text}

theorem eq_of_get (h : ∀ field, a.get field = b.get field) : a = b := by
  cases a
  cases b
  simp only [mk.injEq]
  exact ⟨h .name, h .classes, h .style, h .onClick, h .onHover, h .onFocus⟩

theorem get_set (a : SpanAttributes) (named field : SpanField) (value : Text) :
    (a.set named value).get field = if named = field then some value else a.get field := by
  cases named <;> cases field <;> rfl

theorem get_setItem (a : SpanAttributes) (item : Text × Text) (field : SpanField) :
    (a.setItem item).get field =
      if SpanField.ofKey? item.1 = some field then some item.2 else a.get field := by
  unfold setItem
  cases SpanField.ofKey? item.1 with
  | none => simp
  | some named => simp only [get_set, Option.some.injEq]

/-- A field has the value of the last item whose key names it. -/
theorem get_ofItems (list : List (Text × Text)) (field : SpanField) :
    (ofItems list).get field =
      (list.filter fun item => SpanField.ofKey? item.1 = some field).getLast?.map Prod.snd := by
  induction list using List.reverseRecOn with
  | nil => cases field <;> rfl
  | append_singleton list item ih =>
      have hstep : ofItems (list ++ [item]) = (ofItems list).setItem item := by
        simp [ofItems, List.foldl_append]
      rw [hstep, get_setItem, List.filter_append]
      by_cases hkey : SpanField.ofKey? item.1 = some field
      · simp [hkey]
      · simp [hkey, ih]

theorem get_ofItems_cons (item : Text × Text) (list : List (Text × Text)) (field : SpanField) :
    (ofItems (item :: list)).get field =
      if SpanField.ofKey? item.1 = some field then some (((ofItems list).get field).getD item.2)
      else (ofItems list).get field := by
  simp only [get_ofItems]
  by_cases hkey : SpanField.ofKey? item.1 = some field
  · rw [if_pos hkey, List.filter_cons_of_pos (by simpa using hkey), List.getLast?_cons]
    cases (list.filter fun item => SpanField.ofKey? item.1 = some field).getLast? with
    | none => rfl
    | some last => rfl
  · rw [if_neg hkey, List.filter_cons_of_neg (by simpa using hkey)]

/-- An item in front changes nothing exactly if its field, if it has one, is set again. -/
theorem ofItems_cons_eq_iff : ofItems (item :: list) = ofItems list ↔
    ∀ field, SpanField.ofKey? item.1 = some field → ((ofItems list).get field).isSome := by
  constructor
  · intro h field hkey
    have hget := get_ofItems_cons item list field
    rw [h, if_pos hkey] at hget
    exact Option.isSome_of_eq_some hget
  · intro h
    refine eq_of_get fun field => ?_
    rw [get_ofItems_cons]
    split
    · next hkey =>
      obtain ⟨value, hvalue⟩ := Option.isSome_iff_exists.mp (h field hkey)
      rw [hvalue]
      rfl
    · rfl

theorem ofItems_cons_of_unknown (h : SpanField.ofKey? item.1 = none) : ofItems (item :: list) = ofItems list := by
  refine ofItems_cons_eq_iff.mpr fun field hkey => ?_
  rw [h] at hkey
  cases hkey

/-! ## Keys -/

/-- The characters that end a key, and the one that entities begin with. -/
def keySigns : Text := "=:,)&"

/-- What is read as a key just as it stands.  A word of letters is. -/
def IsKey (key : Text) : Prop :=
  key ≠ [] ∧ ∀ c ∈ key, isBlank c = false ∧ c ∉ keySigns

instance (key : Text) : Decidable (IsKey key) :=
  inferInstanceAs (Decidable (_ ∧ _))

/-- The value that a key takes from the text behind it, if there is anything to take, and what is left. -/
def takeValue? (s : Text) : Option (Text × Text) :=
  match (dropSign (s.dropWhile isSeparator)).dropWhile isSeparator with
  | [] => none
  | c :: cs => some (readValue c cs)

variable {c quote sign : Char} {s gap key value rest : Text}

theorem isSeparator_of_isBlank (h : isBlank c = true) : isSeparator c = true := by
  simp [isSeparator, h]

theorem isKeyChar_eq_false_of_isSeparator (h : isSeparator c = true) : isKeyChar c = false := by
  simp [isKeyChar, h]

/-- A quote neither separates nor is it a sign, so values may begin with one. -/
theorem classes_of_isQuote (h : isQuote c = true) :
    isSeparator c = false ∧ isSign c = false ∧ isBare c = true ∧ c ≠ '&' := by
  simp only [isQuote, Bool.or_eq_true, beq_iff_eq] at h
  rcases h with rfl | rfl
  · decide
  · decide

/-- A sign ends a key, but it does not separate, nor does it end a value. -/
theorem classes_of_isSign (h : isSign c = true) :
    isSeparator c = false ∧ isKeyChar c = false ∧ isBare c = true ∧ c ≠ '&' := by
  simp only [isSign, Bool.or_eq_true, beq_iff_eq] at h
  rcases h with rfl | rfl
  · decide
  · decide

theorem isKeyChar_iff : isKeyChar c = true ↔ isSeparator c = false ∧ isSign c = false ∧ c ≠ ')' := by
  simp [isKeyChar, and_assoc]

theorem IsKey.isKeyChar (h : IsKey key) : ∀ c ∈ key, isKeyChar c = true := by
  intro c hc
  obtain ⟨hblank, hsigns⟩ := h.2 c hc
  have hne : ∀ d ∈ keySigns, c ≠ d := fun d hd heq => hsigns (heq ▸ hd)
  simp [SpanAttributes.isKeyChar, isSeparator, isSign, hblank, hne _ (show ',' ∈ keySigns by decide),
    hne _ (show '=' ∈ keySigns by decide), hne _ (show ':' ∈ keySigns by decide),
    hne _ (show ')' ∈ keySigns by decide)]

theorem IsKey.amp_not_mem (h : IsKey key) : '&' ∉ key :=
  fun hamp => (h.2 '&' hamp).2 (by decide)

/-! ## Reading on behind a key -/

theorem items_skip (h : ∀ c ∈ gap, isSeparator c = true) (s : Text) : items (gap ++ s) = items s := by
  rw [items_eq, List.dropWhile_append_of_pos h, ← items_eq]

theorem takeValue?_skip (h : ∀ c ∈ gap, isSeparator c = true) (s : Text) :
    takeValue? (gap ++ s) = takeValue? s := by
  rw [takeValue?, List.dropWhile_append_of_pos h, ← takeValue?]

/-- Of two signs only the first one is passed over. -/
theorem takeValue?_sign (h : isSign sign = true) (hgap : ∀ c ∈ gap, isSeparator c = true)
    (hc : isSeparator c = false) (s : Text) :
    takeValue? (sign :: (gap ++ c :: s)) = some (readValue c s) := by
  have hstart : (sign :: (gap ++ c :: s)).dropWhile isSeparator = sign :: (gap ++ c :: s) :=
    List.dropWhile_cons_of_neg (Bool.eq_false_iff.mp (classes_of_isSign h).1)
  have hvalue : (gap ++ c :: s).dropWhile isSeparator = c :: s := by
    rw [List.dropWhile_append_of_pos hgap]
    exact List.dropWhile_cons_of_neg (Bool.eq_false_iff.mp hc)
  simp only [takeValue?, hstart, dropSign, if_pos h, hvalue]

theorem takeValue?_value (hsep : isSeparator c = false) (hsign : isSign c = false) (s : Text) :
    takeValue? (c :: s) = some (readValue c s) := by
  have hstart : (c :: s).dropWhile isSeparator = c :: s :=
    List.dropWhile_cons_of_neg (Bool.eq_false_iff.mp hsep)
  have hdrop : dropSign (c :: s) = c :: s := if_neg (Bool.eq_false_iff.mp hsign)
  simp only [takeValue?, hstart, hdrop]

theorem items_key (hkey : IsKey key) (hs : ∀ c ∈ s.head?, isKeyChar c = false) :
    items (key ++ s) =
      match takeValue? s with
      | none => []
      | some (value, rest) => (key, value) :: items rest := by
  obtain ⟨c, cs, rfl⟩ := List.exists_cons_of_ne_nil hkey.1
  obtain ⟨hc, hcs⟩ := List.forall_mem_cons.mp hkey.isKeyChar
  obtain ⟨hsep, hsign, hparen⟩ := isKeyChar_iff.mp hc
  have hstart : (c :: (cs ++ s)).dropWhile isSeparator = c :: (cs ++ s) :=
    List.dropWhile_cons_of_neg (Bool.eq_false_iff.mp hsep)
  have hread : readKey c (cs ++ s) = (c :: cs, dropSign (s.dropWhile isSeparator)) := by
    rw [readKey, if_neg (Bool.eq_false_iff.mp hsign), takeWhile_append_of_head hcs hs,
      dropWhile_append_of_head hcs hs]
  rw [List.cons_append, items_eq, hstart, takeValue?]
  simp only [if_neg hparen, hread]
  cases (dropSign (s.dropWhile isSeparator)).dropWhile isSeparator with
  | nil => rfl
  | cons v vs => rfl

/-! ## Items with quoted values -/

theorem readValue_quoted (hquote : isQuote quote = true) (hvalue : quote ∉ value) (rest : Text) :
    readValue quote (value ++ quote :: rest) = (value, rest) := by
  have hinner : ∀ c ∈ value, (c != quote) = true := by
    intro c hc
    simpa using ne_of_mem_of_not_mem hc hvalue
  have hend : ∀ c ∈ (quote :: rest).head?, (c != quote) = false := by
    rintro c ⟨⟩
    simp
  rw [readValue, if_pos hquote, takeWhile_append_of_head hinner hend, dropWhile_append_of_head hinner hend]
  rfl

/-- An item as it may be written: a key, a sign between blanks, and a value in quotes.  The value may hold anything
but its quote and the beginning of an entity. -/
structure QuotedItem where
  key : Text
  front : Text
  sign : Char
  back : Text
  quote : Char
  value : Text
  isKey : IsKey key := by decide
  front_blank : ∀ c ∈ front, isBlank c = true := by decide
  isSign : isSign sign = true := by decide
  back_blank : ∀ c ∈ back, isBlank c = true := by decide
  isQuote : isQuote quote = true := by decide
  quote_not_mem : quote ∉ value := by decide
  amp_not_mem : '&' ∉ value := by decide

namespace QuotedItem

/-- An item in a list. -/
def written (item : QuotedItem) : Text :=
  item.key ++ (item.front ++ item.sign :: (item.back ++ item.quote :: (item.value ++ [item.quote])))

/-- What an item says. -/
def entry (item : QuotedItem) : Text × Text :=
  (item.key, item.value)

/-- Items in a list, with a comma and a space between two of them. -/
def joined (items : List QuotedItem) : Text :=
  List.intercalate ", " (items.map written)

/-- Does the key of an item name the field? -/
def sets (field : SpanField) (item : QuotedItem) : Bool :=
  SpanField.ofKey? item.key = some field

theorem items_written (item : QuotedItem) (rest : Text) :
    items (item.written ++ rest) = item.entry :: items rest := by
  have hsource : item.written ++ rest = item.key ++ (item.front ++ item.sign ::
      (item.back ++ item.quote :: (item.value ++ item.quote :: rest))) := by
    simp [written]
  have hfront : ∀ c ∈ item.front, isSeparator c = true :=
    fun c hc => isSeparator_of_isBlank (item.front_blank c hc)
  have hback : ∀ c ∈ item.back, isSeparator c = true :=
    fun c hc => isSeparator_of_isBlank (item.back_blank c hc)
  have hend : ∀ c ∈ (item.front ++ item.sign ::
      (item.back ++ item.quote :: (item.value ++ item.quote :: rest))).head?, isKeyChar c = false := by
    intro c hc
    cases hgap : item.front with
    | nil =>
        rw [hgap] at hc
        cases hc
        exact (classes_of_isSign item.isSign).2.1
    | cons d gap =>
        rw [hgap] at hc hfront
        cases hc
        exact isKeyChar_eq_false_of_isSeparator (List.forall_mem_cons.mp hfront).1
  have htaken := takeValue?_sign item.isSign hback (classes_of_isQuote item.isQuote).1
    (item.value ++ item.quote :: rest)
  rw [hsource, items_key item.isKey hend, takeValue?_skip hfront, htaken,
    readValue_quoted item.isQuote item.quote_not_mem]
  rfl

theorem items_joined (list : List QuotedItem) : items (joined list) = list.map entry := by
  induction list with
  | nil => exact items_nil
  | cons item list ih =>
      cases list with
      | nil =>
          have hlast := item.items_written []
          rw [List.append_nil, items_nil] at hlast
          simpa [joined] using hlast
      | cons next list =>
          have hsep : ∀ c ∈ ", ".toList, isSeparator c = true := by decide
          have hjoined : joined (item :: next :: list) = item.written ++ (", " ++ joined (next :: list)) := by
            simp only [joined, List.map_cons, List.intercalate_cons_cons, List.append_assoc]
          rw [hjoined, items_written, items_skip hsep, ih]
          rfl

theorem amp_not_mem_written (item : QuotedItem) : '&' ∉ item.written := by
  have hgaps : ∀ {gap : Text}, (∀ c ∈ gap, isBlank c = true) → '&' ∉ gap :=
    fun hblank hamp => absurd (hblank '&' hamp) (by decide)
  have hsign : '&' ≠ item.sign := (classes_of_isSign item.isSign).2.2.2.symm
  have hquote : '&' ≠ item.quote := (classes_of_isQuote item.isQuote).2.2.2.symm
  simp [written, item.isKey.amp_not_mem, hgaps item.front_blank, hgaps item.back_blank, hsign, hquote,
    item.amp_not_mem]

theorem amp_not_mem_joined (list : List QuotedItem) : '&' ∉ joined list := by
  intro hamp
  rcases mem_intercalate hamp with hsep | ⟨piece, hpiece, hamp⟩
  · exact absurd hsep (by decide)
  · obtain ⟨item, -, rfl⟩ := List.mem_map.mp hpiece
    exact item.amp_not_mem_written hamp

theorem parse_joined_eq (list : List QuotedItem) : parse (joined list) = ofItems (list.map entry) := by
  rw [parse, decodeQuotes_eq_self (amp_not_mem_joined list), items_joined]

theorem get_parse_joined (list : List QuotedItem) (field : SpanField) :
    (parse (joined list)).get field = (list.filter (sets field)).getLast?.map QuotedItem.value := by
  rw [parse_joined_eq, get_ofItems, List.filter_map, List.getLast?_map, Option.map_map]
  rfl

end QuotedItem

/-- A list of quoted items sets each field to the value of the last item whose key names it, and no other field.  Items
with other keys might as well not be there. -/
theorem parse_joined (list : List QuotedItem) :
    (∀ field, (parse (QuotedItem.joined list)).get field =
      (list.filter (QuotedItem.sets field)).getLast?.map QuotedItem.value) ∧
    parse (QuotedItem.joined (list.filter fun item => (SpanField.ofKey? item.key).isSome)) =
      parse (QuotedItem.joined list) := by
  refine ⟨QuotedItem.get_parse_joined list, eq_of_get fun field => ?_⟩
  have hsame : ∀ item, (QuotedItem.sets field item && (SpanField.ofKey? item.key).isSome) =
      QuotedItem.sets field item := by
    intro item
    rw [Bool.and_eq_left_iff_imp]
    intro hsets
    exact Option.isSome_of_eq_some (of_decide_eq_true hsets)
  rw [QuotedItem.get_parse_joined, QuotedItem.get_parse_joined, List.filter_filter]
  simp only [hsame]

/-- Values that look like more items, keys in other cases, and a key that names no field. -/
theorem parse_joined_imitated : ∃ list : List QuotedItem,
    QuotedItem.joined list = "Class =\t\"a, style='b') \\\", x:'class=\"c\"', STYLE: '', CLASSES=\"d\"" ∧
      (parse (QuotedItem.joined list)).get .classes = some "d".toList ∧
      (parse (QuotedItem.joined list)).get .style = some [] ∧
      (parse (QuotedItem.joined list)).get .name = none := by
  let list : List QuotedItem :=
    [{ key := "Class", front := " ", sign := '=', back := "\t", quote := '"', value := "a, style='b') \\" },
     { key := "x", front := [], sign := ':', back := [], quote := '\'', value := "class=\"c\"" },
     { key := "STYLE", front := [], sign := ':', back := " ", quote := '\'', value := [] },
     { key := "CLASSES", front := [], sign := '=', back := [], quote := '"', value := "d" }]
  obtain ⟨hfields, -⟩ := parse_joined list
  exact ⟨list, by decide, (hfields .classes).trans (by decide), (hfields .style).trans (by decide),
    (hfields .name).trans (by decide)⟩

/-! ## Keys without a value -/

/-- What is left of a list behind the value that a key in front of it would take. -/
def behindValue (s : Text) : Text :=
  match takeValue? s with
  | none => []
  | some (_, rest) => rest

/-- A value as it may be written without a blank, a comma or a parenthesis, bare or in quotes. -/
inductive IsValue : Text → Prop
  | bare {c : Char} {cs : Text} : isQuote c = false → (∀ d ∈ c :: cs, isBare d = true ∧ d ≠ '&') →
      IsValue (c :: cs)
  | quoted {quote : Char} {value : Text} : isQuote quote = true → quote ∉ value →
      (∀ d ∈ value, isBare d = true ∧ d ≠ '&') → IsValue (quote :: (value ++ [quote]))

variable {w written raw : Text}

theorem isBare_eq_true_iff : isBare c = true ↔ isSeparator c = false ∧ c ≠ ')' := by
  simp [isBare]

theorem isBare_of_isKeyChar (h : isKeyChar c = true) : isBare c = true := by
  obtain ⟨hsep, -, hparen⟩ := isKeyChar_iff.mp h
  exact isBare_eq_true_iff.mpr ⟨hsep, hparen⟩

theorem parse_word_eq (hw : IsKey w) (hunknown : SpanField.ofKey? w = none) (raw : Text) :
    parse (w ++ ", " ++ raw) = ofItems (items (behindValue (decodeQuotes raw))) := by
  have hsep : ∀ c ∈ ", ".toList, isSeparator c = true := by decide
  have hend : ∀ c ∈ (", ".toList ++ decodeQuotes raw).head?, isKeyChar c = false := by
    rintro c ⟨⟩
    rfl
  have hread : decodeQuotes (w ++ ", " ++ raw) = w ++ (", " ++ decodeQuotes raw) := by
    rw [List.append_assoc, decodeQuotes_append hw.amp_not_mem, decodeQuotes_append (by decide)]
  rw [parse, hread, items_key hw hend, takeValue?_skip hsep, behindValue]
  cases takeValue? (decodeQuotes raw) with
  | none => rw [items_nil]
  | some found => exact ofItems_cons_of_unknown hunknown

/-- Where no key stands, the value is one without a key anyway. -/
theorem ofItems_behindValue (h : ∀ c ∈ (s.dropWhile isSeparator).head?, isKeyChar c = false) :
    ofItems (items (behindValue s)) = ofItems (items s) := by
  have hsep := head?_dropWhile isSeparator s
  rw [items_eq s, behindValue, takeValue?]
  cases hs : s.dropWhile isSeparator with
  | nil => rw [show dropSign [] = [] from rfl, List.dropWhile_nil, items_nil]
  | cons c cs =>
      rw [hs] at h hsep
      have hc : isSeparator c = false := hsep c rfl
      by_cases hparen : c = ')'
      · -- The value is empty, and the parenthesis is passed over in front of the next key.
        subst hparen
        have hskip : items (')' :: cs) = items cs := by
          rw [items_eq, List.dropWhile_cons_of_neg (by decide)]
          simp only [if_pos]
        exact congrArg ofItems hskip
      · have hsign : isSign c = true := by
          by_contra hsign
          exact Bool.eq_false_iff.mp (h c rfl) (isKeyChar_iff.mpr ⟨hc, Bool.eq_false_iff.mpr hsign, hparen⟩)
        have hdrop : dropSign (c :: cs) = cs := if_pos hsign
        have hread : readKey c cs = ([], cs) := if_pos hsign
        simp only [hdrop, if_neg hparen, hread]
        cases cs.dropWhile isSeparator with
        | nil => rw [items_nil]
        | cons v vs => exact (ofItems_cons_of_unknown rfl).symm

theorem IsValue.plain (h : IsValue written) : ∀ d ∈ written, isBare d = true ∧ d ≠ '&' := by
  cases h with
  | bare _ hplain => exact hplain
  | @quoted quote value hquote _ hplain =>
      have hends := (classes_of_isQuote hquote).2.2
      simpa [or_imp, forall_and, hends] using hplain

theorem IsValue.takeValue?_eq (h : IsValue written) (hsign : isSign sign = true)
    (hrest : ∀ c ∈ rest.head?, isBare c = false) :
    ∃ value, takeValue? (sign :: (written ++ rest)) = some (value, rest) := by
  have hnil : ∀ c ∈ ([] : Text), isSeparator c = true := nofun
  cases h with
  | @bare c cs hquote hplain =>
      have hbare : ∀ d ∈ c :: cs, isBare d = true := fun d hd => (hplain d hd).1
      have hc := (isBare_eq_true_iff.mp (List.forall_mem_cons.mp hbare).1).1
      refine ⟨c :: cs, (takeValue?_sign hsign hnil hc (cs ++ rest)).trans ?_⟩
      rw [readValue, if_neg (Bool.eq_false_iff.mp hquote), ← List.cons_append,
        takeWhile_append_of_head hbare hrest, dropWhile_append_of_head hbare hrest]
  | @quoted quote value hquote hmem hplain =>
      have hsource : quote :: (value ++ [quote]) ++ rest = quote :: (value ++ quote :: rest) := by simp
      refine ⟨value, ?_⟩
      rw [hsource]
      refine (takeValue?_sign hsign hnil (classes_of_isQuote hquote).1 (value ++ quote :: rest)).trans ?_
      rw [readValue_quoted hquote hmem]

theorem head?_decodeQuotes (h : ∀ c ∈ rest.head?, isBare c = false) :
    ∀ c ∈ (decodeQuotes rest).head?, isBare c = false := by
  cases rest with
  | nil => simp [decodeQuotes_eq_self]
  | cons d ds =>
      have hd : isBare d = false := h d rfl
      have hamp : '&' ∉ [d] := by
        rw [List.mem_singleton]
        rintro rfl
        exact absurd hd (by decide)
      rw [← List.singleton_append, decodeQuotes_append hamp]
      rintro c ⟨⟩
      exact hd

/-- In front of an item without blanks, the word takes the whole item for its value. -/
theorem parse_word_item (hw : IsKey w) (hunknown : SpanField.ofKey? w = none) (hkey : IsKey key)
    (hplain : ∀ c ∈ key, isQuote c = false) (hsign : isSign sign = true) (hvalue : IsValue written)
    (hrest : ∀ c ∈ rest.head?, isBare c = false) :
    parse (w ++ ", " ++ (key ++ sign :: (written ++ rest))) = parse rest ∧
      ∃ value, parse (key ++ sign :: (written ++ rest)) = ofItems ((key, value) :: items (decodeQuotes rest)) := by
  have hbehind := head?_decodeQuotes hrest
  have hsource : key ++ sign :: (written ++ rest) = key ++ sign :: written ++ rest := by simp
  have hamp : '&' ∉ key ++ sign :: written := by
    have hwritten : '&' ∉ written := fun hmem => (hvalue.plain '&' hmem).2 rfl
    simp [hkey.amp_not_mem, (classes_of_isSign hsign).2.2.2.symm, hwritten]
  have hread : decodeQuotes (key ++ sign :: (written ++ rest)) =
      key ++ sign :: (written ++ decodeQuotes rest) := by
    rw [hsource, decodeQuotes_append hamp]
    simp
  constructor
  · obtain ⟨c, cs, rfl⟩ := List.exists_cons_of_ne_nil hkey.1
    obtain ⟨hsep, hnosign, -⟩ := isKeyChar_iff.mp (hkey.isKeyChar c List.mem_cons_self)
    have hbare : ∀ d ∈ c :: cs ++ sign :: written, isBare d = true := by
      intro d hd
      rcases List.mem_append.mp hd with hd | hd
      · exact isBare_of_isKeyChar (hkey.isKeyChar d hd)
      · rcases List.mem_cons.mp hd with rfl | hd
        · exact (classes_of_isSign hsign).2.2.1
        · exact (hvalue.plain d hd).1
    have htaken : takeValue? (c :: cs ++ sign :: (written ++ decodeQuotes rest)) =
        some (c :: cs ++ sign :: written, decodeQuotes rest) := by
      have hsplit : c :: cs ++ sign :: (written ++ decodeQuotes rest) =
          c :: cs ++ sign :: written ++ decodeQuotes rest := by simp
      rw [List.cons_append, takeValue?_value hsep hnosign, readValue,
        if_neg (Bool.eq_false_iff.mp (hplain c List.mem_cons_self)), ← List.cons_append, hsplit,
        takeWhile_append_of_head hbare hbehind, dropWhile_append_of_head hbare hbehind]
    rw [parse_word_eq hw hunknown, hread, behindValue, htaken, parse]
  · obtain ⟨value, htaken⟩ := hvalue.takeValue?_eq hsign hbehind
    have hend : ∀ c ∈ (sign :: (written ++ decodeQuotes rest)).head?, isKeyChar c = false := by
      rintro c ⟨⟩
      exact (classes_of_isSign hsign).2.1
    refine ⟨value, ?_⟩
    rw [parse, hread, items_key hkey hend, htaken]

/-- A word that is no key of a field takes for its value what stands behind the comma, and the list is read as if it
began behind that.  Nothing is lost if no key stands there.  If an item stands there that has no blanks, all of it is
taken, and the list means the same exactly if that item names no field or its field is set again. -/
theorem parse_word (hw : IsKey w) (hunknown : SpanField.ofKey? w = none) (raw : Text) :
    parse (w ++ ", " ++ raw) = ofItems (items (behindValue (decodeQuotes raw))) ∧
    ((∀ c ∈ ((decodeQuotes raw).dropWhile isSeparator).head?, isKeyChar c = false) →
      parse (w ++ ", " ++ raw) = parse raw) ∧
    ∀ key sign written rest, raw = key ++ sign :: (written ++ rest) → IsKey key →
      (∀ c ∈ key, isQuote c = false) → isSign sign = true → IsValue written →
      (∀ c ∈ rest.head?, isBare c = false) →
        (parse (w ++ ", " ++ raw) = parse raw ↔
          ∀ field, SpanField.ofKey? key = some field → ((parse rest).get field).isSome) := by
  refine ⟨parse_word_eq hw hunknown raw, ?_, ?_⟩
  · intro hstart
    rw [parse_word_eq hw hunknown, ofItems_behindValue hstart, parse]
  · rintro key sign written rest rfl hkey hplain hsign hvalue hrest
    obtain ⟨hword, value, hitem⟩ := parse_word_item hw hunknown hkey hplain hsign hvalue hrest
    rw [hword, hitem]
    exact eq_comm.trans ofItems_cons_eq_iff

/-- A second item sets the field of the one that the word takes. -/
theorem parse_word_overridden :
    IsKey "foo" ∧ SpanField.ofKey? "foo" = none ∧ IsKey "class" ∧ (∀ c ∈ "class".toList, isQuote c = false) ∧
      IsValue "\"a\"" ∧ parse "foo, class=\"a\", class=b" = parse "class=\"a\", class=b" := by
  have hw : IsKey "foo" := by decide
  have hunknown : SpanField.ofKey? "foo" = none := by decide
  have hkey : IsKey "class" := by decide
  have hplain : ∀ c ∈ "class".toList, isQuote c = false := by decide
  have hvalue : IsValue ('"' :: (['a'] ++ ['"'])) := .quoted rfl (by decide) (by decide)
  have hset : ∀ field, SpanField.ofKey? "class" = some field → ((parse ", class=b").get field).isSome := by
    rintro field ⟨⟩
    decide +kernel
  have hrest : ∀ c ∈ ", class=b".toList.head?, isBare c = false := by
    rintro c ⟨⟩
    rfl
  obtain ⟨-, -, hitem⟩ := parse_word hw hunknown "class=\"a\", class=b"
  have hsame := (hitem "class" '=' "\"a\"" ", class=b" rfl hkey hplain rfl hvalue hrest).mpr hset
  exact ⟨hw, hunknown, hkey, hplain, hvalue, hsame⟩

/-- Without it, the item is lost. -/
theorem word_takes_item :
    (∀ c ∈ "foo".toList, c.isAlpha = true) ∧ SpanField.ofKey? "foo" = none ∧ parse "foo, class=a" = {} ∧
      parse "class=a" = { classes := some "a".toList } ∧ parse "foo, class=a" ≠ parse "class=a" := by
  decide +kernel

end AtMark.SpanAttributes
