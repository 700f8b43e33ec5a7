import AtMark.Proofs.Search
import AtMark.Proofs.Text.Run
import AtMark.Style.Declaration

/-!
# `Proofs.Style.Declaration`: lists of declarations put together and taken apart

A comma parts a list only outside quotes, so a text is passed over as a whole if its quotations are closed and hold
all of its commas (`Enclosed`): what is read behind it is read as if the text were not there
(`splitCommas_enclosed`).  Hence such texts with commas and blanks between them are found again, whatever the blanks
(`splitDeclarations_joined`).

A key and a quoted value make such a text (`enclosed_item`), and it is read as that key and that value
(`ofText_item`).  The value is anything without a double quote: commas, colons, equals signs and quotes of the
other kind are all inside the quotation, and one pair of quotes is taken off at the end (`unquote_quoted`).

The splitter knows no backslashes, so a double quote in such a value has no spelling of its own, and a quotation that is
left open holds all the commas behind it.  Nothing is said of such texts here; `Enclosed` shuts them out.
-/

namespace AtMark.Style

open Search Text

/-- Every quotation in the text is closed, and every comma stands in one. -/
inductive Enclosed : Text → Prop
  | nil : Enclosed []
  | plain {c : Char} {s : Text} : isQuote c = false → c ≠ ',' → Enclosed s → Enclosed (c :: s)
  | quoted {q : Char} (inner : Text) {s : Text} : isQuote q = true → q ∉ inner → Enclosed s →
      Enclosed (q :: (inner ++ q :: s))

/-- The text is the parts in a row, with a comma between each two of them and any blanks around it. -/
inductive Joined : List Text → Text → Prop
  | nil : Joined [] []
  | single (part : Text) : Joined [part] part
  | cons (part before behind : Text) {next s : Text} {parts : List Text} :
      (∀ c ∈ before, isBlank c = true) → (∀ c ∈ behind, isBlank c = true) → Joined (next :: parts) s →
        Joined (part :: next :: parts) (part ++ before ++ ',' :: (behind ++ s))

variable {c q : Char} {s t part : Text} {quote : Option Char}

/-! ## Enclosed texts -/

namespace Enclosed

theorem of_plain (h : ∀ c ∈ s, isQuote c = false ∧ c ≠ ',') : Enclosed s := by
  induction s with
  | nil => exact .nil
  | cons c s ih =>
      obtain ⟨hc, hs⟩ := List.forall_mem_cons.mp h
      exact .plain hc.1 hc.2 (ih hs)

theorem of_blank (h : ∀ c ∈ s, isBlank c = true) : Enclosed s := by
  refine of_plain fun c hc => ⟨Bool.eq_false_iff.mpr fun hquote => ?_, ?_⟩
  · rw [isQuote, Bool.or_eq_true, beq_iff_eq, beq_iff_eq] at hquote
    rcases hquote with rfl | rfl
    · exact absurd (h _ hc) (by decide)
    · exact absurd (h _ hc) (by decide)
  · rintro rfl
    exact absurd (h _ hc) (by decide)

theorem append (hs : Enclosed s) (ht : Enclosed t) : Enclosed (s ++ t) := by
  induction hs with
  | nil => exact ht
  | plain hc hcomma _ ih => exact .plain hc hcomma ih
  | quoted inner hq hinner _ ih =>
      rw [List.cons_append, List.append_assoc]
      exact .quoted inner hq hinner ih

end Enclosed

/-! ## Splitting at commas -/

theorem splitCommas_ne_nil (quote : Option Char) (s : Text) : splitCommas quote s ≠ [] := by
  fun_cases splitCommas quote s with
  | case1 => exact List.cons_ne_nil _ _
  | case2 => exact List.cons_ne_nil _ _
  | case3 => exact List.cons_ne_nil _ _
  | case4 => exact List.cons_ne_nil _ _

theorem splitCommas_cons (hc : c = ',' → quote ≠ none) (s : Text) :
    splitCommas quote (c :: s) = (splitCommas (quoteAfter quote c) s).modifyHead (c :: ·) := by
  rw [splitCommas, if_neg (not_and.mpr hc)]
  cases hpieces : splitCommas (quoteAfter quote c) s with
  | nil => exact absurd hpieces (splitCommas_ne_nil _ _)
  | cons piece more => rfl

/-- A quotation is passed over up to its closing quote. -/
theorem splitCommas_quoted (hq : q ∉ t) (s : Text) :
    splitCommas (some q) (t ++ q :: s) = (splitCommas none s).modifyHead (t ++ q :: ·) := by
  have hopen : ∀ c, c = ',' → some q ≠ none := fun _ _ => Option.some_ne_none q
  induction t with
  | nil =>
      rw [List.nil_append, splitCommas_cons (hopen q), quoteAfter, if_pos rfl]
      rfl
  | cons c t ih =>
      rw [List.mem_cons, not_or] at hq
      rw [List.cons_append, splitCommas_cons (hopen c), quoteAfter, if_neg (Ne.symm hq.1), ih hq.2,
        List.modifyHead_modifyHead]
      rfl

/-- An enclosed text is passed over. -/
theorem splitCommas_enclosed (h : Enclosed t) (s : Text) :
    splitCommas none (t ++ s) = (splitCommas none s).modifyHead (t ++ ·) := by
  induction h with
  | nil => exact (congrFun List.modifyHead_id _).symm
  | @plain c t hc hcomma _ ih =>
      rw [List.cons_append, splitCommas_cons fun h => absurd h hcomma, quoteAfter, hc]
      show (splitCommas none (t ++ s)).modifyHead (c :: ·) = _
      rw [ih, List.modifyHead_modifyHead]
      rfl
  | @quoted q inner t hq hinner _ ih =>
      have hopen : q = ',' → (none : Option Char) ≠ none := by
        rintro rfl
        exact absurd hq (by decide)
      rw [List.cons_append, List.append_assoc, splitCommas_cons hopen, quoteAfter, hq, if_pos rfl,
        List.cons_append, splitCommas_quoted hinner, ih, List.modifyHead_modifyHead, List.modifyHead_modifyHead]
      simp only [Function.comp_def, List.append_assoc, List.cons_append]

/-! ## Parts -/

theorem splitDeclarations_enclosed (h : Enclosed s) :
    splitDeclarations s = [strip s].filter (· ≠ []) := by
  have hsplit := splitCommas_enclosed h []
  rw [List.append_nil] at hsplit
  rw [splitDeclarations, hsplit, splitCommas, List.modifyHead_cons, List.append_nil]
  rfl

theorem splitDeclarations_comma (h : Enclosed s) (t : Text) :
    splitDeclarations (s ++ ',' :: t) = [strip s].filter (· ≠ []) ++ splitDeclarations t := by
  have hcomma : splitCommas none (',' :: t) = [] :: splitCommas none t := by
    rw [splitCommas, if_pos ⟨rfl, rfl⟩]
  rw [splitDeclarations, splitCommas_enclosed h, hcomma, List.modifyHead_cons, List.append_nil, List.map_cons,
    ← List.singleton_append, List.filter_append]
  rfl

theorem strip_between (hs : ∀ c ∈ s, isBlank c = true) (ht : ∀ c ∈ t, isBlank c = true) (part : Text) :
    strip (s ++ (part ++ t)) = strip part := by
  rw [strip, trim, List.dropWhile_append_of_pos hs, ← trim, trim_append_of_all ht]
  rfl

/-- Enclosed parts with commas and blanks between them are found again. -/
theorem splitDeclarations_joined {parts : List Text} (hjoined : Joined parts s)
    (h : ∀ part ∈ parts, part ≠ [] ∧ strip part = part ∧ Enclosed part) (lead : Text)
    (hlead : ∀ c ∈ lead, isBlank c = true) : splitDeclarations (lead ++ s) = parts := by
  have hkept : ∀ part ∈ parts, ∀ before behind : Text, (∀ c ∈ before, isBlank c = true) →
      (∀ c ∈ behind, isBlank c = true) → [strip (before ++ (part ++ behind))].filter (· ≠ []) = [part] := by
    intro part hpart before behind hbefore hbehind
    obtain ⟨hne, hstrip, -⟩ := h part hpart
    rw [strip_between hbefore hbehind, hstrip]
    exact List.filter_eq_self.mpr fun p hp => decide_eq_true (List.mem_singleton.mp hp ▸ hne)
  induction hjoined generalizing lead with
  | nil =>
      rw [List.append_nil, splitDeclarations_enclosed (.of_blank hlead), strip, trim_eq_nil_iff.mpr hlead]
      rfl
  | single part =>
      have hpart := h part List.mem_cons_self
      have hone := hkept part List.mem_cons_self lead [] hlead nofun
      rw [List.append_nil] at hone
      rw [splitDeclarations_enclosed ((Enclosed.of_blank hlead).append hpart.2.2), hone]
  | @cons part before behind next s parts hbefore hbehind _ ih =>
      obtain ⟨hpart, hparts⟩ := List.forall_mem_cons.mp h
      obtain ⟨-, hkept'⟩ := List.forall_mem_cons.mp hkept
      have henclosed : Enclosed (lead ++ (part ++ before)) :=
        (Enclosed.of_blank hlead).append (hpart.2.2.append (.of_blank hbefore))
      rw [← List.append_assoc, splitDeclarations_comma henclosed, hkept part List.mem_cons_self lead before hlead hbefore,
        ih hparts behind hbehind hkept']
      rfl

/-! ## Declarations -/

/-- A key that can be written: it has no outer blanks, and it holds neither an equals sign nor a comma nor a quote. -/
structure IsKey (key : Text) : Prop where
  ne_nil : key ≠ []
  strip_eq : strip key = key
  no_sign : '=' ∉ key
  plain : ∀ c ∈ key, isQuote c = false ∧ c ≠ ','

instance (key : Text) : Decidable (IsKey key) :=
  decidable_of_iff (key ≠ [] ∧ strip key = key ∧ '=' ∉ key ∧ ∀ c ∈ key, isQuote c = false ∧ c ≠ ',')
    ⟨fun ⟨hne, hstrip, hsign, hplain⟩ => ⟨hne, hstrip, hsign, hplain⟩,
     fun h => ⟨h.ne_nil, h.strip_eq, h.no_sign, h.plain⟩⟩

/-- A declaration with its value in double quotes. -/
def item (d : Text × Text) : Text :=
  d.1 ++ '=' :: '"' :: (d.2 ++ ['"'])

section Item

variable {d : Text × Text}

theorem enclosed_item (hkey : IsKey d.1) (hvalue : '"' ∉ d.2) : Enclosed (item d) :=
  (Enclosed.of_plain hkey.plain).append (.plain rfl (by decide) (.quoted d.2 rfl hvalue .nil))

theorem item_ne_nil (d : Text × Text) : item d ≠ [] :=
  List.append_ne_nil_of_right_ne_nil _ (List.cons_ne_nil _ _)

theorem getLast?_item (d : Text × Text) : (item d).getLast? = some '"' := by
  rw [item, ← List.cons_append, ← List.cons_append, ← List.append_assoc, List.getLast?_concat]

theorem strip_item (hkey : IsKey d.1) : strip (item d) = item d := by
  refine trim_eq_self (fun c hc => ?_) (fun c hc => ?_)
  · rw [item, List.head?_append_of_ne_nil _ hkey.ne_nil, ← hkey.strip_eq] at hc
    exact head?_trim c hc
  · rw [getLast?_item] at hc
    cases hc
    decide

/-- One pair of quotes is taken off, whatever is between them. -/
theorem unquote_quoted (value : Text) : unquote ('"' :: (value ++ ['"'])) = value := by
  have hstrip : strip ('"' :: (value ++ ['"'])) = '"' :: (value ++ ['"']) := by
    refine trim_eq_self (fun c hc => ?_) (fun c hc => ?_)
    · cases hc
      decide
    · rw [← List.cons_append, List.getLast?_concat] at hc
      cases hc
      decide
  have hquotes : (isQuote '"' && (value ++ ['"']).getLast? == some '"') = true := by
    rw [List.getLast?_concat]
    decide
  rw [unquote, hstrip]
  dsimp only
  rw [if_pos hquotes, List.dropLast_concat]

/-- An item is read as the key and the value that it was written with. -/
theorem ofText_item (hkey : IsKey d.1) : Part.ofText (item d) = .declaration d.1 d.2 := by
  rw [Part.ofText, item, breakOn_singleton hkey.no_sign]
  dsimp only
  rw [hkey.strip_eq, if_neg hkey.ne_nil, unquote_quoted]

end Item

end AtMark.Style
