import AtMark.Proofs.Table
import AtMark.Style.Inline
import Mathlib.Data.List.Sort

/-!
# `Proofs.Style.Inline`: inline styles do not depend on the order of the attributes

## What is proved

However the attributes of a directive are ordered, its inline style is the same text, and each attribute but the mode
stands in it once: the font size, then the colour, then the others by code point (`inlineStyle_reordered`).

## How

The styles of a directive come out by rank and, within a rank, by code point.  That is a linear order of the keys
(`keyLe_antisymm`, `keyLe_trans`, `keyLe_total`), and the keys of a table are distinct, so only one list holds the
styles of the table in that order and nothing else (`eq_sortedStyles`).  A reordering of the attributes leads to the
same list, and the font size, the colour and the other styles one behind the other are that list (`sortedStyles_eq`).

## What is not

What the styles mean.  To a browser the order may matter, as for a short form and a long one of the same style; they
are put in the order of their names like any others, and not in the one that was written.
-/

namespace AtMark

/-! ## Texts by code point -/

namespace Text

variable {a b c : Text}

/-- Does a text stand before another one by code point? -/
def Precedes : Text → Text → Prop :=
  List.Lex fun c d => c.toNat < d.toNat

theorem le_cons_cons {c d : Char} {cs ds : Text} :
    le (c :: cs) (d :: ds) = true ↔ c.toNat < d.toNat ∨ c = d ∧ le cs ds = true := by
  rw [le]
  by_cases h : c = d
  · subst h
    simp
  · simp [h]

theorem le_antisymm (hab : le a b = true) (hba : le b a = true) : a = b := by
  induction a generalizing b with
  | nil =>
      cases b with
      | nil => rfl
      | cons d ds => cases hba
  | cons c cs ih =>
      cases b with
      | nil => cases hab
      | cons d ds =>
          rw [le_cons_cons] at hab hba
          rcases hab with hlt | ⟨rfl, hab⟩
          · rcases hba with hgt | ⟨rfl, -⟩
            · exact absurd hgt (Nat.lt_asymm hlt)
            · exact absurd hlt (Nat.lt_irrefl _)
          · rw [ih hab (hba.resolve_left (Nat.lt_irrefl _)).2]

theorem le_trans (hab : le a b = true) (hbc : le b c = true) : le a c = true := by
  induction a generalizing b c with
  | nil => rfl
  | cons x xs ih =>
      cases b with
      | nil => cases hab
      | cons y ys =>
          cases c with
          | nil => cases hbc
          | cons z zs =>
              rw [le_cons_cons] at hab hbc ⊢
              rcases hab with hxy | ⟨rfl, hxy⟩
              · rcases hbc with hyz | ⟨rfl, -⟩
                · exact .inl (Nat.lt_trans hxy hyz)
                · exact .inl hxy
              · exact hbc.imp_right fun ⟨hxz, hyz⟩ => ⟨hxz, ih hxy hyz⟩

theorem le_total (a b : Text) : le a b = true ∨ le b a = true := by
  induction a generalizing b with
  | nil => exact .inl rfl
  | cons c cs ih =>
      cases b with
      | nil => exact .inr rfl
      | cons d ds =>
          rw [le_cons_cons, le_cons_cons]
          rcases Nat.lt_trichotomy c.toNat d.toNat with hlt | heq | hgt
          · exact .inl (.inl hlt)
          · have hcd : c = d := Char.toNat_inj.mp heq
            exact (ih ds).imp (fun h => .inr ⟨hcd, h⟩) fun h => .inr ⟨hcd.symm, h⟩
          · exact .inr (.inl hgt)

theorem precedes_of_le (h : le a b = true) (hne : a ≠ b) : Precedes a b := by
  induction a generalizing b with
  | nil =>
      cases b with
      | nil => exact absurd rfl hne
      | cons d ds => exact .nil
  | cons c cs ih =>
      cases b with
      | nil => cases h
      | cons d ds =>
          rcases le_cons_cons.mp h with hlt | ⟨rfl, hle⟩
          · exact .rel hlt
          · exact .cons (ih hle fun heq => hne (by rw [heq]))

end Text

namespace Style

/-! ## The order of keys -/

section Keys
variable {a b c : Text}

theorem keyLe_iff : keyLe a b = true ↔ rank a < rank b ∨ rank a = rank b ∧ Text.le a b = true := by
  simp [keyLe]

theorem keyLe_antisymm (hab : keyLe a b = true) (hba : keyLe b a = true) : a = b := by
  rw [keyLe_iff] at hab hba
  have hle : Text.le a b = true := (hab.resolve_left (by omega)).2
  have hge : Text.le b a = true := (hba.resolve_left (by omega)).2
  exact Text.le_antisymm hle hge

theorem keyLe_trans (hab : keyLe a b = true) (hbc : keyLe b c = true) : keyLe a c = true := by
  rw [keyLe_iff] at hab hbc ⊢
  rcases hab with hab | ⟨hab, hle⟩
  · exact .inl (by omega)
  · rcases hbc with hbc | ⟨hbc, hle'⟩
    · exact .inl (by omega)
    · exact .inr ⟨hab.trans hbc, Text.le_trans hle hle'⟩

theorem keyLe_total (a b : Text) : keyLe a b = true ∨ keyLe b a = true := by
  rw [keyLe_iff, keyLe_iff]
  rcases Nat.lt_trichotomy (rank a) (rank b) with hlt | heq | hgt
  · exact .inl (.inl hlt)
  · exact (Text.le_total a b).imp (fun h => .inr ⟨heq, h⟩) fun h => .inr ⟨heq.symm, h⟩
  · exact .inr (.inl hgt)

end Keys

/-! ## The styles of a table -/

variable {t : Table} {e : Text × Text} {key : Text}

/-- Does one style stand before another in the order of the keys? -/
def Before (e f : Text × Text) : Prop :=
  keyLe e.1 f.1 = true ∧ e.1 ≠ f.1

instance (e f : Text × Text) : Decidable (Before e f) :=
  inferInstanceAs (Decidable (_ ∧ _))

instance : Std.Irrefl Before :=
  ⟨fun _ h => h.2 rfl⟩

instance : Std.Antisymm Before :=
  ⟨fun _ _ h h' => absurd (keyLe_antisymm h.1 h'.1) h.2⟩

theorem mem_sortedStyles {entries : List (Text × Text)} :
    e ∈ sortedStyles entries ↔ e ∈ entries ∧ e.1 ≠ modeKey := by
  simp [sortedStyles]

theorem pairwise_sortedStyles (t : Table) : (sortedStyles t.entries).Pairwise Before := by
  have hdistinct : (t.entries.filter fun e => e.1 ≠ modeKey).Pairwise fun e f => e.1 ≠ f.1 :=
    (List.pairwise_map.mp t.distinct).filter _
  have hsorted : (sortedStyles t.entries).Pairwise fun e f => keyLe e.1 f.1 = true :=
    List.pairwise_mergeSort (fun e f g => keyLe_trans (a := e.1) (b := f.1) (c := g.1))
      (fun e f => Bool.or_eq_true_iff.mpr (keyLe_total e.1 f.1)) _
  exact hsorted.and ((List.mergeSort_perm _ _).symm.pairwise hdistinct Ne.symm)

/-- The styles of a table in the order of their keys are a list that there is only once. -/
theorem eq_sortedStyles {styles : List (Text × Text)} (horder : styles.Pairwise Before)
    (hmem : ∀ e, e ∈ styles ↔ e ∈ t.entries ∧ e.1 ≠ modeKey) : styles = sortedStyles t.entries :=
  horder.eq_of_mem_iff (pairwise_sortedStyles t) fun e => (hmem e).trans mem_sortedStyles.symm

/-! ## Font size, colour, and the others -/

/-- The style that a table gives to a key, if it gives one. -/
def styleOf (t : Table) (key : Text) : List (Text × Text) :=
  (t.get? key).toList.map fun value => (key, value)

/-- The styles of a table that have no rank of their own. -/
def otherStyles (t : Table) : List (Text × Text) :=
  (sortedStyles t.entries).filter fun e => rank e.1 = 2

theorem mem_styleOf : e ∈ styleOf t key ↔ e ∈ t.entries ∧ e.1 = key := by
  obtain ⟨k, v⟩ := e
  simp only [styleOf, List.mem_map, Option.mem_toList, Table.get?_eq_some_iff, Prod.mk.injEq]
  constructor
  · rintro ⟨value, hmem, rfl, rfl⟩
    exact ⟨hmem, rfl⟩
  · rintro ⟨hmem, rfl⟩
    exact ⟨v, hmem, rfl, rfl⟩

theorem pairwise_styleOf (t : Table) (key : Text) : (styleOf t key).Pairwise Before := by
  unfold styleOf
  cases t.get? key with
  | none => exact .nil
  | some value => exact List.pairwise_singleton _ _

theorem rank_eq_two_iff : rank key = 2 ↔ key ≠ "font-size".toList ∧ key ≠ "color".toList := by
  unfold rank
  split
  · next hsize => exact iff_of_false nofun fun h => h.1 hsize
  · next hsize =>
    split
    · next hcolour => exact iff_of_false nofun fun h => h.2 hcolour
    · next hcolour => exact iff_of_true rfl ⟨hsize, hcolour⟩

theorem before_of_rank_lt {f : Text × Text} (h : rank e.1 < rank f.1) : Before e f :=
  ⟨keyLe_iff.mpr (.inl h), fun heq => by rw [heq] at h; exact Nat.lt_irrefl _ h⟩

theorem rank_of_mem_otherStyles (h : e ∈ otherStyles t) : rank e.1 = 2 :=
  of_decide_eq_true (List.mem_filter.mp h).2

theorem pairwise_ranked (t : Table) :
    (styleOf t "font-size" ++ (styleOf t "color" ++ otherStyles t)).Pairwise Before := by
  have hsize : ∀ e ∈ styleOf t "font-size", rank e.1 = 0 := fun e he => by rw [(mem_styleOf.mp he).2]; rfl
  have hcolour : ∀ e ∈ styleOf t "color", rank e.1 = 1 := fun e he => by rw [(mem_styleOf.mp he).2]; rfl
  have hother : ∀ e ∈ otherStyles t, rank e.1 = 2 := fun e => rank_of_mem_otherStyles
  have hbehind : (styleOf t "color" ++ otherStyles t).Pairwise Before := by
    refine List.pairwise_append.mpr ⟨pairwise_styleOf t _, (pairwise_sortedStyles t).filter _, fun e he f hf => ?_⟩
    exact before_of_rank_lt (by rw [hcolour e he, hother f hf]; decide)
  refine List.pairwise_append.mpr ⟨pairwise_styleOf t _, hbehind, fun e he f hf => before_of_rank_lt ?_⟩
  rw [hsize e he]
  rcases List.mem_append.mp hf with hf | hf
  · rw [hcolour f hf]
    decide
  · rw [hother f hf]
    decide

theorem mem_ranked :
    e ∈ styleOf t "font-size" ++ (styleOf t "color" ++ otherStyles t) ↔ e ∈ t.entries ∧ e.1 ≠ modeKey := by
  rw [List.mem_append, List.mem_append, mem_styleOf, mem_styleOf, otherStyles, List.mem_filter, mem_sortedStyles,
    decide_eq_true_eq, rank_eq_two_iff]
  constructor
  · rintro (⟨hmem, hkey⟩ | ⟨hmem, hkey⟩ | ⟨h, -⟩)
    · exact ⟨hmem, by rw [hkey]; decide⟩
    · exact ⟨hmem, by rw [hkey]; decide⟩
    · exact h
  · rintro ⟨hmem, hmode⟩
    by_cases hsize : e.1 = "font-size".toList
    · exact .inl ⟨hmem, hsize⟩
    · by_cases hcolour : e.1 = "color".toList
      · exact .inr (.inl ⟨hmem, hcolour⟩)
      · exact .inr (.inr ⟨⟨hmem, hmode⟩, hsize, hcolour⟩)

theorem sortedStyles_eq (t : Table) :
    sortedStyles t.entries = styleOf t "font-size" ++ (styleOf t "color" ++ otherStyles t) :=
  (eq_sortedStyles (pairwise_ranked t) fun _ => mem_ranked).symm

theorem pairwise_otherStyles (t : Table) : (otherStyles t).Pairwise fun e f => Text.Precedes e.1 f.1 := by
  refine ((pairwise_sortedStyles t).filter _).imp_of_mem fun {e f} he hf h => ?_
  have hrank : rank e.1 = rank f.1 := by rw [rank_of_mem_otherStyles he, rank_of_mem_otherStyles hf]
  have hle := (keyLe_iff.mp h.1).resolve_left (by omega)
  exact Text.precedes_of_le hle.2 h.2

/-- Tables with the same attributes in any order have the same inline style, and it holds each attribute but the mode
once: the font size, then the colour, then the others by code point. -/
theorem inlineStyle_reordered (t : Table) :
    (∀ t' : Table, t'.entries.Perm t.entries → inlineStyle t' = inlineStyle t) ∧
    ∃ styles others : List (Text × Text),
      inlineStyle t = styles.flatMap (fun e => e.1 ++ [':'] ++ e.2 ++ [';']) ∧
      styles.Perm (t.entries.filter fun e => e.1 ≠ "mode".toList) ∧
      styles = ((t.get? "font-size").toList.map fun value => ("font-size".toList, value)) ++
        (((t.get? "color").toList.map fun value => ("color".toList, value)) ++ others) ∧
      others.Pairwise fun e f => Text.Precedes e.1 f.1 := by
  constructor
  · intro t' h
    have hsame : sortedStyles t'.entries = sortedStyles t.entries := by
      refine eq_sortedStyles (pairwise_sortedStyles t') fun e => ?_
      rw [mem_sortedStyles, h.mem_iff]
    rw [inlineStyle, hsame, inlineStyle]
  · exact ⟨sortedStyles t.entries, otherStyles t, rfl, List.mergeSort_perm _ _, sortedStyles_eq t,
      pairwise_otherStyles t⟩

/-- A colour and a font size behind other styles, capital letters and a key that goes on where another one ends. -/
theorem inlineStyle_reordered_mixed :
    let t := Table.ofList [("margin-top", "1px"), ("color", "red"), ("mode", "inline"), ("margin", "0"),
      ("Z", "2"), ("font-size", "9px")]
    let t' := Table.ofList [("Z", "2"), ("font-size", "9px"), ("margin", "0"), ("margin-top", "1px"),
      ("mode", "inline"), ("color", "red")]
    t'.entries.Perm t.entries ∧ inlineStyle t' = inlineStyle t ∧
      inlineStyle t = "font-size:9px;color:red;Z:2;margin:0;margin-top:1px;".toList := by
  intro t t'
  have hperm : t'.entries.Perm t.entries := by decide
  let styles : List (Text × Text) :=
    [("font-size", "9px"), ("color", "red"), ("Z", "2"), ("margin", "0"), ("margin-top", "1px")]
  have hsame : styles.Perm (t.entries.filter fun e => e.1 ≠ modeKey) := by decide
  have hstyles : styles = sortedStyles t.entries :=
    eq_sortedStyles (by decide) fun e => hsame.mem_iff.trans (by rw [List.mem_filter, decide_eq_true_eq])
  refine ⟨hperm, (inlineStyle_reordered t).1 t' hperm, ?_⟩
  rw [inlineStyle, ← hstyles]
  rfl

end Style
end AtMark
