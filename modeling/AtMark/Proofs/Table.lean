import AtMark.Table
import Mathlib.Data.List.Induction

/-!
# `Proofs.Table`: what a table made of entries holds

A table is put together entry by entry.  Two laws say what comes of it, and between them they fix the table:
its keys are those of the entries, each at its first place (`keys_ofList`), and the value of a key is the one
that was put last (`get?_ofList`).  So a key that is given twice keeps its place and loses its value.

Entries may be put in two goes (`putAll_append`), and nothing stands in a table that was not put there
(`mem_putAll`).  Since no key stands twice, the value of a key is the one of any entry with that key
(`get?_eq_some_iff`).

Nothing is ever taken out of a table, so there are no laws for that.
-/

namespace AtMark.Table

variable {key value : Text} {t : Table}

theorem lookup_cons_of_ne {k k' : Text} (h : k ≠ k') (v : Text) (rest : List (Text × Text)) :
    ((k', v) :: rest).lookup k = rest.lookup k := by
  rw [List.lookup_cons, beq_eq_false_iff_ne.mpr h]

theorem lookup_putEntry (k : Text) : ∀ entries : List (Text × Text),
    (putEntry key value entries).lookup k = if k = key then some value else entries.lookup k := by
  intro entries
  induction entries with
  | nil =>
      by_cases hk : k = key
      · simp [putEntry, hk]
      · rw [putEntry, if_neg hk, lookup_cons_of_ne hk]
  | cons e rest ih =>
      obtain ⟨k', v⟩ := e
      by_cases he : k' = key
      · subst he
        by_cases hk : k = k'
        · simp [putEntry, hk]
        · rw [putEntry, if_pos rfl, if_neg hk, lookup_cons_of_ne hk, lookup_cons_of_ne hk]
      · by_cases hk : k = k'
        · subst hk
          simp [putEntry, he]
        · rw [putEntry, if_neg he, lookup_cons_of_ne hk, lookup_cons_of_ne hk, ih]

theorem lookup_eq_some_iff {entries : List (Text × Text)} (h : (entries.map Prod.fst).Nodup) :
    entries.lookup key = some value ↔ (key, value) ∈ entries := by
  induction entries with
  | nil => simp
  | cons e rest ih =>
      obtain ⟨k, v⟩ := e
      obtain ⟨hk, hrest⟩ := List.nodup_cons.mp h
      by_cases hkey : key = k
      · subst hkey
        have hnot : (key, value) ∉ rest := fun hmem => hk (List.mem_map.mpr ⟨_, hmem, rfl⟩)
        simp [hnot, eq_comm]
      · rw [lookup_cons_of_ne hkey, ih hrest]
        simp [hkey]

/-- Each entry of a table tells the value of its key. -/
theorem get?_eq_some_iff : t.get? key = some value ↔ (key, value) ∈ t.entries :=
  lookup_eq_some_iff t.distinct

theorem get?_put (k : Text) : (t.put key value).get? k = if k = key then some value else t.get? k :=
  lookup_putEntry k t.entries

theorem keys_put :
    (t.put key value).keys = if key ∈ t.keys then t.keys else t.keys ++ [key] :=
  keys_putEntry key value t.entries

theorem ofList_concat (entries : List (Text × Text)) (e : Text × Text) :
    ofList (entries ++ [e]) = (ofList entries).put e.1 e.2 := by
  rw [ofList, ofList, putAll, List.foldl_append]
  rfl

/-- Every key of the entries is there, at the place where it stands first. -/
theorem keys_ofList (entries : List (Text × Text)) :
    (ofList entries).keys = (entries.map Prod.fst).eraseDups := by
  induction entries using List.reverseRecOn with
  | nil => rfl
  | append_singleton entries e ih =>
      rw [ofList_concat, keys_put, ih, List.map_append, List.eraseDups_append]
      by_cases hmem : e.1 ∈ entries.map Prod.fst
      · have hgone : (List.map Prod.fst [e]).removeAll (entries.map Prod.fst) = [] := by
          simpa [List.removeAll] using hmem
        rw [if_pos (List.mem_eraseDups.mpr hmem), hgone, List.eraseDups_nil, List.append_nil]
      · have hkept : (List.map Prod.fst [e]).removeAll (entries.map Prod.fst) = [e.1] := by
          simpa [List.removeAll] using hmem
        rw [if_neg fun h => hmem (List.mem_eraseDups.mp h), hkept]
        rfl

/-- The value of a key is the one that stands last. -/
theorem get?_ofList (entries : List (Text × Text)) (k : Text) :
    (ofList entries).get? k = entries.reverse.lookup k := by
  induction entries using List.reverseRecOn with
  | nil => rfl
  | append_singleton entries e ih =>
      obtain ⟨key, value⟩ := e
      rw [ofList_concat, get?_put, ih, List.reverse_append, List.reverse_singleton,
        List.singleton_append]
      by_cases hk : k = key
      · rw [if_pos hk, hk, List.lookup_cons_self]
      · rw [if_neg hk, lookup_cons_of_ne hk]

/-! ## Entries put into a table -/

theorem putAll_append (t : Table) (front back : List (Text × Text)) :
    t.putAll (front ++ back) = (t.putAll front).putAll back :=
  List.foldl_append

theorem mem_putEntry {e : Text × Text} {entries : List (Text × Text)} (h : e ∈ putEntry key value entries) :
    e = (key, value) ∨ e ∈ entries := by
  induction entries with
  | nil => exact .inl (List.mem_singleton.mp h)
  | cons first rest ih =>
      obtain ⟨k, v⟩ := first
      rw [putEntry] at h
      split at h
      · next hk =>
        rw [hk] at h
        exact (List.mem_cons.mp h).imp_right (List.mem_cons_of_mem _)
      · rcases List.mem_cons.mp h with rfl | h
        · exact .inr List.mem_cons_self
        · exact (ih h).imp_right (List.mem_cons_of_mem _)

/-- What stands in a table was there before or was put. -/
theorem mem_putAll {e : Text × Text} {entries : List (Text × Text)} (h : e ∈ (t.putAll entries).entries) :
    e ∈ t.entries ∨ e ∈ entries := by
  induction entries generalizing t with
  | nil => exact .inl h
  | cons first rest ih =>
      rcases ih h with h | h
      · rcases mem_putEntry h with rfl | h
        · exact .inr List.mem_cons_self
        · exact .inl h
      · exact .inr (List.mem_cons_of_mem _ h)

end AtMark.Table
