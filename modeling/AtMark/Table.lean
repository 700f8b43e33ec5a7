import AtMark.Text.Basic

/-!
# `Table`: ordered tables of texts

Attributes and style aliases are tables whose order is seen in the output: the order of first insertion.
Putting a key again keeps its place and replaces its value.  That no key stands twice is part of the type.
-/

namespace AtMark

/-- Entries with distinct keys, in the order of their insertion. -/
structure Table where
  entries : List (Text × Text)
  distinct : (entries.map Prod.fst).Nodup
deriving DecidableEq, Repr

namespace Table

/-- The table without entries. -/
def empty : Table := ⟨[], .nil⟩

instance : Inhabited Table := ⟨empty⟩

/-- Replaces the value of a key where it stands, or adds the key at the end. -/
def putEntry (key value : Text) : List (Text × Text) → List (Text × Text)
  | [] => [(key, value)]
  | (k, v) :: rest => if k = key then (k, value) :: rest else (k, v) :: putEntry key value rest

theorem keys_putEntry (key value : Text) (entries : List (Text × Text)) :
    (putEntry key value entries).map Prod.fst =
      if key ∈ entries.map Prod.fst then entries.map Prod.fst
      else entries.map Prod.fst ++ [key] := by
  induction entries with
  | nil => simp [putEntry]
  | cons e rest ih =>
    obtain ⟨k, v⟩ := e
    by_cases h : k = key
    · simp [putEntry, h]
    · simp only [putEntry, h, if_false, List.map_cons, ih, List.mem_cons]
      by_cases hk : key ∈ rest.map Prod.fst <;> simp [hk, Ne.symm h]

/-- The keys, in order. -/
def keys (t : Table) : List Text :=
  t.entries.map Prod.fst

/-- The value of a key. -/
def get? (t : Table) (key : Text) : Option Text :=
  t.entries.lookup key

/-- Puts a value at a key. -/
def put (t : Table) (key value : Text) : Table where
  entries := putEntry key value t.entries
  distinct := by
    rw [keys_putEntry]
    split
    · exact t.distinct
    · next h =>
      refine List.nodup_append.2 ⟨t.distinct, by simp, ?_⟩
      rintro a ha b hb rfl
      exact h (List.mem_singleton.1 hb ▸ ha)

/-- Puts entries one after the other. -/
def putAll (t : Table) (entries : List (Text × Text)) : Table :=
  entries.foldl (fun t e => t.put e.1 e.2) t

/-- The table of some entries: a repeated key keeps its first place and its last value. -/
def ofList (entries : List (Text × Text)) : Table :=
  empty.putAll entries

end Table
end AtMark
