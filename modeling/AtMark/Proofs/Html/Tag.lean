import AtMark.Proofs.Html.Entity

/-!
# `Proofs.Html.Tag`: tags read back

A reader of tags knows where a value begins and ends by the signs around it, and only then reads its entities.  So
a tag is read by its signs and by what stands between them (`Reads`): if the values in it are escaped they add no
sign, and each of them is read as it was given (`Reads.value`).  For a tag of any attributes this goes attribute by
attribute (`reads_attributes`); its signs are those of its template, and between them stand the template's own words
and the values (`Tag.shown_of_opens`).

`Tag.Opens` follows the way tags are written in the library, one attribute behind the other and the ending last, so a
tag is shown to be read well in the steps in which it was made.  Signs are the two angle brackets and the double quote.
Between single quotes a value would have to be told apart in another way; no template has any.
-/

namespace AtMark.Html

/-- The signs that templates put values between. -/
def isDelimiter (c : Char) : Bool :=
  c == '<' || c == '>' || c == '"'

/-- What a reader makes of a text: its signs in their order, and what stands before, between and behind them, with
entities read back. -/
def Reads (s delimiters : Text) (places : List Text) : Prop :=
  s.filter isDelimiter = delimiters ∧ (s.splitOnP isDelimiter).map unescape = places

/-- A text of templates that is neither a sign nor an entity. -/
def IsFixed (s : Text) : Prop :=
  ∀ c ∈ s, isDelimiter c = false ∧ c ≠ '&'

instance (s : Text) : Decidable (IsFixed s) :=
  inferInstanceAs (Decidable (∀ c ∈ s, isDelimiter c = false ∧ c ≠ '&'))

namespace IsFixed

variable {s t : Text}

theorem append (hs : IsFixed s) (ht : IsFixed t) : IsFixed (s ++ t) := by
  intro c hc
  rcases List.mem_append.mp hc with hc | hc
  · exact hs c hc
  · exact ht c hc

theorem unescape_eq (hs : IsFixed s) : unescape s = s :=
  unescape_eq_self fun hamp => (hs '&' hamp).2 rfl

end IsFixed

theorem isDelimiter_of_mem_escape {v : Text} {c : Char} (hc : c ∈ escape v) : isDelimiter c = false := by
  have hlt : c ≠ '<' := ne_of_mem_escape hc (by decide) (by decide)
  have hgt : c ≠ '>' := ne_of_mem_escape hc (by decide) (by decide)
  have hquote : c ≠ '"' := ne_of_mem_escape hc (by decide) (by decide)
  simp only [isDelimiter, Bool.or_eq_false_iff, beq_eq_false_iff_ne]
  exact ⟨⟨hlt, hgt⟩, hquote⟩

namespace Reads

variable {s t v ds : Text} {ps : List Text} {d : Char}

theorem nil : Reads [] [] [[]] :=
  ⟨rfl, congrArg (fun place => [place]) (unescape_eq_self List.not_mem_nil)⟩

/-- What stands before the first sign is the first place. -/
theorem cons (hs : ∀ c ∈ s, isDelimiter c = false) (hd : isDelimiter d) (h : Reads t ds ps) :
    Reads (s ++ d :: t) (d :: ds) (unescape s :: ps) := by
  obtain ⟨rfl, rfl⟩ := h
  constructor
  · rw [List.filter_append, List.filter_eq_nil_iff.mpr fun c hc => by rw [hs c hc]; exact Bool.false_ne_true,
      List.filter_cons_of_pos hd, List.nil_append]
  · rw [List.splitOnP_append_cons_of_forall_mem hs d hd, List.map_cons]

theorem fixed (hs : IsFixed s) (hd : isDelimiter d) (h : Reads t ds ps) :
    Reads (s ++ d :: t) (d :: ds) (s :: ps) := by
  have hcons := cons (fun c hc => (hs c hc).1) hd h
  rwa [hs.unescape_eq] at hcons

theorem value (hd : isDelimiter d) (h : Reads t ds ps) : Reads (escape v ++ d :: t) (d :: ds) (v :: ps) := by
  have hcons := cons (s := escape v) (fun c hc => isDelimiter_of_mem_escape hc) hd h
  rwa [unescape_escape] at hcons

end Reads

/-- A tag as it is meant: its name, its attributes, and what stands before the closing bracket. -/
structure Tag where
  name : Text
  attributes : List (Text × Text)
  ending : Text := []

namespace Tag

/-- The signs of the tag: its brackets, and two quotes for each attribute. -/
def delimiters (t : Tag) : Text :=
  "<" ++ t.attributes.flatMap (fun _ => ['"', '"']) ++ ">"

/-- What stands between the signs from some fixed text on: the keys before their values, and the ending. -/
def placesFrom (front ending : Text) : List (Text × Text) → List Text
  | [] => [front ++ ending, []]
  | (key, value) :: rest => (front ++ " " ++ key ++ "=") :: value :: placesFrom [] ending rest

/-- What stands before, between and behind the signs. -/
def places (t : Tag) : List Text :=
  [] :: placesFrom t.name t.ending t.attributes

/-- Is the text read as the tag: with no other signs, and with each value in its place? -/
def Shown (s : Text) (t : Tag) : Prop :=
  Reads s t.delimiters t.places

theorem reads_attributes {front ending : Text} {attributes : List (Text × Text)} (hfront : IsFixed front)
    (hending : IsFixed ending) (hkeys : ∀ a ∈ attributes, IsFixed a.1) :
    Reads (front ++ attributes.flatMap (fun a => attr a.1 a.2) ++ ending ++ ">")
      (attributes.flatMap (fun _ => ['"', '"']) ++ ">") (placesFrom front ending attributes) := by
  induction attributes generalizing front with
  | nil =>
      have hend := Reads.fixed (hfront.append hending) (d := '>') rfl .nil
      simpa [placesFrom] using hend
  | cons a attributes ih =>
      obtain ⟨key, value⟩ := a
      obtain ⟨hkey, hrest⟩ := List.forall_mem_cons.mp hkeys
      have hbehind := Reads.value (v := value) (d := '"') rfl (ih (by decide : IsFixed []) hrest)
      have hname : IsFixed (front ++ " " ++ key ++ "=") :=
        ((hfront.append (by decide)).append hkey).append (by decide)
      have hwhole := Reads.fixed hname (d := '"') rfl hbehind
      simpa [attr, placesFrom] using hwhole

/-- A text that begins a tag, with attributes of fixed keys written behind the beginning. -/
structure Opens (start : Text) (attributes : List (Text × Text)) (s : Text) : Prop where
  eq_append : s = start ++ attributes.flatMap fun a => attr a.1 a.2
  isFixed_key : ∀ a ∈ attributes, IsFixed a.1

namespace Opens

variable {start s : Text} {attributes : List (Text × Text)}

theorem nil (start : Text) : Opens start [] start :=
  ⟨(List.append_nil start).symm, fun _ ha => absurd ha List.not_mem_nil⟩

theorem attr (h : Opens start attributes s) (key : Text) (hkey : IsFixed key) (value : Text) :
    Opens start (attributes ++ [(key, value)]) (s ++ Html.attr key value) := by
  constructor
  · rw [h.eq_append, List.flatMap_append, List.flatMap_singleton, List.append_assoc]
  · rw [List.forall_mem_append]
    exact ⟨h.isFixed_key, List.forall_mem_singleton.mpr hkey⟩

end Opens

/-- A tag is read as it is meant, whatever its values are. -/
theorem shown_of_opens {name ending start s finish : Text} {attributes : List (Text × Text)}
    (h : Opens start attributes s)
    (htemplate : start = "<" ++ name ∧ finish = ending ++ ">" ∧ IsFixed name ∧ IsFixed ending) :
    Shown (s ++ finish) ⟨name, attributes, ending⟩ := by
  obtain ⟨hstart, hfinish, hname, hending⟩ := htemplate
  have hbody := reads_attributes hname hending h.isFixed_key
  have hwhole := Reads.fixed (by decide : IsFixed []) (d := '<') rfl hbody
  rw [h.eq_append, hstart, hfinish]
  simpa [Shown, delimiters, places] using hwhole

end Tag

theorem Reads.element {name close value start finish : Text} (hname : IsFixed name) (hclose : IsFixed close)
    (hstart : start = '<' :: (name ++ ['>'])) (hfinish : finish = '<' :: (close ++ ['>'])) :
    Reads (start ++ escape value ++ finish) "<><>" [[], name, value, close, []] := by
  have hend := Reads.fixed hclose (d := '>') rfl .nil
  have hvalue := Reads.value (v := value) (d := '<') rfl hend
  have hopen := Reads.fixed hname (d := '>') rfl hvalue
  have hwhole := Reads.fixed (by decide : IsFixed []) (d := '<') rfl hopen
  have hsigns : "<><>".toList = ['<', '>', '<', '>'] := by decide
  rw [hstart, hfinish, hsigns]
  simpa using hwhole

end AtMark.Html
