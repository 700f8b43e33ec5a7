import AtMark.Proofs.Search
import AtMark.Proofs.Text.Line
import AtMark.Token.Line

/-!
# `Proofs.Token.Form`: how a line reads

`LineForm.ofLine` decides by the line alone how it reads.  Here are the readings that other statements rest on,
each by the shape of the line, and what can be said of a line from its reading: a line that reads as a
directive begins, behind its indentation, with an at sign and a name, and the name is the longest one there
and is not the closing marker.

`scan_cases` is what the step at a line can be.  Either the line is a directive's, and the step is that of
`scanDirective` behind the name, or it takes the line with its newline and gives the tokens of its form.  The
step at the body of a fence has two forms as well, for a closed body and for an open one
(`Fence.scan_of_closed`, `Fence.scan_of_open`).  Whatever is shown of every step goes through these cases, so that no
other module has to take a reader apart: the order of the tokens, their grammar, that each step reads something, and
that line ends do not matter.

These are not all the readings that there are.  What is here of a heading is a line that begins with its sign, of running
text a line that none of the other forms is seen in, and of a directive its name with anything behind; comments and
blank lines are read only as far as they must be told apart from these.
-/

namespace AtMark

open Text

namespace Name

variable {n s : Text}

/-- One or more of the characters that names are made of. -/
def IsName (n : Text) : Prop :=
  n ≠ [] ∧ ∀ c ∈ n, isNameChar c = true

instance : DecidablePred IsName :=
  fun n => decidable_of_iff (n ≠ [] ∧ n.all isNameChar = true) (and_congr_right' List.all_eq_true)

theorem take_append (hn : ∀ c ∈ n, isNameChar c = true) (hs : ∀ c ∈ s.head?, isNameChar c = false) :
    take (n ++ s) = n :=
  takeWhile_append_of_head hn hs

theorem rest_append (hn : ∀ c ∈ n, isNameChar c = true) (hs : ∀ c ∈ s.head?, isNameChar c = false) :
    rest (n ++ s) = s :=
  dropWhile_append_of_head hn hs

theorem isBlank_eq_false {c : Char} (h : isNameChar c = true) : isBlank c = false := by
  have hcode : 0x2D ≤ c.toNat ∧ c.toNat ≤ 0x7A := by
    have hrange : ∀ low high : Char, low.val ≤ c.val ∧ c.val ≤ high.val →
        low.toNat ≤ c.toNat ∧ c.toNat ≤ high.toNat :=
      fun _ _ hc => ⟨UInt32.le_iff_toNat_le.mp hc.1, UInt32.le_iff_toNat_le.mp hc.2⟩
    rcases Bool.or_eq_true_iff.mp h with h | h
    · rcases Bool.or_eq_true_iff.mp h with h | h
      · rcases Bool.or_eq_true_iff.mp h with h | h
        · rcases Bool.or_eq_true_iff.mp h with h | h
          · have hupper := hrange 'A' 'Z' (of_decide_eq_true h)
            exact ⟨Nat.le_trans (by decide) hupper.1, Nat.le_trans hupper.2 (by decide)⟩
          · obtain ⟨hlow, hhigh⟩ := Bool.and_eq_true_iff.mp h
            have hlower := hrange 'a' 'z' ⟨of_decide_eq_true hlow, of_decide_eq_true hhigh⟩
            exact ⟨Nat.le_trans (by decide) hlower.1, hlower.2⟩
        · obtain ⟨hlow, hhigh⟩ := Bool.and_eq_true_iff.mp h
          have hdigit := hrange '0' '9' ⟨of_decide_eq_true hlow, of_decide_eq_true hhigh⟩
          exact ⟨Nat.le_trans (by decide) hdigit.1, Nat.le_trans hdigit.2 (by decide)⟩
      · rw [beq_iff_eq.mp h]
        decide
    · rw [beq_iff_eq.mp h]
      decide
  simp only [isBlank, blankRanges, List.any_cons, List.any_nil, Bool.or_false, Bool.or_eq_false_iff,
    Bool.and_eq_false_iff, decide_eq_false_iff_not]
  omega

theorem isName_take (h : take s ≠ []) : IsName (take s) :=
  ⟨h, fun _ hc => List.mem_takeWhile_imp hc⟩

end Name

namespace Directive

/-- The name of a directive: an at sign and a name.  The closing marker has that shape too, but it names no
directive. -/
def IsName (name : Text) : Prop :=
  ∃ n, name = '@' :: n ∧ Name.IsName n ∧ name ≠ Token.endMarker

theorem isName_iff {name : Text} :
    IsName name ↔ name.head? = some '@' ∧ Name.IsName name.tail ∧ name ≠ Token.endMarker := by
  constructor
  · rintro ⟨n, rfl, hn, hend⟩
    exact ⟨rfl, hn, hend⟩
  · rintro ⟨hhead, hn, hend⟩
    exact ⟨name.tail, List.eq_cons_of_mem_head? hhead, hn, hend⟩

instance : DecidablePred IsName :=
  fun _ => decidable_of_iff _ isName_iff.symm

end Directive

/-! ## Parameters -/

namespace Parameters

variable {s : Text}

theorem readValue_of_head (h : (s.dropWhile isIndent).head? ≠ some '"') :
    readValue s = ⟨(s.dropWhile isIndent).takeWhile isBare, false, (s.dropWhile isIndent).dropWhile isBare⟩ := by
  unfold readValue
  split
  · next cs hcs => exact absurd (hcs ▸ rfl) h
  · rfl

theorem readValue_quote {cs : Text} (h : s.dropWhile isIndent = '"' :: cs) : readValue s = Quoted.read cs := by
  unfold readValue
  rw [h]
  rfl

theorem readAssigned_of_head (h : (s.dropWhile isIndent).head? ≠ some '=') : readAssigned s = ⟨[], false, s⟩ := by
  unfold readAssigned
  split
  · next cs hcs => exact absurd (hcs ▸ rfl) h
  · rfl

theorem readAssigned_equals {cs : Text} (h : s.dropWhile isIndent = '=' :: cs) : readAssigned s = readValue cs := by
  unfold readAssigned
  rw [h]
  rfl

/-- A key ends where the name does, and what stands behind it is its value. -/
theorem scan_item {key : Text} (hkey : Name.IsName key) (hs : ∀ c ∈ s.head?, Name.isNameChar c = false) :
    scan (key ++ s) =
      (scan (readAssigned s).rest).cons ⟨key, (readAssigned s).value, (readAssigned s).owned⟩ := by
  obtain ⟨hne, hall⟩ := hkey
  obtain ⟨c, cs, rfl⟩ := List.exists_cons_of_ne_nil hne
  have hc : Name.isNameChar c = true := hall c List.mem_cons_self
  have hclose : c ≠ ')' := by
    rintro rfl
    exact absurd hc (by decide)
  have hcs : ∀ d ∈ cs, Name.isNameChar d = true := fun d hd => hall d (List.mem_cons_of_mem _ hd)
  rw [List.cons_append, scan, if_neg hclose, if_pos hc, readItem, Name.take_append hcs hs,
    Name.rest_append hcs hs]

end Parameters

/-! ## Escapes -/

namespace Escape

variable {s before after : Text}

theorem resolve_of_none (h : Search.breakOn mark s = none) : resolve s = s := by
  rw [resolve]
  split
  · rfl
  · next hsome =>
    rw [h] at hsome
    cases hsome

theorem resolve_of_some (h : Search.breakOn mark s = some (before, after)) :
    resolve s = before ++ '@' :: after.takeWhile isSolid ++ resolve (after.dropWhile isSolid) := by
  rw [resolve]
  split
  · next hnone =>
    rw [h] at hnone
    cases hnone
  · next hsome =>
    rw [h] at hsome
    cases hsome
    rfl

theorem resolve_ne_nil (h : s ≠ []) : resolve s ≠ [] := by
  cases hbreak : Search.breakOn mark s with
  | none =>
      rw [resolve_of_none hbreak]
      exact h
  | some found =>
      rw [resolve_of_some hbreak]
      simp

end Escape

namespace Prose

theorem tokens_eq {s : Text} (h : ¬Escape.mark <:+: s) :
    tokens s = Token.contentUnlessEmpty (trimEnd isTrailing s) false := by
  fun_cases tokens s with
  | case1 hbreak => rfl
  | case2 before after hbreak => exact absurd ⟨before, after, (Search.eq_of_breakOn hbreak).symm⟩ h

theorem tokens_of_some {s before after : Text}
    (h : Search.breakOn Escape.mark s = some (before, after)) :
    tokens s = (if allBlank before then [] else [⟨.content, before, false⟩]) ++
      ⟨.content, '@' :: after.takeWhile isSolid, true⟩ ::
        tokens ((after.dropWhile isSolid).dropWhile isIndent) := by
  rw [tokens]
  split
  · next hnone =>
    rw [h] at hnone
    cases hnone
  · next hsome =>
    rw [h] at hsome
    cases hsome
    rfl

theorem tokens_escape {w : Text} (hw : ∀ c ∈ w, isSolid c = true) :
    tokens (Escape.mark ++ w) = [⟨.content, '@' :: w, true⟩] := by
  have hword : w.takeWhile isSolid = w := List.takeWhile_eq_self_iff.mpr hw
  have hbehind : w.dropWhile isSolid = [] := List.dropWhile_eq_nil_iff.mpr hw
  have hnone : tokens [] = [] := tokens_eq (by decide)
  rw [tokens_of_some (Search.breakOn_mark Escape.mark w), hword, hbehind, List.dropWhile_nil, hnone]
  rfl

end Prose

/-! ## Behind the header of a fence -/

namespace Fence

variable {s : Text}

theorem skipHeaderEnd_of_newline {rest : Text} (h : s.dropWhile isIndent = '\n' :: rest) :
    skipHeaderEnd s = rest := by
  unfold skipHeaderEnd
  rw [h]
  rfl

theorem skipHeaderEnd_of_return {rest : Text} (h : s.dropWhile isIndent = '\r' :: '\n' :: rest) :
    skipHeaderEnd s = rest := by
  unfold skipHeaderEnd
  rw [h]
  rfl

theorem skipHeaderEnd_of_head (h : ∀ c ∈ (s.dropWhile isIndent).head?, c ≠ '\n' ∧ c ≠ '\r') :
    skipHeaderEnd s = s.dropWhile isIndent := by
  unfold skipHeaderEnd
  split
  · next rest heq =>
    rw [heq] at h
    exact absurd rfl (h '\r' rfl).2
  · next rest heq =>
    rw [heq] at h
    exact absurd rfl (h '\n' rfl).1
  · rfl

/-! ## The step at a fence -/

theorem rest_eq_nil_of_open (h : (read s).closed = false) : (read s).rest = [] := by
  fun_induction read s with
  | case1 => rfl
  | case2 => exact Bool.noConfusion h
  | case3 => exact Bool.noConfusion h
  | case4 s hne text hform ih => exact ih h

theorem scan_of_open (directive : Text) (h : (read s).closed = false) :
    scan directive s = ⟨Token.contentUnlessEmpty (joinLines (read s).lines) true,
      [.fenceFlushed directive (read s).lines.length], ⟨[], none⟩⟩ := by
  unfold scan Body.tokens
  dsimp only
  rw [h, rest_eq_nil_of_open h]
  exact congrArg (Step.mk · _ _) (List.append_nil _)

theorem scan_of_closed (directive : Text) (h : (read s).closed = true) :
    scan directive s = ⟨Token.contentUnlessEmpty (joinLines (read s).lines) false ++ [Token.blockEnd], [],
      ⟨(read s).rest, none⟩⟩ := by
  unfold scan Body.tokens
  dsimp only
  rw [h]
  rfl

end Fence

namespace Line
namespace LineForm

variable {indent line name n s : Text}

/-! ## Lines that begin with an at sign -/

theorem ofMark_eq_directive (h : Directive.IsName ('@' :: Name.take s)) :
    ofMark s = directive ('@' :: Name.take s) := by
  obtain ⟨n, hcons, ⟨hne, hall⟩, hend⟩ := h
  obtain rfl : Name.take s = n := (List.cons.inj hcons).2
  have hhead : s.head? ≠ some '@' := by
    intro hs
    cases s with
    | nil => exact absurd hs (by simp)
    | cons c s =>
        cases hs
        exact hne rfl
  unfold ofMark
  dsimp only
  rw [if_neg hhead, if_neg hne, if_neg hend]

theorem directive_of_ofMark (h : ofMark s = directive name) :
    name = '@' :: Name.take s ∧ Directive.IsName name := by
  unfold ofMark at h
  dsimp only at h
  split at h
  · exact LineForm.noConfusion h
  · split at h
    · split at h <;> exact LineForm.noConfusion h
    · next hne =>
      split at h
      · exact LineForm.noConfusion h
      · next hend =>
        cases h
        exact ⟨rfl, Name.take s, rfl, Name.isName_take hne, hend⟩

theorem trim_mark (hindent : ∀ c ∈ indent, isIndent c = true) :
    trim isTrailing (indent ++ '@' :: s) = '@' :: trimEnd isTrailing s := by
  have htrailing : ∀ c ∈ indent, isTrailing c = true := by
    intro c hc
    rw [isTrailing, hindent c hc, Bool.true_or]
  have hmark : ∀ c ∈ ('@' :: s).head?, isTrailing c = false := by
    intro c hc
    cases hc
    rfl
  rw [trim, dropWhile_append_of_head htrailing hmark]
  exact trimEnd_cons rfl

/-- A line that begins with an at sign reads as what stands behind the sign says, unless the line is the
closing marker. -/
theorem ofLine_mark (hindent : ∀ c ∈ indent, isIndent c = true)
    (hend : '@' :: trimEnd isTrailing s ≠ Token.endMarker) :
    ofLine (indent ++ '@' :: s) = ofMark s := by
  have hskipped : ¬('@' :: trimEnd isTrailing s = [] ∨
      (Search.skip? "#:" ('@' :: trimEnd isTrailing s)).isSome) := by
    rintro (h | h)
    · exact List.cons_ne_nil _ _ h
    · exact Bool.noConfusion h
  have hmark : ∀ c ∈ ('@' :: s).head?, isIndent c = false := by
    intro c hc
    cases hc
    rfl
  unfold ofLine
  dsimp only
  rw [trim_mark hindent, if_neg hskipped, if_neg hend, dropWhile_append_of_head hindent hmark]
  rfl

/-- A directive's header reads as that directive, whatever stands behind the name. -/
theorem ofLine_header (hindent : ∀ c ∈ indent, isIndent c = true)
    (hname : Directive.IsName name) (hs : ∀ c ∈ s.head?, Name.isNameChar c = false) :
    ofLine (indent ++ name ++ s) = directive name := by
  obtain ⟨n, rfl, hn, hend⟩ := hname
  have htake : Name.take (n ++ s) = n := Name.take_append hn.2 hs
  have hcore : '@' :: trimEnd isTrailing (n ++ s) ≠ Token.endMarker := by
    intro h
    have htail : trimEnd isTrailing (n ++ s) = "end".toList := (List.cons.inj h).2
    have hsolid : ∀ c ∈ n, isTrailing c = false := by
      intro c hc
      have hc := hn.2 c hc
      by_contra ht
      simp only [isTrailing, isIndent, Bool.not_eq_false, Bool.or_eq_true, beq_iff_eq] at ht
      rcases ht with (rfl | rfl) | rfl <;> exact Bool.noConfusion hc
    rw [trimEnd_append hsolid] at htail
    -- What is left of `s` would have to continue the name, so nothing is left of it.
    have hrest : trimEnd isTrailing s = [] := by
      cases hr : trimEnd isTrailing s with
      | nil => rfl
      | cons c r =>
          have hc : c ∈ "end".toList := by
            rw [← htail, hr]
            exact List.mem_append_right _ List.mem_cons_self
          obtain ⟨tail, hs'⟩ := isPrefix_trimEnd isTrailing s
          have hhead : Name.isNameChar c = false := by
            refine hs c ?_
            rw [← hs', hr]
            rfl
          have hall : ∀ c ∈ "end".toList, Name.isNameChar c = true :=
            List.all_eq_true.mp (by decide)
          rw [hall c hc] at hhead
          exact Bool.noConfusion hhead
    rw [hrest, List.append_nil] at htail
    exact hend (by rw [htail]; rfl)
  rw [List.append_assoc, List.cons_append, ofLine_mark hindent hcore,
    ofMark_eq_directive (by rw [htake]; exact ⟨n, rfl, hn, hend⟩), htake]

/-! ## Running text -/

theorem heading?_eq_none (h : ∀ c ∈ s.head?, c ≠ '#') : heading? s = none := by
  have hhashes : s.takeWhile (· == '#') = [] := by
    cases s with
    | nil => rfl
    | cons c s => exact List.takeWhile_cons_of_neg (by simpa using h c rfl)
  unfold heading?
  dsimp only
  rw [hhashes]
  exact if_neg fun h => absurd h.1 (by decide)

theorem ofBody_of_head {c : Char} (hc : c ≠ '@') (s : Text) :
    ofBody (c :: s) = match heading? (trimEnd isTrailing (c :: s)) with
      | some (level, text) => heading level text
      | none => prose (c :: s) := by
  unfold ofBody
  split
  · next heq => exact absurd (List.cons.inj heq).1 hc
  · rfl

/-- A line that begins with a hash sign and a heading is that heading, unless it is a comment. -/
theorem ofLine_hash {level : Nat} {text : Text} (hindent : ∀ c ∈ indent, isIndent c = true)
    (hlast : ∀ c ∈ ('#' :: s).getLast?, isTrailing c = false) (hcomment : s.head? ≠ some ':')
    (hheading : heading? ('#' :: s) = some (level, text)) :
    ofLine (indent ++ '#' :: s) = heading level text := by
  have hhash : ∀ c ∈ ('#' :: s).head?, isTrailing c = false ∧ isIndent c = false := by
    rintro c ⟨⟩
    exact ⟨rfl, rfl⟩
  have htrim : trim isTrailing (indent ++ '#' :: s) = '#' :: s :=
    trim_append_of_ends (fun c hc => by rw [isTrailing, hindent c hc, Bool.true_or])
      (fun c hc => (hhash c hc).1) hlast
  have hskipped : ¬('#' :: s = [] ∨ (Search.skip? "#:" ('#' :: s)).isSome) := by
    rintro (h | h)
    · exact List.cons_ne_nil _ _ h
    · obtain ⟨rest, hrest⟩ := Option.isSome_iff_exists.mp h
      have hs : s = ':' :: rest := (List.cons.inj (Search.skip?_eq_some_iff.mp hrest)).2
      exact hcomment (by rw [hs, List.head?_cons])
  have hmarker : '#' :: s ≠ Token.endMarker := fun h => absurd (List.cons.inj h).1 (by decide)
  unfold ofLine
  dsimp only
  rw [htrim, if_neg hskipped, if_neg hmarker,
    dropWhile_append_of_head hindent fun c hc => (hhash c hc).2, ofBody_of_head (by decide),
    trimEnd_eq_self hlast, hheading]

theorem ofBody_eq_prose (h : ∀ c ∈ s.head?, c ≠ '@' ∧ c ≠ '#') : ofBody s = prose s := by
  have hheading : heading? (trimEnd isTrailing s) = none := by
    refine heading?_eq_none fun c hc => ?_
    obtain ⟨tail, hs⟩ := isPrefix_trimEnd isTrailing s
    refine (h c ?_).2
    rw [← hs, List.head?_append, hc]
    rfl
  unfold ofBody
  split
  · exact absurd rfl (h '@' rfl).1
  · rw [hheading]

/-! ## What a reading says of the line -/

/-- A line that reads as a directive begins with its name, behind the indentation. -/
theorem directive_of_ofLine (h : ofLine line = directive name) :
    Directive.IsName name ∧
      ∃ s, line.dropWhile isIndent = name ++ s ∧ ∀ c ∈ s.head?, Name.isNameChar c = false := by
  unfold ofLine at h
  dsimp only at h
  split at h
  · exact LineForm.noConfusion h
  · split at h
    · exact LineForm.noConfusion h
    · unfold ofBody at h
      split at h
      · next s hs =>
        obtain ⟨rfl, hname⟩ := directive_of_ofMark h
        refine ⟨hname, Name.rest s, ?_, ?_⟩
        · rw [hs, List.cons_append, Name.take_append_rest]
        · intro c hc
          have hnot := List.head?_dropWhile_not Name.isNameChar s
          rw [← Name.rest, hc] at hnot
          exact hnot
      · split at h <;> exact LineForm.noConfusion h

/-! ## The step at a line -/

/-- The tokens of a line of a form; those of a directive are not decided by its line. -/
def tokens : LineForm → List Token
  | skipped => []
  | closer => [Token.blockEnd]
  | heading level text => headingTokens level text
  | directive _ => []
  | loneMark text => ⟨.content, "@", false⟩ :: Prose.tokens text
  | prose text => Prose.tokens text

end LineForm

variable {s name : Text}

/-! ### What follows a header -/

theorem tailTokens_nil : tailTokens [] = [] := rfl

/-- The tokens of what follows a header on its line: none, or a closing marker alone, or first a text. -/
theorem tailTokens_cases (hs : ∀ c ∈ s.head?, isIndent c = false) :
    (s = [] ∧ tailTokens s = []) ∨ (s = Token.endMarker ∧ tailTokens s = [Token.blockEnd]) ∨
      (s ≠ [] ∧ s ≠ Token.endMarker ∧ ∃ text owned ts, text ≠ [] ∧
        tailTokens s = ⟨.content, text, owned⟩ :: ts) := by
  unfold tailTokens
  cases hcut : Search.cutEnd? Token.endMarker s with
  | none =>
      have hne : s ≠ Token.endMarker := by
        rintro rfl
        exact absurd hcut (by decide)
      by_cases hnil : s = []
      · exact .inl ⟨hnil, if_pos hnil⟩
      · exact .inr (.inr ⟨hnil, hne, _, _, [], Escape.resolve_ne_nil hnil, if_neg hnil⟩)
  | some front =>
      obtain rfl := Search.cutEnd?_eq_some_iff.mp hcut
      have hnil : front ++ Token.endMarker ≠ [] := List.append_ne_nil_of_right_ne_nil _ (by decide)
      by_cases hfront : front = []
      · subst hfront
        exact .inr (.inl ⟨rfl, rfl⟩)
      · have hne : front ++ Token.endMarker ≠ Token.endMarker :=
          fun heq => hfront (List.append_left_eq_self.mp heq)
        refine .inr (.inr ⟨hnil, hne, ?_⟩)
        dsimp only
        split
        · exact ⟨_, _, [], Escape.resolve_ne_nil hnil, rfl⟩
        · have hbody : trimEnd isIndent front ≠ [] := by
            intro hall
            obtain ⟨c, rest, rfl⟩ := List.exists_cons_of_ne_nil hfront
            have hc := trimEnd_eq_nil_iff.mp hall c List.mem_cons_self
            rw [hs c rfl] at hc
            exact Bool.noConfusion hc
          exact ⟨_, _, _, Escape.resolve_ne_nil hbody, by rw [if_neg hbody]; rfl⟩

/-! ### Lines -/

/-- Where the first line is a directive's, the text begins with the name, and the rest of the line and all
that follows it come behind. -/
theorem exists_dropWhile_eq (h : LineForm.ofLine (firstLine s) = .directive name) :
    ∃ r, s.dropWhile isIndent = name ++ (r ++ fromLineEnd s) := by
  obtain ⟨⟨n, hcons, -, -⟩, r, hr, -⟩ := LineForm.directive_of_ofLine h
  have hmark : '@' ∈ firstLine s := by
    refine (List.dropWhile_suffix isIndent).subset ?_
    rw [hr, hcons]
    exact List.mem_cons_self
  refine ⟨r, ?_⟩
  calc s.dropWhile isIndent
      = (firstLine s ++ fromLineEnd s).dropWhile isIndent := by
        rw [firstLine_append_fromLineEnd]
    _ = (firstLine s).dropWhile isIndent ++ fromLineEnd s := dropWhile_append_of_mem hmark rfl
    _ = name ++ (r ++ fromLineEnd s) := by rw [hr, List.append_assoc]

theorem scanDirective_fenced {fenced : List Text} (hname : name ∈ fenced) (s : Text) :
    scanDirective fenced name s =
      ⟨⟨.directive, name, false⟩ :: (parameters s).tokens,
       if (parameters s).closed then [] else [.unterminatedList name],
       ⟨Fence.bodyStart name (parameters s).rest, some name⟩⟩ :=
  if_pos hname

theorem scanDirective_unfenced {fenced : List Text} (hname : name ∉ fenced) (s : Text) :
    scanDirective fenced name s =
      ⟨⟨.directive, name, false⟩ :: (parameters s).tokens ++
          tailTokens (trim isTrailing (firstLine (parameters s).rest)),
       if (parameters s).closed then [] else [.unterminatedList name],
       ⟨afterLine (parameters s).rest, none⟩⟩ :=
  if_neg hname

theorem scanDirective_notices (fenced : List Text) (name s : Text) :
    (scanDirective fenced name s).notices =
      if (parameters s).closed then [] else [.unterminatedList name] := by
  by_cases hname : name ∈ fenced
  · rw [scanDirective_fenced hname]
  · rw [scanDirective_unfenced hname]

theorem scan_directive (fenced : List Text) {rest : Text}
    (h : LineForm.ofLine (firstLine s) = .directive name) (hrest : s.dropWhile isIndent = name ++ rest) :
    scan fenced s = scanDirective fenced name rest := by
  unfold scan
  rw [h, hrest]
  dsimp only
  rw [List.drop_left]

theorem scan_line (fenced : List Text) (h : ∀ name, LineForm.ofLine (firstLine s) ≠ .directive name) :
    scan fenced s = ⟨(LineForm.ofLine (firstLine s)).tokens, [], ⟨afterLine s, none⟩⟩ := by
  unfold scan
  cases hform : LineForm.ofLine (firstLine s) with
  | directive name => exact absurd hform (h name)
  | skipped => rfl
  | closer => rfl
  | heading level text => rfl
  | loneMark text => rfl
  | prose text => rfl

/-- What the step at a line can be. -/
theorem scan_cases (fenced : List Text) (s : Text) :
    (∃ name r, LineForm.ofLine (firstLine s) = .directive name ∧
      s.dropWhile isIndent = name ++ (r ++ fromLineEnd s) ∧
      scan fenced s = scanDirective fenced name (r ++ fromLineEnd s)) ∨
    ((∀ name, LineForm.ofLine (firstLine s) ≠ .directive name) ∧
      scan fenced s = ⟨(LineForm.ofLine (firstLine s)).tokens, [], ⟨afterLine s, none⟩⟩) := by
  by_cases h : ∃ name, LineForm.ofLine (firstLine s) = .directive name
  · obtain ⟨name, hname⟩ := h
    obtain ⟨r, hr⟩ := exists_dropWhile_eq hname
    exact .inl ⟨name, r, hname, hr, scan_directive fenced hname hr⟩
  · have hnot : ∀ name, LineForm.ofLine (firstLine s) ≠ .directive name :=
      fun name hname => h ⟨name, hname⟩
    exact .inr ⟨hnot, scan_line fenced hnot⟩

/-- A name and a parenthesis make a directive, wherever the list ends. -/
theorem scan_list (fenced : List Text) (hname : Directive.IsName name) (inner : Text) :
    scan fenced (name ++ '(' :: inner) = scanDirective fenced name ('(' :: inner) := by
  have hform : LineForm.ofLine (firstLine (name ++ '(' :: inner)) = .directive name := by
    have hline : ∀ c ∈ name, isInLine c = true := by
      obtain ⟨n, rfl, ⟨-, hall⟩, -⟩ := hname
      intro c hc
      rcases List.mem_cons.mp hc with rfl | hc
      · rfl
      · refine bne_iff_ne.mpr ?_
        rintro rfl
        exact absurd (hall '\n' hc) (by decide)
    have hparen : ∀ c ∈ ('(' :: firstLine inner).head?, Name.isNameChar c = false := by
      rintro c ⟨⟩
      rfl
    rw [firstLine, List.takeWhile_append_of_pos hline]
    exact LineForm.ofLine_header (fun _ h => absurd h List.not_mem_nil) hname hparen
  refine scan_directive fenced hform ?_
  obtain ⟨n, rfl, -, -⟩ := hname
  rfl

end Line
end AtMark
