import AtMark.Proofs.Position.Round
import AtMark.Proofs.Position.Run

/-!
# `Proofs.Position.Invariant`: what holds at the start of every round

## What is proved

The reader of lines takes for granted that it stands at the start of a line, and the reader of a fence that the
directive of the fence has just been read.  Nothing checks it: parameter lists run over lines, a list that is given up
ends inside a line, fences open inside a line and close in two ways.  Still it holds in every round, together with the
bounds of the position and with what the rounds have read so far (`visits_standing`).

## How

Each step ends in one of two ways (`readStep_ends`).  It leaves no fence open, and then it stands behind the end of a
line; or it leaves one open, and then its last tokens are the header of the directive.  Whichever it is, the next
round may take for granted what it does (`StepEnds.standing`), and the first one may because nothing was read before it
(`standing_start`).

The rounds are the ones of a run, one behind the other (`MarkupVisits`), and each of them begins behind the one before,
so the guard stays out of it and the last of them has read the source (`MarkupVisits.exists_last`).

## What is not

Readers of lines in general.  A run of any other reader has its rounds, too, but what they may take for granted is up
to that reader; for one that stands still see `Proofs.Position.Round`.
-/

namespace AtMark.Position

open Text

variable {source rest : Text} {fenced : List Text} {limit : Int} {position start : Nat} {s next : ReaderState}

/-! ## Behind the end of a line -/

/-- The position is behind the end of a line, or behind the source. -/
def IsBehindLine (source : Text) (position : Nat) : Prop :=
  position ≤ source.length + 1 ∧ (position < source.length → source[position - 1]? = some '\n')

theorem isBehindLine_length (source : Text) : IsBehindLine source source.length :=
  ⟨Nat.le_succ _, fun h => absurd h (Nat.lt_irrefl _)⟩

theorem isBehindLine_lineEnd (source : Text) (position : Nat) : IsBehindLine source (lineEnd source position + 1) := by
  obtain ⟨front, hfront⟩ := (fromLineEnd_suffix (source.drop position)).trans (List.drop_suffix position source)
  have hend : lineEnd source position = front.length := by
    have hlength := congrArg List.length hfront
    rw [List.length_append] at hlength
    rw [lineEnd]
    omega
  rw [hend]
  rcases fromLineEnd_eq_nil_or (source.drop position) with hnil | ⟨behind, hline⟩
  · rw [hnil, List.append_nil] at hfront
    rw [hfront]
    exact ⟨Nat.le_refl _, fun h => absurd h (by omega)⟩
  · rw [hline] at hfront
    rw [← hfront]
    refine ⟨?_, fun _ => ?_⟩
    · rw [List.length_append]
      omega
    · rw [Nat.add_sub_cancel, List.getElem?_append_right (Nat.le_refl _), Nat.sub_self]
      rfl

theorem isBehindLine_readBody (source : Text) (position : Nat) (lines : List Text) :
    IsBehindLine source (readBody source position lines).stop := by
  fun_induction readBody source position lines with
  | case1 position lines _ stop _ => exact isBehindLine_lineEnd source position
  | case2 position lines _ stop _ _ => exact isBehindLine_lineEnd source position
  | case3 position lines _ stop _ _ ih => exact ih
  | case4 position lines _ => exact isBehindLine_length source

/-! ## How a step ends -/

/-- The tokens end with the header of a directive: its own token, and keys and values behind it. -/
def EndsWithHeaderOf (directive : Text) (ts : List Token) : Prop :=
  ∃ front parameters, ts = front ++ ⟨.directive, directive, false⟩ :: parameters ∧
    ∀ t ∈ parameters, t.kind = .parameterKey ∨ t.kind = .parameterValue

/-- How a step ends: behind a line, or in the fence that its last tokens open. -/
inductive StepEnds (source : Text) (fenced : List Text) (next : ReaderState) : Prop
  | behindLine (fence_eq : next.fence = none) (behind : IsBehindLine source next.position)
  | inFence (directive : Text) (fence_eq : next.fence = some directive) (mem : directive ∈ fenced)
      (header : EndsWithHeaderOf directive next.tokens) (position_le : next.position ≤ source.length)

theorem kind_of_mem_tokens {list : Parameters.Scan} {t : Token} (h : t ∈ list.tokens) :
    t.kind = .parameterKey ∨ t.kind = .parameterValue := by
  obtain ⟨p, -, ht⟩ := List.mem_flatMap.mp h
  rcases List.mem_cons.mp ht with rfl | ht
  · exact .inl rfl
  · rw [List.mem_singleton.mp ht]
    exact .inr rfl

theorem readDirective_ends {name : Text} (hs : s.fence = none) (h : Stands source start (name ++ rest) source.length)
    (hnext : readDirective source fenced limit start (start + name.length) s = .ok next) :
    StepEnds source fenced next := by
  have hlist := h.behind.of_suffix (Line.parameters_rest_suffix rest)
  unfold readDirective at hnext
  rw [h.slice_run_eq, readList_eq limit h.behind] at hnext
  dsimp only at hnext
  rw [ok_bind] at hnext
  by_cases hname : name ∈ fenced
  · rw [if_pos (List.contains_iff_mem.mpr hname), openFence_eq name hlist, ok_bind] at hnext
    obtain rfl := Except.ok.inj hnext
    exact .inFence name rfl hname ⟨s.tokens, _, rfl, fun t => kind_of_mem_tokens⟩ (Nat.sub_le _ _)
  · rw [if_neg (mt List.contains_iff_mem.mp hname), readTail_eq, ok_bind] at hnext
    obtain rfl := Except.ok.inj hnext
    exact .behindLine hs (isBehindLine_lineEnd _ _)

theorem readLine_ends (hs : s.fence = none) (h : Stands source s.position rest source.length)
    (hnext : readLine source fenced limit s = .ok next) : StepEnds source fenced next := by
  rw [readLine_eq fenced limit h] at hnext
  rcases Line.scan_cases fenced rest with ⟨name, r, hname, hr, -⟩ | ⟨hnot, -⟩
  · have hindent : (firstLine rest).takeWhile isIndent = rest.takeWhile isIndent :=
      takeWhile_firstLine (by decide) rest
    have hstart := (h.split isIndent).behind
    rw [hr] at hstart
    rw [hname, hindent] at hnext
    exact readDirective_ends hs hstart hnext
  · unfold readForm at hnext
    split at hnext
    · next name hname => exact absurd hname (hnot name)
    · obtain rfl := Except.ok.inj hnext
      exact .behindLine hs (isBehindLine_lineEnd _ _)

theorem readStep_ends (h : s.position < source.length) (hnext : readStep source fenced limit s = .ok next) :
    StepEnds source fenced next := by
  unfold readStep at hnext
  cases hfence : s.fence with
  | none =>
      rw [hfence] at hnext
      exact readLine_ends hfence (Stands.drop_of_le (Nat.le_of_lt h)) hnext
  | some directive =>
      rw [hfence] at hnext
      obtain rfl := Except.ok.inj hnext
      exact .behindLine rfl (isBehindLine_readBody source s.position [])

theorem lt_of_readStep (h : s.position < source.length) (hnext : readStep source fenced limit s = .ok next) :
    s.position < next.position := by
  rcases movesForward_markupLoop source fenced limit s h with ⟨reached, hround, hforward⟩ | ⟨result, -⟩
  · have hreached : (readStep source fenced limit s).map Sum.inl = .ok (.inl reached) := hround
    rw [hnext] at hreached
    obtain rfl := Sum.inl.inj (Except.ok.inj hreached)
    exact hforward
  · exact result.elim

/-! ## Every round -/

/-- What the reader takes for granted at the start of a round. -/
structure Standing (source : Text) (fenced : List Text) (s : ReaderState) : Prop where
  position_le : s.position ≤ source.length + 1
  line_start : s.fence = none → s.position < source.length →
    s.position = 0 ∨ source[s.position - 1]? = some '\n'
  open_fence : ∀ directive, s.fence = some directive → directive ∈ fenced ∧ EndsWithHeaderOf directive s.tokens

theorem StepEnds.standing (h : StepEnds source fenced next) : Standing source fenced next := by
  cases h with
  | behindLine hfence hbehind =>
      exact ⟨hbehind.1, fun _ hlt => .inr (hbehind.2 hlt), fun _ hopen => (nomatch hfence.symm.trans hopen)⟩
  | inFence directive hfence hmem hheader hle =>
      refine ⟨Nat.le_succ_of_le hle, fun hnone => (nomatch hfence.symm.trans hnone), fun other hopen => ?_⟩
      obtain rfl := Option.some.inj (hfence.symm.trans hopen)
      exact ⟨hmem, hheader⟩

theorem standing_start (source : Text) (fenced : List Text) : Standing source fenced ⟨0, none, []⟩ :=
  ⟨Nat.zero_le _, fun _ _ => .inl rfl, nofun⟩

section Visits

variable {r : Round}

/-- What a round has read, and what is read from where it stands, is all there is to read. -/
theorem MarkupVisits.tokens_eq (h : MarkupVisits source fenced limit r) :
    (TokenStream.unguarded fenced ⟨source, none⟩).tokens =
      r.state.tokens ++ (TokenStream.unguarded fenced ⟨source.drop r.state.position, r.state.fence⟩).tokens := by
  refine h.state_of_step (fun s => (TokenStream.unguarded fenced ⟨source, none⟩).tokens =
    s.tokens ++ (TokenStream.unguarded fenced ⟨source.drop s.position, s.fence⟩).tokens) rfl ?_
  intro s next hs hlt hnext
  obtain ⟨reached, hstep, hreaches⟩ := readStep_reaches fenced limit (Nat.le_of_lt hlt)
  obtain rfl := Except.ok.inj (hnext.symm.trans hstep)
  have hne : (Cursor.mk (source.drop s.position) s.fence).rest ≠ [] := drop_ne_nil_of_lt hlt
  rw [hs, TokenStream.unguarded_step fenced hne, hreaches.tokens_eq, hreaches.rest_eq, hreaches.fence_eq,
    List.append_assoc]
  rfl

/-- Each round begins behind the one before, so the guard stays out of it and the rounds come to the end. -/
theorem MarkupVisits.exists_last (h : MarkupVisits source fenced limit r)
    (hmoved : r.previous ≠ some r.state.position) :
    ∃ last, MarkupVisits source fenced limit last ∧ ¬last.state.position < source.length := by
  -- The induction is on how far the end is.
  induction hn : source.length - r.state.position using Nat.strong_induction_on generalizing r with
  | _ n ih =>
      by_cases hlt : r.state.position < source.length
      · obtain ⟨next, hstep, -⟩ := readStep_reaches fenced limit (Nat.le_of_lt hlt)
        have hforward := lt_of_readStep hlt hstep
        have hne : some r.state.position ≠ some next.position := fun heq => Nat.ne_of_lt hforward (Option.some.inj heq)
        exact ih (source.length - next.position) (by omega) (h.moved hlt hmoved hstep) hne rfl
      · exact ⟨r, h, hlt⟩

/-- At the start of every round the reader stands within the source or right behind it, at the start of a line unless a
fence is open, and in an open fence right behind the header of a fenced directive.  These are the rounds in which the
stream of the source is read: each has read the front of it, and the last has read it all. -/
theorem visits_standing (fenced : List Text) (limit : Int) (source : Source) :
    ∃ stream, TokenStream.ofSource fenced limit source = .ok stream ∧
      (∀ r, MarkupVisits source.decode fenced limit r →
        Standing source.decode fenced r.state ∧ r.state.tokens <+: stream.tokens) ∧
      ∃ last, MarkupVisits source.decode fenced limit last ∧
        last.outcome? source.decode limit = some (.ok last.state) ∧ last.state.tokens = stream.tokens := by
  refine ⟨_, TokenStream.ofSource_eq fenced limit source, fun r hr => ⟨?_, ?_⟩, ?_⟩
  · exact hr.state_of_step (Standing source.decode fenced) (standing_start _ _)
      fun s next _ hlt hnext => (readStep_ends hlt hnext).standing
  · exact ⟨_, hr.tokens_eq.symm⟩
  · obtain ⟨last, hlast, hover⟩ := MarkupVisits.exists_last (.start : MarkupVisits source.decode fenced limit _) nofun
    refine ⟨last, hlast, if_neg hover, ?_⟩
    have hnothing : (TokenStream.unguarded fenced ⟨[], last.state.fence⟩).tokens = [] := by
      rw [TokenStream.unguarded, if_pos rfl]
      rfl
    have htokens := hlast.tokens_eq
    rw [List.drop_eq_nil_of_le (Nat.not_lt.mp hover), hnothing, List.append_nil] at htokens
    exact htokens.symm

/-- The round behind a header whose list runs over two lines and whose fence opens inside the second. -/
theorem visits_standing_code :
    let source : Source := .text "@code(k=\"v\",\nl) x\n@end"
    let header : List Token :=
      [⟨.directive, "@code", false⟩, ⟨.parameterKey, "k", false⟩, ⟨.parameterValue, "v", false⟩,
        ⟨.parameterKey, "l", false⟩, ⟨.parameterValue, "", false⟩]
    let round : Round := ⟨⟨16, some "@code".toList, header⟩, some 0, 0⟩
    MarkupVisits source.decode Directive.defaultFenced 1000 round ∧
      Standing source.decode Directive.defaultFenced round.state ∧
      ∃ stream, TokenStream.ofSource Directive.defaultFenced 1000 source = .ok stream ∧ header <+: stream.tokens := by
  intro source header round
  have hround : MarkupVisits source.decode Directive.defaultFenced 1000 round := by
    have hlist : readList source.decode 1000 5 = .ok ⟨header.tail, 15, true⟩ := by
      have hstands : Stands source.decode 5 (source.decode.drop 5) source.decode.length :=
        Stands.drop_of_le (by decide)
      rw [readList_eq 1000 hstands]
      decide +kernel
    have hstep : readStep source.decode Directive.defaultFenced 1000 ⟨0, none, []⟩ = .ok round.state := by
      have hform : Line.LineForm.ofLine (firstLine source.decode) = .directive "@code" := by decide +kernel
      have hstands : Stands source.decode 0 source.decode source.decode.length := Stands.drop_of_le (Nat.zero_le _)
      unfold readStep
      dsimp only
      rw [readLine_eq Directive.defaultFenced 1000 hstands, hform]
      show readDirective _ _ _ 0 5 _ = _
      unfold readDirective
      rw [hlist]
      decide +kernel
    exact Visits.next .start (by decide) hstep
  obtain ⟨stream, hstream, hrounds, -⟩ := visits_standing Directive.defaultFenced 1000 source
  obtain ⟨hstanding, hprefix⟩ := hrounds round hround
  exact ⟨hround, hstanding, stream, hstream, hprefix⟩

end Visits

end AtMark.Position
