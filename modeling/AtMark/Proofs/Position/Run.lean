import AtMark.Position.Reader
import AtMark.Proofs.Compilation
import AtMark.Proofs.Position.Line

/-!
# `Proofs.Position.Run`: reading a whole source by positions

## What is proved

The run over a source is a loop over positions with a guard.  Its rounds are the steps of the reader of what is left,
so they lead forward, and the loop comes to its end with the tokens of the stream, whatever the limit of the guard
(`tokenize_eq`).  Nothing on the way looks at a character outside the source.

So every source has its tokens, and the only things that can keep it from becoming a page are the ones that are not
the program's own (`tokenize_terminates`).

## The one hypothesis

That the highlighter does not fail, and that only where code is coloured (`Highlighter.NeverFails`).  A highlighter
may be given any code in any language that it knows, and what it does with it cannot be told here.  Without plugins
there are no hooks, and files may be missing, unreadable or of any content.
-/

namespace AtMark.Position

variable {source : Text}

theorem readStep_reaches (fenced : List Text) (limit : Int) {s : ReaderState} (h : s.position ≤ source.length) :
    ∃ next, readStep source fenced limit s = .ok next ∧
      Reaches source s ((LineReader.markup fenced).step ⟨source.drop s.position, s.fence⟩) next := by
  unfold readStep LineReader.step
  cases hfence : s.fence with
  | none => exact readLine_reaches fenced limit hfence (Stands.drop_of_le h)
  | some directive => exact ⟨_, rfl, readFence_reaches directive s⟩

/-- What the loop ends with from a state on: the tokens that the reader finds from there. -/
def Ends (source : Text) (fenced : List Text) (s : ReaderState) (out : ReaderState ⊕ Empty) : Prop :=
  ∃ last, out = .inl last ∧
    last.tokens = s.tokens ++ (TokenStream.unguarded fenced ⟨source.drop s.position, s.fence⟩).tokens

theorem advances_markupLoop (fenced : List Text) (limit : Int) {s : ReaderState}
    (h : s.position < source.length) :
    (markupLoop source fenced limit).Advances (fun _ => True) (Ends source fenced) s := by
  obtain ⟨next, hstep, hreaches⟩ := readStep_reaches fenced limit (Nat.le_of_lt h)
  have hne : (Cursor.mk (source.drop s.position) s.fence).rest ≠ [] := drop_ne_nil_of_lt h
  refine .next next ?_ ?_ trivial ?_
  · show (readStep source fenced limit s).map Sum.inl = _
    rw [hstep]
    rfl
  · have hlt := LineReader.length_step_markup_lt fenced hne
    rw [← hreaches.rest_eq, List.length_drop, List.length_drop] at hlt
    show s.position < next.position
    omega
  · rintro out ⟨last, rfl, hlast⟩
    refine ⟨last, rfl, ?_⟩
    rw [hlast, hreaches.tokens_eq, hreaches.rest_eq, hreaches.fence_eq,
      TokenStream.unguarded_step fenced hne, List.append_assoc]
    rfl

theorem tokenize_eq (fenced : List Text) (limit : Int) (source : Text) :
    tokenize fenced limit source = .ok (TokenStream.unguarded fenced ⟨source, none⟩).tokens := by
  have hstop : ∀ s : ReaderState, ¬s.position < source.length → Ends source fenced s (.inl s) := by
    intro s hlt
    have hnil : source.drop s.position = [] := List.drop_eq_nil_of_le (Nat.not_lt.mp hlt)
    refine ⟨s, rfl, ?_⟩
    rw [TokenStream.unguarded, if_pos hnil]
    exact (List.append_nil _).symm
  have hround : ∀ s : ReaderState, s.position < source.length →
      (markupLoop source fenced limit).Advances (fun _ => True) (Ends source fenced) s :=
    fun s => advances_markupLoop fenced limit
  obtain ⟨out, hrun, last, rfl, hlast⟩ :=
    (markupLoop source fenced limit).run_spec (fun _ => True) (Ends source fenced) (fun s _ => hstop s)
      (fun s _ => hround s) limit (Stuck.atPosition source limit) 0 (s := ⟨0, none, []⟩) trivial
  unfold tokenize
  rw [hrun, ok_bind]
  exact congrArg Except.ok hlast

theorem movesForward_markupLoop (source : Text) (fenced : List Text) (limit : Int) :
    (markupLoop source fenced limit).MovesForward :=
  fun _ h => (advances_markupLoop fenced limit h).movesForward

theorem movesForward_listLoop {stop : Nat} (h : stop ≤ source.length) : (listLoop source stop).MovesForward := by
  intro s hlt
  obtain ⟨rest, hstands⟩ : ∃ rest, Stands source s.position rest stop :=
    ⟨_, Stands.slice_of_le (Nat.le_of_lt hlt) h⟩
  cases rest with
  | nil => exact absurd hlt hstands.not_lt
  | cons c cs => exact (advances_listRound hstands).movesForward

/-- Reading terminates: every round of either loop succeeds and leads forward, no guard acts whatever its limit,
and the tokens are the same for every limit.  So every source compiles to a page, wherever the highlighter does its
work if there is any for it. -/
theorem tokenize_terminates (fenced : List Text) (source : Source) :
    (∀ limit, (markupLoop source.decode fenced limit).MovesForward) ∧
    (∀ stop, stop ≤ source.decode.length → (listLoop source.decode stop).MovesForward) ∧
    (∃ tokens, ∀ limit, tokenize fenced limit source.decode = .ok tokens ∧
      ∃ stream, TokenStream.ofSource fenced limit source = .ok stream ∧ stream.tokens = tokens) ∧
    ∀ (host : Host) settings verbosity, (settings.highlightCode = true → host.highlighter.NeverFails) →
      ∃ head body, (compile host source settings none verbosity).result = .ok (Renderer.assemble head body) := by
  refine ⟨movesForward_markupLoop source.decode fenced, fun stop => movesForward_listLoop, ?_, ?_⟩
  · refine ⟨_, fun limit => ⟨tokenize_eq fenced limit source.decode, ?_⟩⟩
    exact ⟨_, TokenStream.ofSource_eq fenced limit source, rfl⟩
  · intro host settings verbosity hhighlighter
    exact exists_compile_page hhighlighter source verbosity

/-- An open list, an open quotation and an open fence at the end of a source, whose code is coloured. -/
theorem tokenize_terminates_open_ends :
    let source : Source := .text "@code(language=text, a=\"b"
    8 ≤ source.decode.length ∧ (listLoop source.decode 8).MovesForward ∧
      (∃ tokens, ∀ limit, tokenize Directive.defaultFenced limit source.decode = .ok tokens ∧
        ∃ stream, TokenStream.ofSource Directive.defaultFenced limit source = .ok stream ∧
          stream.tokens = tokens) ∧
      Host.plain.highlighter.NeverFails ∧
      ∃ head body, (compile .plain source { highlightCode := true } none 0).result =
        .ok (Renderer.assemble head body) := by
  intro source
  have hstop : 8 ≤ source.decode.length := by decide
  obtain ⟨-, hlist, htokens, hpage⟩ := tokenize_terminates Directive.defaultFenced source
  exact ⟨hstop, hlist 8 hstop, htokens, Highlighter.plain_neverFails,
    hpage .plain _ 0 fun _ => Highlighter.plain_neverFails⟩

end AtMark.Position
