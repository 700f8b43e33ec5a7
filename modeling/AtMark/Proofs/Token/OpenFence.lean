import AtMark.Proofs.Document.Concatenation
import AtMark.Proofs.Token.Recovery
import AtMark.Proofs.Token.Verbatim

/-!
# `Proofs.Token.OpenFence`: fences that are closed nowhere

## What is proved

A fence that is still open when the source ends means what it would mean with a closing marker on a line of its
own behind the source (`TokenStream.ofTokens_withEnd`).  It is the document that is the same, and not the stream: the
closed source has one token more, and its body is a content that is not owned where the open one is.

## How

`Closing s t` says that `t` is that marker behind `s`, with the newline that it needs.  What is left of a source
is closed by the same text, so the reader of the closed source can be followed step by step.  It stands where
the reader of the open source stands, with `t` behind, with one exception: a header that ends the source has
the newline of `t` for its own line end, and then the body is the bare marker (`Cursor.Closes`).

Steps with something left to read give the same tokens (`LineReader.step_closes`).  The last step reads the open body;
both readers find the same text in it, the one as a text that it flushes and the other as a text that is closed
(`TokenStream.unguarded_closes`), and this makes the same node.

## What is not

Directives that bear a body and are no fence.  Their body ends with the list of tokens, so for the parser there is
nothing to close.
-/

namespace AtMark

open Text

/-! ## A closing marker behind a text -/

/-- The closing marker on a line of its own behind the text. -/
def Closing (s t : Text) : Prop :=
  (EndsLine s ∧ t = Token.endMarker) ∨ (s.getLast? ≠ some '\n' ∧ t = '\n' :: Token.endMarker)

namespace Closing

variable {s t u : Text}

theorem cases_text (h : Closing s t) : t = Token.endMarker ∨ t = '\n' :: Token.endMarker :=
  h.imp And.right And.right

theorem not_mem_parenthesis (h : Closing s t) : ')' ∉ t := by
  rcases h.cases_text with rfl | rfl
  · decide
  · decide

theorem dropWhile_isIndent (h : Closing s t) : t.dropWhile isIndent = t := by
  rcases h.cases_text with rfl | rfl
  · rfl
  · rfl

theorem of_suffix (h : Closing s t) (hu : u <:+ s) : Closing u t := by
  rcases h with ⟨hend, rfl⟩ | ⟨hend, rfl⟩
  · exact .inl ⟨hend.of_suffix hu, rfl⟩
  · refine .inr ⟨fun hlast => hend ?_, rfl⟩
    obtain ⟨front, rfl⟩ := hu
    rw [List.getLast?_append, hlast]
    rfl

theorem stops (h : Closing s t) (hs : s ≠ []) : Stops s t := by
  rcases h with ⟨hend, rfl⟩ | ⟨-, rfl⟩
  · exact .inl (hend.mem hs)
  · exact .inr rfl

theorem eq_marker (h : Closing s t) (hs : s.getLast? = some '\n') : t = Token.endMarker := by
  rcases h with ⟨-, rfl⟩ | ⟨hend, -⟩
  · rfl
  · exact absurd hs hend

end Closing

/-! ## Parameter lists -/

theorem Parameters.recover_append_open {s t : Text} (h : (scan s).closed = false) (ht : ')' ∉ t)
    (hs : Stops s t) : recover (s ++ t) = (recover s).followedBy t := by
  rw [recover_of_open (scan_append_open h ht), recover_of_open h, hs.firstLine_append, hs.fromLineEnd_append]
  rfl

theorem Line.parameters_closing {s t : Text} (h : Closing s t) :
    parameters (s ++ t) = (parameters s).followedBy t := by
  cases s with
  | nil =>
      rcases h.cases_text with rfl | rfl
      · rfl
      · rfl
  | cons c s =>
      by_cases hc : c = '('
      · subst hc
        cases hclosed : (Parameters.scan s).closed with
        | true =>
            refine Parameters.recover_append t ?_
            rw [Parameters.recover, if_pos hclosed]
            exact hclosed
        | false =>
            refine Parameters.recover_append_open hclosed h.not_mem_parenthesis ?_
            exact (h.stops (List.cons_ne_nil _ s)).imp_left fun hmem =>
              (List.mem_cons.mp hmem).resolve_left (by decide)
      · simp [parameters, hc, Parameters.Scan.followedBy]

/-! ## Fences -/

namespace Fence

variable {s t : Text}

theorem read_nil : read [] = ⟨[], [], false⟩ := by
  rw [read, if_pos rfl]

theorem read_marker : read Token.endMarker = ⟨[], [], true⟩ := by
  rw [read, if_neg (by decide)]
  rfl

theorem read_line_marker : read ('\n' :: Token.endMarker) = ⟨[[]], [], true⟩ := by
  rw [← List.nil_append ('\n' :: Token.endMarker), read_line List.not_mem_nil]
  show (read Token.endMarker).cons [] = _
  rw [read_marker]
  rfl

theorem read_return : read ['\r'] = ⟨[[]], [], false⟩ := by
  rw [read, if_neg (by decide)]
  show (read []).cons [] = _
  rw [read_nil]
  rfl

/-- With the marker behind, an open body has the same lines and is closed. -/
theorem read_closing (h : Closing s t) (hopen : (read s).closed = false)
    (hstart : s = [] → t = Token.endMarker) : read (s ++ t) = ⟨(read s).lines, [], true⟩ := by
  fun_induction read s with
  | case1 =>
      rw [hstart rfl]
      exact read_marker
  | case2 => exact Bool.noConfusion hopen
  | case3 => exact Bool.noConfusion hopen
  | case4 s hne text hform ih =>
      have hline : LineForm.ofLine (firstLine (s ++ t)) = .body text := by
        rw [(h.stops hne).firstLine_append]
        exact hform
      have hmore : read (afterLine (s ++ t)) = ⟨(read (afterLine s)).lines, [], true⟩ := by
        by_cases hmem : '\n' ∈ s
        · rw [afterLine_append hmem]
          exact ih (h.of_suffix (afterLine_suffix s)) hopen fun hnil =>
            h.eq_marker (getLast?_of_afterLine_eq_nil hmem hnil)
        · -- The last line of the source gets its newline from the text behind.
          obtain ⟨t', rfl⟩ := List.head?_eq_some_iff.mp ((h.stops hne).resolve_left hmem)
          have hmark : '\n' :: t' ≠ Token.endMarker := fun heq => absurd (List.cons.inj heq).1 (by decide)
          obtain rfl : t' = Token.endMarker := (List.cons.inj (h.cases_text.resolve_left hmark)).2
          rw [afterLine_line hmem, afterLine_eq_nil hmem, read_nil]
          exact read_marker
      rw [read, if_neg (List.append_ne_nil_of_left_ne_nil hne t), hline]
      dsimp only
      rw [hmore]
      rfl

theorem skipHeaderEnd_closing (h : Closing s t) :
    skipHeaderEnd (s ++ t) = skipHeaderEnd s ++ t ∨
      skipHeaderEnd (s ++ t) = Token.endMarker ∧ (skipHeaderEnd s = [] ∨ skipHeaderEnd s = ['\r']) := by
  unfold skipHeaderEnd
  rw [List.dropWhile_append]
  cases hs : s.dropWhile isIndent with
  | nil =>
      rw [List.isEmpty_nil, if_pos rfl, h.dropWhile_isIndent]
      rcases h.cases_text with rfl | rfl
      · exact .inl rfl
      · exact .inr ⟨rfl, .inl rfl⟩
  | cons c cs =>
      rw [List.isEmpty_cons, if_neg Bool.false_ne_true]
      by_cases hreturn : c = '\r'
      · subst hreturn
        cases cs with
        | nil =>
            rcases h.cases_text with rfl | rfl
            · exact .inl rfl
            · exact .inr ⟨rfl, .inr rfl⟩
        | cons d ds =>
            by_cases hd : d = '\n'
            · subst hd
              exact .inl rfl
            · simp [hd]
      · by_cases hline : c = '\n'
        · subst hline
          exact .inl rfl
        · simp [hreturn, hline]

theorem bodyStart_closing (directive : Text) (h : Closing s t) :
    bodyStart directive (s ++ t) = bodyStart directive s ++ t ∨
      bodyStart directive (s ++ t) = Token.endMarker ∧
        (bodyStart directive s = [] ∨ bodyStart directive s = ['\r']) := by
  unfold bodyStart
  split
  · rcases skipHeaderEnd_closing h with hskip | ⟨hskip, hrest⟩
    · refine .inl ?_
      rw [hskip, List.dropWhile_append, h.dropWhile_isIndent]
      split
      · next hnil => rw [List.isEmpty_iff.mp hnil, List.nil_append]
      · rfl
    · refine .inr ⟨by rw [hskip]; rfl, ?_⟩
      rcases hrest with hrest | hrest
      · exact .inl (by rw [hrest]; rfl)
      · exact .inr (by rw [hrest]; rfl)
  · exact skipHeaderEnd_closing h

end Fence

/-! ## Steps -/

/-- The second cursor stands in the source with the marker behind where the first stands in the source: it has
the marker behind what is left, or has it alone where the header of a fence ended the source. -/
inductive Cursor.Closes : Cursor → Cursor → Prop
  | behind {s t : Text} {fence : Option Text} : Closing s t → Closes ⟨s, fence⟩ ⟨s ++ t, fence⟩
  | header {s name : Text} : s = [] ∨ s = ['\r'] → Closes ⟨s, some name⟩ ⟨Token.endMarker, some name⟩

/-- An open body has the same text when it is closed. -/
theorem Cursor.Closes.read_body {s name : Text} {c : Cursor} (h : Closes ⟨s, some name⟩ c)
    (hopen : (Fence.read s).closed = false) :
    ∃ lines, c.fence = some name ∧ Fence.read c.rest = ⟨lines, [], true⟩ ∧
      joinLines lines = joinLines (Fence.read s).lines := by
  cases h with
  | @behind _ t _ ht =>
      by_cases hstart : s = [] → t = Token.endMarker
      · exact ⟨_, rfl, Fence.read_closing ht hopen hstart, rfl⟩
      · obtain ⟨rfl, hmark⟩ := Classical.not_imp.mp hstart
        obtain rfl := ht.cases_text.resolve_left hmark
        exact ⟨[[]], rfl, Fence.read_line_marker, by rw [Fence.read_nil]; rfl⟩
  | header hs =>
      refine ⟨[], rfl, Fence.read_marker, ?_⟩
      rcases hs with rfl | rfl
      · rw [Fence.read_nil]
      · rw [Fence.read_return]
        rfl

namespace Line

variable {fenced : List Text} {s t : Text}

theorem scanDirective_closes (name : Text) (h : Closing s t)
    (hmore : (scanDirective fenced name s).next ≠ ⟨[], none⟩) :
    (scanDirective fenced name (s ++ t)).tokens = (scanDirective fenced name s).tokens ∧
      (scanDirective fenced name s).next.Closes (scanDirective fenced name (s ++ t)).next := by
  have hrest := h.of_suffix (parameters_rest_suffix s)
  by_cases hname : name ∈ fenced
  · rw [scanDirective_fenced hname, scanDirective_fenced hname, parameters_closing h]
    refine ⟨rfl, ?_⟩
    dsimp only [Parameters.Scan.followedBy]
    rcases Fence.bodyStart_closing name hrest with hbody | ⟨hbody, hstart⟩
    · rw [hbody]
      exact .behind (hrest.of_suffix (Fence.bodyStart_suffix _ _))
    · rw [hbody]
      exact .header hstart
  · rw [scanDirective_unfenced hname] at hmore
    have hmem := mem_of_afterLine_ne_nil fun hnil => hmore (by rw [hnil])
    rw [scanDirective_unfenced hname, scanDirective_unfenced hname, parameters_closing h,
      Parameters.Scan.followedBy, firstLine_append hmem, afterLine_append hmem]
    exact ⟨rfl, .behind (hrest.of_suffix (afterLine_suffix _))⟩

theorem scan_closes (h : Closing s t) (hne : s ≠ []) (hmore : (scan fenced s).next ≠ ⟨[], none⟩) :
    (scan fenced (s ++ t)).tokens = (scan fenced s).tokens ∧
      (scan fenced s).next.Closes (scan fenced (s ++ t)).next := by
  have hline : firstLine (s ++ t) = firstLine s := (h.stops hne).firstLine_append
  rcases scan_cases fenced s with ⟨name, r, hname, hr, hscan⟩ | ⟨hnot, hscan⟩
  · have htail : Closing (r ++ fromLineEnd s) t := by
      refine h.of_suffix ((List.suffix_append name _).trans ?_)
      rw [← hr]
      exact List.dropWhile_suffix isIndent
    have hclosed : scan fenced (s ++ t) = scanDirective fenced name (r ++ fromLineEnd s ++ t) := by
      obtain ⟨⟨n, rfl, -, -⟩, -⟩ := LineForm.directive_of_ofLine hname
      refine scan_directive fenced (by rw [hline, hname]) ?_
      rw [List.dropWhile_append, hr]
      exact List.append_assoc ..
    rw [hscan] at hmore ⊢
    rw [hclosed]
    exact scanDirective_closes name htail hmore
  · rw [hscan] at hmore
    have hmem := mem_of_afterLine_ne_nil fun hnil => hmore (by rw [hnil])
    rw [hscan, scan_line fenced fun name => by rw [hline]; exact hnot name, hline, afterLine_append hmem]
    exact ⟨rfl, .behind (h.of_suffix (afterLine_suffix s))⟩

end Line

namespace LineReader

variable {fenced : List Text} {c c' : Cursor}

/-- A step that does not end the reading is the same in the closed source. -/
theorem step_closes (h : c.Closes c') (hne : c.rest ≠ [])
    (hmore : ((markup fenced).step c).next ≠ ⟨[], none⟩) :
    ((markup fenced).step c').tokens = ((markup fenced).step c).tokens ∧
      ((markup fenced).step c).next.Closes ((markup fenced).step c').next := by
  obtain ⟨s, fence⟩ := c
  cases fence with
  | none =>
      cases h with
      | behind ht => exact Line.scan_closes ht hne hmore
  | some directive =>
      replace hmore : (Fence.scan directive s).next ≠ ⟨[], none⟩ := hmore
      cases hclosed : (Fence.read s).closed with
      | false =>
          rw [Fence.scan_of_open directive hclosed] at hmore
          exact absurd rfl hmore
      | true =>
          rw [Fence.scan_of_closed directive hclosed] at hmore
          have hrest : (Fence.read s).rest ≠ [] := fun hnil => hmore (by rw [hnil])
          cases h with
          | @behind _ t _ ht =>
              show (Fence.scan directive (s ++ t)).tokens = (Fence.scan directive s).tokens ∧
                (Fence.scan directive s).next.Closes (Fence.scan directive (s ++ t)).next
              rw [Fence.scan_append_of_closed directive t (.inr hrest) hclosed]
              exact ⟨rfl, .behind (ht.of_suffix (Fence.read_rest_suffix s))⟩
          | header hs =>
              rcases hs with rfl | rfl
              · exact absurd rfl hne
              · rw [Fence.read_return] at hclosed
                exact Bool.noConfusion hclosed

end LineReader

/-! ## Streams -/

/-- Reports of a fence that is still open when the source ends. -/
def Notice.isOpenFence : Notice → Bool
  | fenceFlushed .. | fenceOpenAtEnd _ => true
  | _ => false

/-- The tokens end with the header of a fenced directive. -/
def EndsWithHeader (fenced : List Text) (ts : List Token) : Prop :=
  ∃ (front : List Token) (name : Text) (items : List Parameter), name ∈ fenced ∧
    ts = front ++ ⟨.directive, name, false⟩ :: items.flatMap Parameter.tokens

namespace LineReader

variable {fenced : List Text} {c : Cursor}

/-- A fence is opened by a header. -/
theorem endsWithHeader_step {name : Text} (h : ((markup fenced).step c).next.fence = some name) :
    EndsWithHeader fenced ((markup fenced).step c).tokens := by
  obtain ⟨s, fence⟩ := c
  cases fence with
  | some directive => exact absurd h nofun
  | none =>
      replace h : (Line.scan fenced s).next.fence = some name := h
      show EndsWithHeader fenced (Line.scan fenced s).tokens
      rcases Line.scan_cases fenced s with ⟨directive, r, -, -, hscan⟩ | ⟨-, hscan⟩
      · rw [hscan] at h ⊢
        by_cases hname : directive ∈ fenced
        · rw [Line.scanDirective_fenced hname]
          exact ⟨[], directive, _, hname, rfl⟩
        · rw [Line.scanDirective_unfenced hname] at h
          exact absurd h nofun
      · rw [hscan] at h
        exact absurd h nofun

end LineReader

namespace TokenStream

/-- A fence is still open when the source ends. -/
def LeavesFenceOpen (stream : TokenStream) : Prop :=
  ∃ n ∈ stream.notices, n.isOpenFence = true

instance (stream : TokenStream) : Decidable stream.LeavesFenceOpen :=
  inferInstanceAs (Decidable (∃ n ∈ stream.notices, n.isOpenFence = true))

variable {fenced : List Text} {c c' : Cursor}

theorem not_leavesFenceOpen_nil : ¬(unguarded fenced ⟨[], none⟩).LeavesFenceOpen := by
  rintro ⟨n, hn, -⟩
  rw [unguarded, if_pos rfl] at hn
  exact absurd hn List.not_mem_nil

theorem unguarded_body (fenced : List Text) {s name : Text} (h : Cursor.Closes ⟨s, some name⟩ c')
    (hopen : (Fence.read s).closed = false) :
    ∃ text, (unguarded fenced ⟨s, some name⟩).tokens = Token.contentUnlessEmpty text true ∧
      (unguarded fenced c').tokens = Token.contentUnlessEmpty text false ++ [Token.blockEnd] := by
  obtain ⟨lines, hfence, hread, htext⟩ := h.read_body hopen
  refine ⟨joinLines lines, ?_, ?_⟩
  · rw [htext]
    by_cases hnil : s = []
    · subst hnil
      rw [unguarded, if_pos rfl, Fence.read_nil]
      rfl
    · have hstep : (LineReader.markup fenced).step ⟨s, some name⟩ = Fence.scan name s := rfl
      rw [unguarded_step fenced hnil, hstep, Fence.scan_of_open name hopen, after, unguarded_nil]
      exact List.append_nil _
  · obtain ⟨s', fence⟩ := c'
    obtain rfl : fence = some name := hfence
    rw [unguarded_fence hread, unguarded_nil]

/-- The tokens of a source that ends inside a fence, and those of the source with the marker behind. -/
theorem unguarded_closes (h : c.Closes c') (hopen : (unguarded fenced c).LeavesFenceOpen) :
    ∃ front text, (EndsWithHeader fenced front ∨ c.fence.isSome ∧ front = []) ∧
      (unguarded fenced c).tokens = front ++ Token.contentUnlessEmpty text true ∧
      (unguarded fenced c').tokens = front ++ (Token.contentUnlessEmpty text false ++ [Token.blockEnd]) := by
  fun_induction unguarded fenced c generalizing c' with
  | case1 c hnil =>
      obtain ⟨s, fence⟩ := c
      obtain rfl : s = [] := hnil
      cases fence with
      | none =>
          obtain ⟨n, hn, -⟩ := hopen
          exact absurd hn List.not_mem_nil
      | some name =>
          obtain ⟨text, htokens, htokens'⟩ := unguarded_body fenced h (by rw [Fence.read_nil])
          rw [unguarded, if_pos rfl] at htokens
          exact ⟨[], text, .inr ⟨rfl, rfl⟩, htokens, htokens'⟩
  | case2 c hne ih =>
      by_cases hbody : (∃ name, c.fence = some name) ∧ (Fence.read c.rest).closed = false
      · obtain ⟨s, fence⟩ := c
        obtain ⟨⟨name, rfl⟩, hread⟩ := hbody
        obtain ⟨text, htokens, htokens'⟩ := unguarded_body fenced h hread
        rw [unguarded_step fenced hne] at htokens
        exact ⟨[], text, .inr ⟨rfl, rfl⟩, htokens, htokens'⟩
      · have hopen' : (unguarded fenced ((LineReader.markup fenced).step c).next).LeavesFenceOpen := by
          obtain ⟨n, hn, hfence⟩ := hopen
          rcases List.mem_append.mp hn with hn | hn
          · rcases LineReader.eq_of_mem_notices hn with ⟨name, rfl⟩ | ⟨name, hname, hread, -⟩
            · exact Bool.noConfusion hfence
            · exact absurd ⟨⟨name, hname⟩, hread⟩ hbody
          · exact ⟨n, hn, hfence⟩
        have hmore : ((LineReader.markup fenced).step c).next ≠ ⟨[], none⟩ := by
          intro hend
          rw [hend] at hopen'
          exact not_leavesFenceOpen_nil hopen'
        obtain ⟨htokens, hnext⟩ := LineReader.step_closes h hne hmore
        obtain ⟨front, text, hfront, hopened, hclosed⟩ := ih hnext hopen'
        have hne' : c'.rest ≠ [] := by
          cases h with
          | behind ht => exact List.append_ne_nil_of_left_ne_nil hne _
          | header hs => exact List.cons_ne_nil _ _
        refine ⟨((LineReader.markup fenced).step c).tokens ++ front, text, .inl ?_, ?_, ?_⟩
        · rcases hfront with ⟨before, name, items, hname, rfl⟩ | ⟨hfence, rfl⟩
          · exact ⟨_, name, items, hname, (List.append_assoc ..).symm⟩
          · obtain ⟨name, hname⟩ := Option.isSome_iff_exists.mp hfence
            rw [List.append_nil]
            exact LineReader.endsWithHeader_step hname
        · rw [after, hopened, List.append_assoc]
        · rw [unguarded_step fenced hne', after, htokens, hclosed, List.append_assoc]

end TokenStream

/-! ## Documents -/

theorem Document.ofTokens_unclosed {ts : List Token} (h : EndsWithHeader Directive.defaultFenced ts)
    (text : Text) :
    ofTokens (ts ++ (Token.contentUnlessEmpty text false ++ [Token.blockEnd])) =
      ofTokens (ts ++ Token.contentUnlessEmpty text true) := by
  obtain ⟨front, name, items, hname, rfl⟩ := h
  have hbody := Directive.bearsBody_of_mem_defaultFenced hname
  have hblock : ∀ {us : List Token} {block : DirectiveBlock},
      DirectiveBlock.read name us = (block, []) →
      (ofTokens (front ++ (⟨.directive, name, false⟩ :: us))).children =
        (ofTokens front).children ++ [block.node] := by
    intro us block hread
    have hboundary : IsBoundary (⟨.directive, name, false⟩ :: us) := by
      rintro t ⟨⟩
      rfl
    refine (Block.nodes_append hboundary front).trans (congrArg _ ?_)
    rw [Block.ofTokens_directive rfl, hread, Block.ofTokens]
    rfl
  obtain ⟨closed, hclosed, hnode⟩ := DirectiveBlock.read_closed hbody items text []
  obtain ⟨flushed, hflushed, hnode'⟩ := DirectiveBlock.read_unclosed hbody items text true
  have hchildren := (hblock hclosed).trans ((congrArg (fun n => _ ++ [n]) (hnode.trans hnode'.symm)).trans
    (hblock hflushed).symm)
  simp only [List.append_assoc, List.cons_append]
  exact congrArg (Node.mk .document .empty [] false) hchildren

/-! ## Sources -/

/-- A marker on a line of its own behind a sequence, with the line end that it needs. -/
def ownLine {α : Type} [DecidableEq α] (line : α) (mark s : List α) : List α :=
  if s.getLast? = some line then mark else line :: mark

namespace Source

/-- The source with the closing marker on a line of its own behind it, in its characters or in its bytes. -/
def withEnd : Source → Source
  | .bytes raw => .bytes (raw ++ ownLine 0x0A (Utf8.encode Token.endMarker) raw)
  | .text content => .text (content ++ ownLine '\n' Token.endMarker content)

theorem closing_ownLine (content : Text) : Closing content (ownLine '\n' Token.endMarker content) := by
  unfold ownLine
  split
  · next h => exact .inl ⟨.inr h, rfl⟩
  · next h => exact .inr ⟨h, rfl⟩

theorem ownLine_low (raw : Bytes) :
    ∀ b ∈ ownLine 0x0A (Utf8.encode Token.endMarker) raw, b.toNat < 0x80 := by
  have hmarker : (0x0A :: Utf8.encode Token.endMarker).all (fun b => b.toNat < 0x80) = true := by decide
  intro b hb
  have hin : b ∈ 0x0A :: Utf8.encode Token.endMarker := by
    unfold ownLine at hb
    split at hb
    · exact List.mem_cons_of_mem _ hb
    · exact hb
  exact of_decide_eq_true (List.all_eq_true.mp hmarker b hin)

theorem closing_decode (raw : Bytes) :
    Closing (Utf8.decode (dropByteMark raw)) (Utf8.decode (ownLine 0x0A (Utf8.encode Token.endMarker) raw)) := by
  unfold ownLine
  split
  · next h =>
    refine .inl ⟨?_, by decide⟩
    by_cases hnil : dropByteMark raw = []
    · exact .inl (by rw [hnil]; rfl)
    · obtain ⟨front, hfront⟩ := dropByteMark_suffix raw
      rw [← hfront, List.getLast?_append_of_ne_nil _ hnil] at h
      exact .inr (Utf8.getLast?_decode_iff.mpr h)
  · next h =>
    refine .inr ⟨fun hlast => h ?_, by decide⟩
    rw [← List.singleton_suffix_iff_getLast?_eq_some]
    refine List.IsSuffix.trans ?_ (dropByteMark_suffix raw)
    exact List.singleton_suffix_iff_getLast?_eq_some.mpr (Utf8.getLast?_decode_iff.mp hlast)

/-- The source with the marker behind is read as its text with the marker behind. -/
theorem decode_withEnd (source : Source) :
    ∃ t, Closing source.decode t ∧ source.withEnd.decode = source.decode ++ t := by
  cases source with
  | text content =>
      have hclosing := closing_ownLine content
      refine ⟨_, hclosing.of_suffix (dropMark_suffix content), ?_⟩
      by_cases hnil : content = []
      · subst hnil
        rfl
      · exact dropMark_append hnil
  | bytes raw =>
      refine ⟨_, closing_decode raw, ?_⟩
      have hlow : ∀ b ∈ (ownLine 0x0A (Utf8.encode Token.endMarker) raw).head?, b.toNat < 0x80 :=
        fun b hb => ownLine_low raw b (List.mem_of_mem_head? hb)
      have hmark : ∀ b ∈ (ownLine 0x0A (Utf8.encode Token.endMarker) raw).head?, b ∉ byteMark := by
        intro b hb hin
        have hhigh : byteMark.all (fun b => 0x80 ≤ b.toNat) = true := by decide
        exact absurd (hlow b hb) (Nat.not_lt.mpr (of_decide_eq_true (List.all_eq_true.mp hhigh b hin)))
      unfold withEnd decode
      dsimp only
      rw [dropByteMark_append raw hmark, Utf8.decode_append _ fun b hb => .inl (hlow b hb)]

end Source

namespace TokenStream

/-- A fence that is still open when the source ends means the same as one that is closed there: with the closing
marker on a line of its own behind it, the source has the same document. -/
theorem ofTokens_withEnd (limit : Int) (source : Source) :
    ∃ stream closed,
      ofSource Directive.defaultFenced limit source = .ok stream ∧
      ofSource Directive.defaultFenced limit source.withEnd = .ok closed ∧
      (stream.LeavesFenceOpen → Document.ofTokens closed.tokens = Document.ofTokens stream.tokens) := by
  refine ⟨_, _, ofSource_eq .., ofSource_eq .., ?_⟩
  rintro ⟨n, hn, hopen⟩
  have hfence : n ∈ (unguarded Directive.defaultFenced ⟨source.decode, none⟩).notices := by
    refine (List.mem_append.mp hn).resolve_right fun hcount => ?_
    rw [List.mem_singleton.mp hcount] at hopen
    exact Bool.noConfusion hopen
  obtain ⟨t, ht, hdecode⟩ := source.decode_withEnd
  obtain ⟨front, text, hfront, htokens, htokens'⟩ := unguarded_closes (.behind ht) ⟨n, hfence, hopen⟩
  have hheader := hfront.resolve_right fun h => Bool.noConfusion h.1
  show Document.ofTokens (unguarded _ _).tokens = Document.ofTokens (unguarded _ _).tokens
  rw [hdecode, htokens, htokens']
  exact Document.ofTokens_unclosed hheader text

/-- An open list, a body that begins in its line and a last line without its newline. -/
theorem ofTokens_withEnd_math :
    ∃ stream closed,
      ofSource Directive.defaultFenced 1 (.text "@math(a=\"b\n @end x\n\r\n @x(\r") = .ok stream ∧
      ofSource Directive.defaultFenced 1 (.text "@math(a=\"b\n @end x\n\r\n @x(\r\n@end") = .ok closed ∧
      stream.LeavesFenceOpen ∧ Document.ofTokens closed.tokens = Document.ofTokens stream.tokens := by
  obtain ⟨stream, closed, hstream, hclosed, hsame⟩ :=
    ofTokens_withEnd 1 (.text "@math(a=\"b\n @end x\n\r\n @x(\r")
  have hopen : stream.LeavesFenceOpen := by
    rw [ofSource_eq] at hstream
    cases hstream
    decide +kernel
  exact ⟨stream, closed, hstream, hclosed, hopen, hsame hopen⟩

end TokenStream
end AtMark
