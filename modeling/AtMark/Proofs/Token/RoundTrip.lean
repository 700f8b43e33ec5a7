import AtMark.Proofs.Document.Block
import AtMark.Proofs.Table
import AtMark.Proofs.Token.Progress

/-!
# `Proofs.Token.RoundTrip`: parameters written and read back

## What is proved

Parameters that are written come back: each with its key, its value and its place, and in the node of the directive
every key at its first place with its last value (`parameters_round_trip`).

## How

A value may hold any text at all if it is written between quotes with a backslash before each quote and each
backslash (`Quoted.escape`).  Whatever stands behind the closing quote, exactly the value is read, and it is
owned exactly when a backslash was needed (`Quoted.read_escape`).

From there it goes outwards: an item with anything behind it (`Parameters.scan_write`), a whole list
(`Parameters.scan_writeAll`), and a directive that ends the source with its list.  The list may run over
several lines, since a value may hold newlines; the line reader still sees the directive, because only the name
and the parenthesis behind it decide how the line reads.

## What is not

Values without quotes, which end at a blank, a comma or a parenthesis, and keys, which are names and have no other
spelling.  The directive is any, a fence as well: nothing stands behind its list that could be a body.
-/

namespace AtMark

open Text

/-! ## Writing -/

namespace Quoted

/-- The characters that stand for themselves in a quoted value only behind a backslash. -/
def isSpecial (c : Char) : Bool :=
  c == '"' || c == '\\'

/-- A value as it is written between quotes. -/
def escape (value : Text) : Text :=
  value.flatMap fun c => if isSpecial c then ['\\', c] else [c]

end Quoted

/-- A parameter as it is written, its value in quotes. -/
def Parameter.write (entry : Text × Text) : Text :=
  entry.1 ++ '=' :: '"' :: (Quoted.escape entry.2 ++ ['"'])

/-- What is read of a written parameter. -/
def Parameter.ofEntry (entry : Text × Text) : Parameter :=
  ⟨entry.1, entry.2, entry.2.any Quoted.isSpecial⟩

/-- The header of a directive with its parameters. -/
def Directive.write (n : Text) (entries : List (Text × Text)) : Text :=
  '@' :: n ++ '(' :: (List.intercalate ", ".toList (entries.map Parameter.write) ++ [')'])

/-! ## Reading back -/

theorem Quoted.read_escape : ∀ value rest : Text,
    read (escape value ++ '"' :: rest) = ⟨value, value.any isSpecial, rest⟩ := by
  intro value rest
  induction value with
  | nil => rfl
  | cons c value ih =>
      rw [escape, List.flatMap_cons, ← escape, List.append_assoc, List.any_cons]
      cases hc : isSpecial c with
      | true =>
          show ((read (escape value ++ '"' :: rest)).cons c).own = _
          rw [ih]
          rfl
      | false =>
          have hquote : c ≠ '"' := by
            rintro rfl
            exact absurd hc (by decide)
          have hslash : c ≠ '\\' := by
            rintro rfl
            exact absurd hc (by decide)
          show read (c :: (escape value ++ '"' :: rest)) = _
          rw [read, ih]
          · rfl
          · exact hquote
          · exact fun _ _ h _ => hslash h

namespace Parameters

variable {entry : Text × Text} {entries : List (Text × Text)}

theorem readAssigned_quote (value rest : Text) :
    readAssigned ('=' :: '"' :: (Quoted.escape value ++ '"' :: rest)) =
      ⟨value, value.any Quoted.isSpecial, rest⟩ :=
  Quoted.read_escape value rest

theorem scan_write (hkey : Name.IsName entry.1) (rest : Text) :
    scan (Parameter.write entry ++ rest) = (scan rest).cons (Parameter.ofEntry entry) := by
  obtain ⟨key, value⟩ := entry
  have hbehind : ∀ d ∈ ('=' :: '"' :: (Quoted.escape value ++ '"' :: rest)).head?,
      Name.isNameChar d = false := by
    rintro d ⟨⟩
    rfl
  have hwritten : Parameter.write (key, value) ++ rest =
      key ++ '=' :: '"' :: (Quoted.escape value ++ '"' :: rest) := by
    simp [Parameter.write]
  rw [hwritten, scan_item hkey hbehind, readAssigned_quote]
  rfl

theorem scan_separator (rest : Text) : scan (", ".toList ++ rest) = scan rest := by
  show scan (',' :: ' ' :: rest) = scan rest
  rw [scan, if_neg (by decide), if_neg (by decide), scan, if_neg (by decide), if_neg (by decide)]

theorem scan_writeAll (hkeys : ∀ e ∈ entries, Name.IsName e.1) :
    scan (List.intercalate ", ".toList (entries.map Parameter.write) ++ [')']) =
      ⟨entries.map Parameter.ofEntry, [], true⟩ := by
  induction entries with
  | nil => rw [show List.intercalate ", ".toList _ ++ [')'] = [')'] from rfl, scan, if_pos rfl]; rfl
  | cons e entries ih =>
      have hmore := ih fun d hd => hkeys d (List.mem_cons_of_mem _ hd)
      have hkey := hkeys e List.mem_cons_self
      cases entries with
      | nil =>
          have hlast : scan [')'] = ⟨[], [], true⟩ := by rw [scan, if_pos rfl]
          rw [List.map_singleton, List.intercalate_singleton, scan_write hkey, hlast]
          rfl
      | cons d entries =>
          rw [List.map_cons, List.map_cons, List.intercalate_cons_cons, ← List.map_cons,
            List.append_assoc, List.append_assoc, scan_write hkey, scan_separator, hmore]
          rfl

end Parameters

/-! ## A directive at the end of a source -/

namespace TokenStream

theorem unguarded_list (fenced : List Text) {name inner : Text} {items : List Parameter}
    (hname : Directive.IsName name) (hscan : Parameters.scan inner = ⟨items, [], true⟩) :
    (unguarded fenced ⟨name ++ '(' :: inner, none⟩).tokens =
      ⟨.directive, name, false⟩ :: items.flatMap Parameter.tokens := by
  have hne : name ++ '(' :: inner ≠ [] := List.append_ne_nil_of_right_ne_nil _ (List.cons_ne_nil _ _)
  have hstep : (LineReader.markup fenced).step ⟨name ++ '(' :: inner, none⟩ =
      Line.scanDirective fenced name ('(' :: inner) := Line.scan_list fenced hname inner
  have hlist : Line.parameters ('(' :: inner) = ⟨items, [], true⟩ := by
    show Parameters.recover inner = _
    rw [Parameters.recover, hscan]
    rfl
  rw [unguarded_step fenced hne, hstep, after]
  by_cases hfenced : name ∈ fenced
  · have hstart : Fence.bodyStart name [] = [] := List.suffix_nil.mp (Fence.bodyStart_suffix name [])
    rw [Line.scanDirective_fenced hfenced, hlist, hstart, unguarded, if_pos rfl]
    exact List.append_nil _
  · rw [Line.scanDirective_unfenced hfenced, hlist]
    show _ ++ (unguarded fenced ⟨[], none⟩).tokens = _
    rw [unguarded_nil]
    exact (List.append_nil _).trans (List.append_nil _)

end TokenStream

/-- A directive that nothing follows is a node without text. -/
theorem Document.children_list (name : Text) (items : List Parameter) :
    (ofTokens (⟨.directive, name, false⟩ :: items.flatMap Parameter.tokens)).children =
      [⟨Directive.kind name, .ofList (items.map Parameter.entry), [], (Directive.kind name).bearsBody,
        []⟩] := by
  have hnone : ∀ t ∈ ([] : List Token).head?, t.kind ≠ .parameterKey := nofun
  have hpairs := DirectiveBlock.readParameters_items items hnone
  rw [List.append_nil] at hpairs
  show (Block.ofTokens _).filterMap Block.node? = _
  rw [Block.ofTokens_directive rfl]
  cases hbody : (Directive.kind name).bearsBody with
  | true =>
      rw [DirectiveBlock.read_bodied hbody hpairs]
      show _ :: (Block.ofTokens []).filterMap Block.node? = _
      rw [Block.ofTokens]
      rfl
  | false =>
      rw [DirectiveBlock.read_unbodied hbody hpairs]
      show _ :: (Block.ofTokens []).filterMap Block.node? = _
      rw [Block.ofTokens]
      rfl

/-! ## The round trip -/

theorem Quoted.any_isSpecial (value : Text) :
    value.any isSpecial = decide ('"' ∈ value ∨ '\\' ∈ value) := by
  rw [Bool.eq_iff_iff, List.any_eq_true, decide_eq_true_iff]
  constructor
  · rintro ⟨c, hc, hspecial⟩
    rcases Bool.or_eq_true_iff.mp hspecial with h | h
    · exact .inl (beq_iff_eq.mp h ▸ hc)
    · exact .inr (beq_iff_eq.mp h ▸ hc)
  · rintro (h | h)
    · exact ⟨_, h, rfl⟩
    · exact ⟨_, h, rfl⟩

namespace TokenStream

/-- Parameters that are written are read back: each with its key, its value and its place, the value owned
exactly when it needed a backslash.  The node of the directive has every key at its first place with its
last value. -/
theorem parameters_round_trip (fenced : List Text) (limit : Int) {n : Text}
    {entries : List (Text × Text)} (hn : Name.IsName n) (hend : n ≠ "end".toList)
    (hkeys : ∀ e ∈ entries, Name.IsName e.1) :
    ∃ stream node,
      ofSource fenced limit (.text (Directive.write n entries)) = .ok stream ∧
      stream.tokens = ⟨.directive, '@' :: n, false⟩ :: entries.flatMap (fun e =>
        [⟨.parameterKey, e.1, false⟩,
         ⟨.parameterValue, e.2, decide ('"' ∈ e.2 ∨ '\\' ∈ e.2)⟩]) ∧
      (Document.ofTokens stream.tokens).children = [node] ∧
      node.kind = Directive.kind ('@' :: n) ∧ node.content = [] ∧
      node.attributes.keys = (entries.map Prod.fst).eraseDups ∧
      ∀ k, node.attributes.get? k = entries.reverse.lookup k := by
  have hname : Directive.IsName ('@' :: n) := ⟨n, rfl, hn, fun h => hend (List.cons.inj h).2⟩
  have htokens := unguarded_list fenced hname (Parameters.scan_writeAll hkeys)
  have hentries : (entries.map Parameter.ofEntry).map Parameter.entry = entries := by
    rw [List.map_map]
    exact List.map_id entries
  have hsource := ofSource_text fenced limit (s := Directive.write n entries)
    fun h => absurd (Option.some.inj h) (by decide)
  refine ⟨_, ⟨Directive.kind ('@' :: n), .ofList entries, [], (Directive.kind ('@' :: n)).bearsBody, []⟩,
    hsource, ?_, ?_, rfl, rfl, Table.keys_ofList entries, Table.get?_ofList entries⟩
  · refine htokens.trans ?_
    rw [List.flatMap_map]
    refine congrArg _ (congrArg (List.flatMap · entries) (funext fun e => ?_))
    rw [Parameter.tokens, Parameter.ofEntry, Quoted.any_isSpecial]
  · show (Document.ofTokens (unguarded _ _).tokens).children = _
    have hchildren := Document.children_list ('@' :: n) (entries.map Parameter.ofEntry)
    rw [hentries] at hchildren
    exact (congrArg (fun ts => (Document.ofTokens ts).children) htokens).trans hchildren

theorem parameters_round_trip_code :
    Name.IsName "code" ∧ "code".toList ≠ "end".toList ∧
      (∀ e ∈ [("k".toList, "a\"), b=\\\n".toList), ("l", ""), ("k", "z")], Name.IsName e.1) ∧
      ∃ stream node,
        ofSource Directive.defaultFenced 1
          (.text "@code(k=\"a\\\"), b=\\\\\n\", l=\"\", k=\"z\")") = .ok stream ∧
        stream.tokens =
          [⟨.directive, "@code", false⟩, ⟨.parameterKey, "k", false⟩,
           ⟨.parameterValue, "a\"), b=\\\n", true⟩, ⟨.parameterKey, "l", false⟩,
           ⟨.parameterValue, "", false⟩, ⟨.parameterKey, "k", false⟩,
           ⟨.parameterValue, "z", false⟩] ∧
        (Document.ofTokens stream.tokens).children = [node] ∧
        node.attributes.keys = ["k".toList, "l"] ∧ node.attributes.get? "k" = some "z".toList := by
  have hn : Name.IsName "code" := by decide
  have hend : "code".toList ≠ "end".toList := by decide
  have hkeys : ∀ e ∈ [("k".toList, "a\"), b=\\\n".toList), ("l", ""), ("k", "z")],
      Name.IsName e.1 := by decide
  obtain ⟨stream, node, hstream, htokens, hchildren, -, -, hnames, hvalues⟩ :=
    parameters_round_trip Directive.defaultFenced 1 hn hend hkeys
  exact ⟨hn, hend, hkeys, stream, node, hstream, htokens, hchildren, hnames, hvalues "k"⟩

end TokenStream
end AtMark
