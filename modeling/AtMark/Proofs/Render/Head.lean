import AtMark.Proofs.Asset
import AtMark.Proofs.Render.Order
import AtMark.Proofs.Render.Value
import AtMark.Proofs.Style.Rule

/-!
# `Proofs.Render.Head`: what the head of a page is made of

## What is proved

Every entry of metadata has its line in the head, except for default style sheets and for the titles behind the first
one; of the default style sheets the last one has a line if it is not empty; and the global rules stand in one style
element (`head_of_tree`).  This is so for trees of any depth, though a parser makes only two levels.  In a document of
two levels no other node counts (`head_of_removed`).

## How

A walk through a document meets each node before those below it (`Node.preOrder_walkAll`), and the head is read off the
nodes it meets: the lines of metadata by going on from what was seen so far (`metadataLines_eq`), the style sheet as the
last value of its key (`defaultCss_eq`).

A line that opens one element opens no other, and a rule opens none, since it begins with its selector
(`opens_eq_false`, `countP_globalRules`).  So the lines that open a title or a style element can be counted part by
part, and there is one of each at most.

## What is not

Vendored assets, which come behind the metadata and are in `Proofs.Asset`.  What a line shows of its entry, and that the
entry cannot break out of it, is in `Proofs.Render.Value`.
-/

namespace AtMark

/-! ## Walks -/

namespace Node

/-- Some nodes together with all below them: each node before those below it, and these before the nodes behind. -/
inductive PreOrder : List Node → List Node → Prop
  | nil : PreOrder [] []
  | cons (n : Node) {rest below behind : List Node} (hbelow : PreOrder n.children below)
      (hbehind : PreOrder rest behind) : PreOrder (n :: rest) (n :: below ++ behind)

theorem preOrder_walkAll (ns : List Node) : PreOrder ns (walkAll ns) := by
  refine walkAll.induct (fun n => PreOrder n.children (walkAll n.children))
    (fun ns => PreOrder ns (walkAll ns)) (fun _ _ _ _ _ ih => ih) ?nil (fun n rest hbelow hbehind => ?cons) ns
  case nil =>
    rw [walkAll]
    exact .nil
  case cons =>
    rw [walkAll, walk_eq]
    exact .cons n hbelow hbehind

theorem preOrder_walk (n : Node) : PreOrder [n] n.walk := by
  have hwalk := preOrder_walkAll [n]
  rwa [walkAll, walkAll, List.append_nil] at hwalk

end Node

namespace Render

open Html

variable {entries : List (Text × Text)} {line : Text} {titled : Bool} {d : Node}

/-! ## Metadata -/

/-- The line of an entry behind others: a title has one if it is the first, a default style sheet has none here. -/
def lineOf? (before : List (Text × Text)) (e : Text × Text) : Option Text :=
  if e.1 = "title".toList then
    if ∀ b ∈ before, b.1 ≠ "title".toList then some (titleElement e.2) else none
  else if e.1 = "default_css".toList then none
  else some (metaElement e.1 e.2)

/-- The lines of all entries, each behind the entries before it. -/
def linesOf (entries : List (Text × Text)) : List Text :=
  (entries.inits.zip entries).filterMap fun p => lineOf? p.1 p.2

/-- The line of the last default style sheet, if that is not empty. -/
def sheetLine (entries : List (Text × Text)) : List Text :=
  match entries.reverse.lookup "default_css".toList with
  | some address => if address = [] then [] else [styleSheetLink address]
  | none => []

/-- The lines of entries behind some that were seen before. -/
def linesBehind (seen entries : List (Text × Text)) : List Text :=
  ((entries.inits.map (seen ++ ·)).zip entries).filterMap fun p => lineOf? p.1 p.2

theorem linesBehind_cons (seen : List (Text × Text)) (e : Text × Text) (entries : List (Text × Text)) :
    linesBehind seen (e :: entries) = (lineOf? seen e).toList ++ linesBehind (seen ++ [e]) entries := by
  have htail : (entries.inits.map (List.cons e)).map (seen ++ ·) = entries.inits.map (seen ++ [e] ++ ·) := by
    rw [List.map_map]
    exact List.map_congr_left fun before _ => List.append_cons seen e before
  rw [linesBehind, List.inits_cons, List.map_cons, List.append_nil, List.zip_cons_cons, htail, List.filterMap_cons]
  cases lineOf? seen e with
  | none => rfl
  | some line => rfl

theorem linesBehind_nil (entries : List (Text × Text)) : linesBehind [] entries = linesOf entries := by
  rw [linesBehind, linesOf]
  simp only [List.nil_append, List.map_id']

/-- Of the entries seen before it matters only whether one of them is a title. -/
theorem metadataLines_eq (seen : List (Text × Text)) (htitled : titled = true ↔ ∃ b ∈ seen, b.1 = "title".toList) :
    metadataLines titled entries = linesBehind seen entries := by
  induction entries generalizing seen titled with
  | nil => rfl
  | cons e entries ih =>
      obtain ⟨key, value⟩ := e
      have hbehind : ∀ b : Bool, (b = true ↔ titled = true ∨ key = "title".toList) →
          metadataLines b entries = linesBehind (seen ++ [(key, value)]) entries := by
        intro b hb
        refine ih _ ?_
        rw [hb, htitled]
        simp only [List.mem_append, List.mem_singleton, or_and_right, exists_or, exists_eq_left]
      rw [linesBehind_cons, lineOf?, metadataLines]
      by_cases hkey : key = "title".toList
      · rw [if_pos (show key = titleKey from hkey), if_pos hkey, ← hbehind true (by simp only [hkey, or_true])]
        cases titled with
        | true =>
            obtain ⟨b, hb, htitle⟩ := htitled.mp rfl
            have hnot : ¬∀ b ∈ seen, b.1 ≠ "title".toList := fun hall => hall b hb htitle
            rw [if_neg hnot]
            rfl
        | false =>
            have hall : ∀ b ∈ seen, b.1 ≠ "title".toList :=
              fun b hb htitle => Bool.false_ne_true (htitled.mpr ⟨b, hb, htitle⟩)
            rw [if_pos hall]
            rfl
      · rw [if_neg (show key ≠ titleKey from hkey), if_neg hkey, ← hbehind titled (by simp only [hkey, or_false])]
        by_cases hsheet : key = "default_css".toList
        · rw [if_pos (show key = defaultCssKey from hsheet), if_pos hsheet]
          rfl
        · rw [if_neg (show key ≠ defaultCssKey from hsheet), if_neg hsheet]
          rfl

theorem metadataLines_eq_linesOf (entries : List (Text × Text)) : metadataLines false entries = linesOf entries := by
  rw [metadataLines_eq [] (by simp), linesBehind_nil]

/-- The last value of a key is the first one from the end. -/
theorem getLast?_eq_lookup_reverse (key : Text) (entries : List (Text × Text)) :
    ((entries.filter fun e => e.1 = key).getLast?).map Prod.snd = entries.reverse.lookup key := by
  rw [List.getLast?_eq_head?_reverse, ← List.filter_reverse]
  induction entries.reverse with
  | nil => rfl
  | cons e entries ih =>
      obtain ⟨k, v⟩ := e
      by_cases hkey : k = key
      · subst hkey
        rw [List.filter_cons_of_pos (by simp), List.lookup_cons_self]
        rfl
      · have hbeq : (key == k) = false := beq_eq_false_iff_ne.mpr (Ne.symm hkey)
        rw [List.filter_cons_of_neg (by simpa using hkey), ih, List.lookup_cons, hbeq]

theorem defaultCss_eq (entries : List (Text × Text)) :
    (defaultCss entries).toList.map styleSheetLink = sheetLine entries := by
  rw [defaultCss, getLast?_eq_lookup_reverse, sheetLine]
  show ((entries.reverse.lookup "default_css".toList).filter _).toList.map _ = _
  cases entries.reverse.lookup "default_css".toList with
  | none => rfl
  | some address =>
      rw [Option.filter_some]
      by_cases haddress : address = []
      · rw [if_neg (by simp [haddress])]
        exact (if_pos haddress).symm
      · rw [if_pos (decide_eq_true haddress)]
        exact (if_neg haddress).symm

/-! ## Lines that open an element -/

/-- Does the line begin with the tag? -/
def opens (tag line : Text) : Bool :=
  tag <+: line

section Opens

variable {tag word : Text}

/-- A line that begins with a word begins with no tag that differs from the word. -/
theorem opens_eq_false (hword : word <+: line) (hleft : ¬tag <+: word) (hright : ¬word <+: tag) :
    opens tag line = false := by
  refine decide_eq_false fun htag => ?_
  rcases List.prefix_or_prefix_of_prefix htag hword with h | h
  · exact hleft h
  · exact hright h

theorem opens_titleElement (title : Text) (hleft : ¬tag <+: "<title>") (hright : ¬"<title>".toList <+: tag) :
    opens tag (titleElement title) = false :=
  opens_eq_false ((List.prefix_append _ _).trans (List.prefix_append _ _)) hleft hright

theorem opens_metaElement (key value : Text) (hleft : ¬tag <+: "<meta") (hright : ¬"<meta".toList <+: tag) :
    opens tag (metaElement key value) = false :=
  opens_eq_false (((List.prefix_append _ _).trans (List.prefix_append _ _)).trans (List.prefix_append _ _))
    hleft hright

theorem opens_styleSheetLink (address : Text) (hleft : ¬tag <+: "<link rel=\"stylesheet\"")
    (hright : ¬"<link rel=\"stylesheet\"".toList <+: tag) : opens tag (styleSheetLink address) = false :=
  opens_eq_false ((List.prefix_append _ _).trans (List.prefix_append _ _)) hleft hright

theorem countP_defaultCss (hleft : ¬tag <+: "<link rel=\"stylesheet\"")
    (hright : ¬"<link rel=\"stylesheet\"".toList <+: tag) (entries : List (Text × Text)) :
    ((defaultCss entries).toList.map styleSheetLink).countP (opens tag) = 0 := by
  refine List.countP_eq_zero.mpr fun line hline => ?_
  obtain ⟨address, -, rfl⟩ := List.mem_map.mp hline
  rw [Bool.not_eq_true]
  exact opens_styleSheetLink address hleft hright

/-- Rules open no element: they begin with their selectors. -/
theorem countP_globalRules (htag : tag.head? = some '<') (d : Node) : (globalRules d).countP (opens tag) = 0 := by
  refine List.countP_eq_zero.mpr fun rule hrule hopens => ?_
  obtain ⟨body, -, hbody⟩ := List.mem_flatMap.mp hrule
  obtain ⟨rest, rfl⟩ := of_decide_eq_true hopens
  obtain ⟨more, rfl⟩ := List.head?_eq_some_iff.mp htag
  rcases Style.head?_of_mem_rules hbody with hhead | hhead
  · cases hhead
  · cases hhead

theorem countP_styleElement (htag : tag.head? = some '<') (d : Node) :
    (styleElement (globalRules d)).countP (opens tag) ≤
      ["<style>".toList, "</style>".toList].countP (opens tag) := by
  have haround : ∀ first last : Text,
      ([first] ++ globalRules d ++ [last]).countP (opens tag) = [first, last].countP (opens tag) := by
    intro first last
    have hboth : [first, last].countP (opens tag) = [first].countP (opens tag) + [last].countP (opens tag) :=
      @List.countP_append _ _ [first] [last]
    rw [List.countP_append, List.countP_append, countP_globalRules htag]
    omega
  unfold styleElement
  split
  · exact Nat.zero_le _
  · exact (haround _ _).le

end Opens

theorem countP_title_metadataLines (entries : List (Text × Text)) :
    (metadataLines titled entries).countP (opens "<title>") ≤ if titled then 0 else 1 := by
  induction entries generalizing titled with
  | nil => exact Nat.zero_le _
  | cons e entries ih =>
      obtain ⟨key, value⟩ := e
      rw [metadataLines]
      split
      · cases titled with
        | true => exact ih
        | false =>
            have hrest : (metadataLines true entries).countP (opens "<title>") ≤ 0 := ih
            rw [if_neg Bool.false_ne_true, if_neg Bool.false_ne_true, List.countP_cons]
            split
            · exact Nat.succ_le_succ hrest
            · exact hrest.trans (Nat.zero_le 1)
      · split
        · exact ih
        · have hmeta : opens "<title>" (metaElement key value) = false :=
            opens_metaElement key value (by decide) (by decide)
          rw [List.countP_cons_of_neg (by rw [hmeta]; exact Bool.false_ne_true)]
          exact ih

theorem countP_style_metadataLines (entries : List (Text × Text)) :
    (metadataLines titled entries).countP (opens "<style>") = 0 := by
  refine List.countP_eq_zero.mpr fun line hline => ?_
  rw [Bool.not_eq_true]
  rcases mem_metadataLines hline with ⟨title, -, rfl⟩ | ⟨key, value, -, rfl⟩
  · exact opens_titleElement title (by decide) (by decide)
  · exact opens_metaElement key value (by decide) (by decide)

/-! ## Documents of two levels -/

/-- Is the node of a kind that the head is made from? -/
def servesHead (n : Node) : Bool :=
  n.kind = .metadata ∨ n.kind = .style

theorem ofKind_of_isFlat (hflat : d.IsFlat) (kind : NodeKind) :
    d.ofKind kind = (if d.kind = kind then [d] else []) ++ d.children.filter (·.kind = kind) := by
  rw [Node.ofKind, hflat.walk_eq, List.filter_cons]
  by_cases hkind : d.kind = kind
  · rw [if_pos (decide_eq_true hkind), if_pos hkind]
    rfl
  · rw [if_neg (by simpa using hkind), if_neg hkind]
    rfl

theorem head_of_removed {kept : List Node} (files : Files) (options : RenderOptions) (hflat : d.IsFlat)
    (hkept : kept.Sublist d.children) (hsame : kept.filter servesHead = d.children.filter servesHead) :
    head files options { d with children := kept } = head files options d := by
  have hflat' : Node.IsFlat { d with children := kept } := fun n hn => hflat n (hkept.subset hn)
  have hkind : ∀ kind, kind = .metadata ∨ kind = .style →
      kept.filter (·.kind = kind) = d.children.filter (·.kind = kind) := by
    intro kind hserves
    have hfilter : ∀ ns : List Node, ns.filter (·.kind = kind) = (ns.filter servesHead).filter (·.kind = kind) := by
      intro ns
      rw [List.filter_filter]
      refine List.filter_congr fun n _ => ?_
      by_cases hn : n.kind = kind
      · have hhead : servesHead n = true := decide_eq_true (hn ▸ hserves)
        rw [hhead, Bool.and_true]
      · rw [decide_eq_false hn, Bool.false_and]
    rw [hfilter, hsame, ← hfilter]
  have hmetadata : metadata { d with children := kept } = metadata d := by
    rw [metadata, metadata, ofKind_of_isFlat hflat', ofKind_of_isFlat hflat]
    show ((if d.kind = NodeKind.metadata then _ else []) ++ kept.filter _).flatMap _ = _
    rw [hkind _ (.inl rfl), List.flatMap_append, List.flatMap_append]
    split
    · rfl
    · rfl
  have hstyles : globalStyles { d with children := kept } = globalStyles d := by
    rw [globalStyles, globalStyles, ofKind_of_isFlat hflat', ofKind_of_isFlat hflat]
    show (((if d.kind = NodeKind.style then _ else []) ++ kept.filter _).filter _).map _ = _
    rw [hkind _ (.inr rfl), List.filter_append, List.filter_append, List.map_append, List.map_append]
    split
    · rw [List.filter_singleton, List.filter_singleton]
      show (bif decide (styleMode d = .global) then _ else []).map _ ++ _ = _
      cases decide (styleMode d = .global) with
      | true => rfl
      | false => rfl
    · rfl
  rw [head, head, hmetadata, globalRules, globalRules, hstyles]

/-! ## The head of a tree -/

theorem styleMode_eq_global_iff (n : Node) : styleMode n = .global ↔ n.attribute? "mode" = some "global".toList := by
  show styleMode n = .global ↔ n.attribute? Style.modeKey = some "global".toList
  rw [styleMode]
  split
  · next h => exact iff_of_true rfl h
  · next h =>
    refine iff_of_false ?_ h
    split
    · exact StyleMode.noConfusion
    · exact StyleMode.noConfusion

/-- The head of any tree, without vendored assets.

All nodes are met in the order of the tree, each before those below it.  The entries of all metadata among them have
their lines, only the first title and no default style sheet; then comes the last default style sheet, if it is not
empty, and then the rules of all global styles in one style element, if there are rules.  So at most one line opens a
title and at most one a style element.  In a document of two levels nodes that are neither metadata nor styles can be
removed. -/
theorem head_of_tree (files : Files) {options : RenderOptions} (htailwind : options.enableTailwind = false)
    (hkatex : options.enableKatex = false) (d : Node) :
    (∃ nodes, Node.PreOrder [d] nodes ∧
      let entries := (nodes.filter (·.kind = .metadata)).flatMap (·.attributes.entries)
      let rules := (nodes.filter fun n => n.kind = .style ∧ n.attribute? "mode" = some "global".toList).flatMap
        fun n => Style.rules n.content
      head files options d = linesOf entries ++ sheetLine entries ++
        if rules = [] then [] else ["<style>".toList] ++ rules ++ ["</style>".toList]) ∧
    (head files options d).countP (opens "<title>") ≤ 1 ∧
    (head files options d).countP (opens "<style>") ≤ 1 ∧
    (d.IsFlat → ∀ kept : List Node, kept.Sublist d.children →
      kept.filter servesHead = d.children.filter servesHead →
      head files options { d with children := kept } = head files options d) := by
  have hassets : options.assets.tags files = [] := by
    refine Asset.Request.tags_of_disabled files ?_
    rw [RenderOptions.assets, htailwind, hkatex]
    rfl
  have hhead : head files options d = metadataLines false (metadata d) ++
      (defaultCss (metadata d)).toList.map styleSheetLink ++ styleElement (globalRules d) := by
    rw [head, hassets, List.append_nil]
  refine ⟨⟨d.walk, d.preOrder_walk, ?_⟩, ?_, ?_, fun hflat kept => head_of_removed files options hflat⟩
  · have hrules : globalRules d =
        (d.walk.filter fun n => n.kind = .style ∧ n.attribute? "mode" = some "global".toList).flatMap
          fun n => Style.rules n.content := by
      rw [globalRules, globalStyles, Node.ofKind, List.filter_filter, List.flatMap_map]
      congr 1
      refine List.filter_congr fun n _ => ?_
      rw [← Bool.decide_and, decide_eq_decide, styleMode_eq_global_iff]
      exact and_comm
    rw [hhead, metadataLines_eq_linesOf, defaultCss_eq, styleElement, hrules]
    rfl
  · have hlines : (metadataLines false (metadata d)).countP (opens "<title>") ≤ 1 :=
      countP_title_metadataLines (metadata d)
    have hstyle : (styleElement (globalRules d)).countP (opens "<title>") ≤ 0 :=
      (countP_styleElement rfl d).trans (by decide)
    rw [hhead, List.countP_append, List.countP_append, countP_defaultCss (by decide) (by decide)]
    omega
  · have hstyle : (styleElement (globalRules d)).countP (opens "<style>") ≤ 1 :=
      (countP_styleElement rfl d).trans (by decide)
    rw [hhead, List.countP_append, List.countP_append, countP_defaultCss (by decide) (by decide),
      countP_style_metadataLines]
    omega

/-- Metadata on two levels, the last default style sheet empty, and a text that is removed where another one stays. -/
theorem head_of_tree_levels :
    let first : Node := ⟨.metadata, .ofList [("title", "First"), ("default_css", "a.css")], [], false, []⟩
    let second : Node := ⟨.metadata, .ofList [("k", "v"), ("title", "Second"), ("default_css", "")], [], false, []⟩
    let rule : Node := ⟨.style, .ofList [("mode", "global")], "note: color=red", true, []⟩
    let text : Node := ⟨.content, .empty, "x", true, []⟩
    let nested : Node := ⟨.document, .empty, [], false, [rule, { text with children := [first, rule] }, second]⟩
    let flat : Node := ⟨.document, .empty, [], false, [text, first, rule, text]⟩
    let kept : List Node := [first, rule, text]
    let options : RenderOptions := {}
    options.enableTailwind = false ∧ options.enableKatex = false ∧
      (∃ nodes, Node.PreOrder [nested] nodes ∧
        let entries := (nodes.filter (·.kind = .metadata)).flatMap (·.attributes.entries)
        let rules := (nodes.filter fun n => n.kind = .style ∧ n.attribute? "mode" = some "global".toList).flatMap
          fun n => Style.rules n.content
        head .empty options nested = linesOf entries ++ sheetLine entries ++
          if rules = [] then [] else ["<style>".toList] ++ rules ++ ["</style>".toList]) ∧
      head .empty options nested =
        ["<title>First</title>", "<meta name=\"k\" content=\"v\">", "<style>", ".note \x7b color:red; \x7d",
          ".note \x7b color:red; \x7d", "</style>"] ∧
      flat.IsFlat ∧ kept.Sublist flat.children ∧ kept.filter servesHead = flat.children.filter servesHead ∧
      head .empty options { flat with children := kept } = head .empty options flat ∧
      head .empty options flat =
        ["<title>First</title>", "<link rel=\"stylesheet\" href=\"a.css\">", "<style>",
          ".note \x7b color:red; \x7d", "</style>"] := by
  intro first second rule text nested flat kept options
  have hflat : flat.IsFlat := by
    intro n hn
    simp only [flat, List.mem_cons, List.not_mem_nil, or_false] at hn
    rcases hn with rfl | rfl | rfl | rfl <;> rfl
  have hkept : kept.Sublist flat.children := List.sublist_cons_self text kept
  have hsame : kept.filter servesHead = flat.children.filter servesHead := rfl
  have hnested := head_of_tree .empty (rfl : options.enableTailwind = false) rfl nested
  have hremoved := head_of_tree .empty (rfl : options.enableTailwind = false) rfl flat
  exact ⟨rfl, rfl, hnested.1, by decide +kernel, hflat, hkept, hsame, hremoved.2.2.2 hflat kept hkept hsame,
    by decide +kernel⟩

end Render
end AtMark
