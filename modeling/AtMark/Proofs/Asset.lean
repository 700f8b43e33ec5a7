import AtMark.Proofs.Compilation
import AtMark.Proofs.Text.Words

/-!
# `Proofs.Asset`: the tags of vendored assets

## What is proved

Whatever the lock file holds, there are tags.  Those of several enabled assets are those of each one alone, in order
(`Asset.Request.tags_eq`), so an asset that is not pinned takes nothing away from another.  Alone, an asset has its
tags exactly if the lock file can be used and pins it (`Asset.Request.tags_alone_eq_nil_iff`), and of the lock file
nothing but its own entry counts (`Asset.Request.tags_alone_congr`).  So assets never keep a document from being
compiled; only the highlighter could, and that it does not is a hypothesis there.

Slashes at the end of the root are cut off before the parts of an address are joined, so it does not matter how many
there are (`Asset.join_append`).
-/

namespace AtMark.Asset

variable {root slashes version : Text} {parts : List Text}

/-! ## Addresses -/

theorem join_append (h : ∀ c ∈ slashes, c = '/') (root : Text) (parts : List Text) :
    join (root ++ slashes) parts = join root parts := by
  have hslash : ∀ c ∈ slashes, (c == '/') = true := by
    intro c hc
    rw [h c hc]
    rfl
  rw [join, Text.trimEnd_append_of_all hslash, join]

/-- An address holds each of its parts. -/
theorem infix_join {part : Text} (h : part ∈ parts) (root : Text) : part <:+: join root parts :=
  Text.infix_intercalate (List.mem_cons_of_mem _ h)

namespace Kind

/-- How many tags an asset has. -/
def tagCount : Kind → Nat
  | tailwind => 1
  | katex => 3

theorem length_tags (kind : Kind) (root version : Text) : (kind.tags root version).length = kind.tagCount := by
  cases kind with
  | tailwind => rfl
  | katex => rfl

theorem tags_append (h : ∀ c ∈ slashes, c = '/') (kind : Kind) (root version : Text) :
    kind.tags (root ++ slashes) version = kind.tags root version := by
  cases kind with
  | tailwind => simp only [tags, join_append h]
  | katex => simp only [tags, join_append h]

/-- Every tag of an asset holds the address of its version. -/
theorem infix_of_mem_tags {kind : Kind} {tag : Text} (h : tag ∈ kind.tags root version) : version <:+: tag := by
  cases kind with
  | tailwind =>
      have haddress : version <:+: join root ["tailwind", version, "css", "docz.tailwind.css"] :=
        infix_join (by simp) root
      rw [List.mem_singleton.mp h]
      exact haddress.trans (List.infix_append _ _ _)
  | katex =>
      have haddress : version <:+: join root ["katex", version, "dist"] := infix_join (by simp) root
      simp only [tags, List.mem_cons, List.not_mem_nil, or_false] at h
      rcases h with rfl | rfl | rfl
      · exact haddress.trans (List.infix_append _ _ _)
      · exact haddress.trans (List.infix_append _ _ _)
      · exact haddress.trans (List.infix_append _ _ _)

end Kind

namespace Request

variable {files : Files} {r : Request} {kind : Kind} {lock : Lock} {fault : LockFault}

/-! ## One asset alone -/

/-- The request with one asset enabled alone. -/
def alone (r : Request) (kind : Kind) : Request :=
  { r with tailwind := kind = .tailwind, katex := kind = .katex }

/-- The lock file of the request can be used and pins the asset to the version. -/
def Pins (files : Files) (r : Request) (kind : Kind) (version : Text) : Prop :=
  ∃ lock, Lock.read files r.lockPath = .ok lock ∧ lock.version? kind.key = some version

theorem enabled_alone (r : Request) (kind : Kind) : (r.alone kind).enabled = [kind] := by
  cases kind with
  | tailwind => rfl
  | katex => rfl

theorem tags_of_ok (h : Lock.read files r.lockPath = .ok lock) :
    tags files r = r.enabled.flatMap (r.tagsOf lock) := by
  rw [tags, h]

theorem tags_of_error (h : Lock.read files r.lockPath = .error fault) : tags files r = [] := by
  rw [tags, h]

theorem tags_alone_of_ok (h : Lock.read files r.lockPath = .ok lock) :
    tags files (r.alone kind) = r.tagsOf lock kind := by
  have halone : Lock.read files (r.alone kind).lockPath = .ok lock := h
  rw [tags_of_ok halone, enabled_alone, List.flatMap_singleton]
  rfl

theorem tags_alone_of_error (h : Lock.read files r.lockPath = .error fault) :
    tags files (r.alone kind) = [] := by
  have halone : Lock.read files (r.alone kind).lockPath = .error fault := h
  exact tags_of_error halone

theorem tags_alone_of_pins {version : Text} (h : r.Pins files kind version) :
    tags files (r.alone kind) = kind.tags r.root version := by
  obtain ⟨lock, hlock, hversion⟩ := h
  rw [tags_alone_of_ok hlock, tagsOf, hversion]

/-- The assets do not depend on one another: there are the tags of each one alone. -/
theorem tags_eq (files : Files) (r : Request) :
    tags files r = r.enabled.flatMap fun kind => tags files (r.alone kind) := by
  cases hlock : Lock.read files r.lockPath with
  | ok lock => simp only [tags_of_ok hlock, tags_alone_of_ok hlock]
  | error fault =>
      have hnone : (r.enabled.flatMap fun kind => tags files (r.alone kind)) = [] :=
        List.flatMap_eq_nil_iff.mpr fun _ _ => tags_alone_of_error hlock
      rw [tags_of_error hlock, hnone]

theorem tags_of_disabled (files : Files) (h : r.enabled = []) : tags files r = [] := by
  rw [tags_eq, h]
  rfl

theorem tags_alone_eq_nil_iff (files : Files) (r : Request) (kind : Kind) :
    tags files (r.alone kind) = [] ↔
      (∃ fault, Lock.read files r.lockPath = .error fault) ∨
        ∃ lock, Lock.read files r.lockPath = .ok lock ∧ lock.version? kind.key = none := by
  cases hlock : Lock.read files r.lockPath with
  | error fault => simp [tags_alone_of_error hlock]
  | ok lock =>
      cases hversion : lock.version? kind.key with
      | none => simp [tags_alone_of_ok hlock, tagsOf, hversion]
      | some version =>
          have hne : kind.tags r.root version ≠ [] := by
            rw [← List.length_pos_iff, Kind.length_tags]
            cases kind with
            | tailwind => decide
            | katex => decide
          simp [tags_alone_of_ok hlock, tagsOf, hversion, hne]

/-- Of two lock files that can be used, only the entries of an asset tell its tags apart. -/
theorem tags_alone_congr {files' : Files} {lock' : Lock} (h : Lock.read files r.lockPath = .ok lock)
    (h' : Lock.read files' r.lockPath = .ok lock')
    (hentry : Json.entry? lock.entries kind.key = Json.entry? lock'.entries kind.key) :
    tags files (r.alone kind) = tags files' (r.alone kind) := by
  have hversion : lock.version? kind.key = lock'.version? kind.key := by
    rw [Lock.version?, hentry, Lock.version?]
  rw [tags_alone_of_ok h, tags_alone_of_ok h', tagsOf, hversion, tagsOf]

theorem tags_append (h : ∀ c ∈ slashes, c = '/') (files : Files) (r : Request) :
    tags files { r with root := r.root ++ slashes } = tags files r := by
  have htags : ∀ lock kind, tagsOf { r with root := r.root ++ slashes } lock kind = r.tagsOf lock kind := by
    intro lock kind
    unfold tagsOf
    split
    · exact kind.tags_append h r.root _
    · rfl
  unfold tags
  dsimp only
  split
  · exact List.flatMap_congr fun kind _ => htags _ kind
  · rfl

/-! ## All assets -/

/-- Whatever the lock file holds, and whatever of it cannot be used, each asset has its tags or none: it has none
exactly if the lock file cannot be used or does not pin it, and otherwise they link its version.  The tags of two
assets are those of either one alone, one behind the other, slashes at the end of the root change nothing, and whatever
the files of a host, every document compiles there. -/
theorem tags_independent (files : Files) (r : Request) :
    tags files { r with tailwind := true, katex := true } =
        tags files (r.alone .tailwind) ++ tags files (r.alone .katex) ∧
      (∀ kind,
        (tags files (r.alone kind) = [] ↔
          (∃ fault, Lock.read files r.lockPath = .error fault) ∨
            ∃ lock, Lock.read files r.lockPath = .ok lock ∧ lock.version? kind.key = none) ∧
        (∀ version, r.Pins files kind version →
          (tags files (r.alone kind)).length = kind.tagCount ∧
            ∀ tag ∈ tags files (r.alone kind), version <:+: tag) ∧
        ∀ (files' : Files) (lock lock' : Lock),
          Lock.read files r.lockPath = .ok lock → Lock.read files' r.lockPath = .ok lock' →
            Json.entry? lock.entries kind.key = Json.entry? lock'.entries kind.key →
              tags files (r.alone kind) = tags files' (r.alone kind)) ∧
      (∀ slashes : Text, (∀ c ∈ slashes, c = '/') →
        tags files { r with root := r.root ++ slashes } = tags files r) ∧
      ∀ (host : Host) source settings verbosity,
        (settings.highlightCode = true → host.highlighter.NeverFails) →
          ∃ page, (compile host source settings none verbosity).result = .ok page := by
  refine ⟨?_, ?_, ?_, ?_⟩
  · have hboth := tags_eq files { r with tailwind := true, katex := true }
    have henabled : enabled { r with tailwind := true, katex := true } = [.tailwind, .katex] := rfl
    rw [henabled, List.flatMap_cons, List.flatMap_singleton] at hboth
    exact hboth
  · intro kind
    refine ⟨tags_alone_eq_nil_iff files r kind, ?_, ?_⟩
    · intro version hpins
      rw [tags_alone_of_pins hpins]
      exact ⟨kind.length_tags r.root version, fun tag htag => Kind.infix_of_mem_tags htag⟩
    · intro files' lock lock' hlock hlock' hentry
      exact tags_alone_congr hlock hlock' hentry
  · intro slashes hslashes
    exact tags_append hslashes files r
  · intro host source settings verbosity hhighlighter
    obtain ⟨head, body, hpage⟩ := exists_compile_page hhighlighter source verbosity
    exact ⟨_, hpage⟩

/-- A lock file whose first version is no version and whose second one stands in an object, and another one that
has the same second entry. -/
theorem tags_independent_faulty :
    let only (content : Text) : Files :=
      ⟨fun path => if path = "VENDOR.lock" then .bytes (Utf8.encode content) else .missing, fun _ => []⟩
    let files := only "\x7b\"tailwind\": true, \"katex\": \x7b\"version\": \" 0.16.9 \"\x7d\x7d"
    let others := only "\x7b\"katex\": \x7b\"version\": \" 0.16.9 \"\x7d, \"tailwind\": \"4\"\x7d"
    let r : Request := ⟨"/v", "VENDOR.lock", true, true⟩
    r.Pins files .katex "0.16.9" ∧
      tags files (r.alone .tailwind) = [] ∧
      (tags files (r.alone .katex)).length = 3 ∧
      (∀ tag ∈ tags files (r.alone .katex), "0.16.9".toList <:+: tag) ∧
      tags files (r.alone .katex) = tags others (r.alone .katex) ∧
      (∀ c ∈ "//".toList, c = '/') ∧
      tags files { r with root := r.root ++ "//".toList } = tags files (r.alone .katex) := by
  intro only files others r
  have hlock : Lock.read files "VENDOR.lock" = .ok
      ⟨"VENDOR.lock", [("tailwind", .bool true), ("katex", .object [("version", .string " 0.16.9 ")])]⟩ := rfl
  have hother : Lock.read others "VENDOR.lock" = .ok
      ⟨"VENDOR.lock", [("katex", .object [("version", .string " 0.16.9 ")]), ("tailwind", .string "4")]⟩ := rfl
  have hpins : r.Pins files .katex "0.16.9" := ⟨_, hlock, by decide +kernel⟩
  have hslashes : ∀ c ∈ "//".toList, c = '/' := by decide
  obtain ⟨hboth, halone, hroot, -⟩ := tags_independent files r
  have htailwind : tags files (r.alone .tailwind) = [] :=
    (halone .tailwind).1.mpr (.inr ⟨_, hlock, by decide +kernel⟩)
  have htags : tags files r = tags files (r.alone .katex) := by
    rw [htailwind, List.nil_append] at hboth
    exact hboth
  obtain ⟨-, hpinned, hentry⟩ := halone .katex
  obtain ⟨hcount, hversion⟩ := hpinned "0.16.9" hpins
  have hsame : tags files (r.alone .katex) = tags others (r.alone .katex) :=
    hentry others _ _ hlock hother rfl
  exact ⟨hpins, htailwind, hcount, hversion, hsame, hslashes, (hroot "//" hslashes).trans htags⟩

end Request
end AtMark.Asset
