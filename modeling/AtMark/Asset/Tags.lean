import AtMark.Asset.Lock
import AtMark.Notice

/-!
# `Asset.Tags`: the tags of vendored assets

An enabled asset that the lock file pins is linked from the asset root.  A lock file that cannot be used, or
that does not pin the asset, means no tags; it never stops a document.
-/

namespace AtMark.Asset

open Text

/-- An address of parts below a root, whose trailing slashes do not matter. -/
def join (root : Text) (parts : List Text) : Text :=
  List.intercalate ['/'] (trimEnd (· == '/') root :: parts)

/-- The assets that can be linked. -/
inductive Kind where
  | tailwind
  | katex
deriving DecidableEq, Repr

namespace Kind

/-- The name of an asset in the lock file. -/
def key : Kind → Text
  | tailwind => "tailwind"
  | katex => "katex"

/-- The tags of an asset at a version. -/
def tags (root version : Text) : Kind → List Text
  | tailwind =>
    ["<link rel=\"stylesheet\" href=\"" ++
      join root ["tailwind", version, "css", "docz.tailwind.css"] ++ "\">"]
  | katex =>
    let dist := join root ["katex", version, "dist"]
    ["<link rel=\"stylesheet\" href=\"" ++ dist ++ "/katex.min.css\">",
     "<script defer src=\"" ++ dist ++ "/katex.min.js\"></script>",
     "<script defer src=\"" ++ dist ++
       "/contrib/auto-render.min.js\" onload=\"renderMathInElement(document.body);\"></script>"]

end Kind

/-- What is asked for: where the assets are served, where they are pinned, and which are enabled. -/
structure Request where
  root : Text
  lockPath : Text
  tailwind : Bool
  katex : Bool
deriving DecidableEq, Repr

namespace Request

/-- The enabled assets, in the order of their tags. -/
def enabled (r : Request) : List Kind :=
  (if r.tailwind then [.tailwind] else []) ++ if r.katex then [.katex] else []

/-- The tags of an asset, none if it is not pinned. -/
def tagsOf (r : Request) (lock : Lock) (kind : Kind) : List Text :=
  match lock.version? kind.key with
  | some version => kind.tags r.root version
  | none => []

/-- What is reported about an asset. -/
def noticesOf (lock : Lock) (kind : Kind) : List Notice :=
  if (lock.version? kind.key).isSome then [] else [.missingEntry lock.path kind.key]

/-- The tags of the enabled assets. -/
def tags (files : Files) (r : Request) : List Text :=
  match Lock.read files r.lockPath with
  | .ok lock => r.enabled.flatMap (r.tagsOf lock)
  | .error _ => []

/-- What is reported about the enabled assets.  The lock file is read only if one is enabled. -/
def notices (files : Files) (r : Request) : List Notice :=
  if r.enabled = [] then []
  else
    match Lock.read files r.lockPath with
    | .ok lock => r.enabled.flatMap (noticesOf lock)
    | .error fault => [.assetsUnavailable fault]

end Request
end AtMark.Asset
