import AtMark.Asset.Tags

/-!
# `Render.Options`: what can be chosen for a rendering
-/

namespace AtMark

/-- The options of a rendering. -/
structure RenderOptions where
  enableTailwind : Bool := false
  enableKatex : Bool := false
  assetRoot : Text := "/third_party"
  lockPath : Text := "third_party/VENDOR.lock"
  highlightCode : Bool := false
  cssHeuristic : Bool := false
deriving DecidableEq, Repr

/-- The vendored assets that the options ask for. -/
def RenderOptions.assets (o : RenderOptions) : Asset.Request :=
  ⟨o.assetRoot, o.lockPath, o.enableTailwind, o.enableKatex⟩

end AtMark
