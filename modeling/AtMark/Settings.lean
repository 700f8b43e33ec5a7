import AtMark.Node.Kind
import AtMark.Render.Options

/-!
# `Settings`: the configuration of a compilation

A compilation is given its settings and does not change them.  Where they come from is no matter here; how they are
read from the environment and from given values is in `Settings.Reading`.
-/

namespace AtMark

/-- The configuration of a compilation. -/
structure Settings where
  fencedDirectives : List Text := Directive.defaultFenced
  stuckLimit : Int := 1000
  highlightCode : Bool := false
  cssHeuristic : Bool := false
  enableKatex : Bool := false
  enableTailwind : Bool := false
  assetRoot : Text := "/third_party"
  lockPath : Text := "third_party/VENDOR.lock"
  debugMode : Bool := false
deriving DecidableEq, Repr

namespace Settings

/-- The options of a rendering under the settings. -/
def renderOptions (s : Settings) : RenderOptions :=
  ⟨s.enableTailwind, s.enableKatex, s.assetRoot, s.lockPath, s.highlightCode, s.cssHeuristic⟩

end Settings
end AtMark
