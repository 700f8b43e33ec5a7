import AtMark.Json.Parse
import AtMark.Settings
import AtMark.Settings.Value
import AtMark.Table
import AtMark.Text.Lower

/-!
# `Settings.Reading`: where settings come from

Every setting has a default, may be set by a variable of the environment and, before that, by a value given
directly.  Names count in any case on both ways.  A value is read into the type of its setting where its
meaning is plain; all faults are reported together.  The list of fenced directives is written in the
environment as JSON, which must be readable even if a value given directly takes its place.

This is the outermost layer, with `Settings.Value` and `Settings.Integer`: a library for the checking of settings does
it for the program, and its rules are followed here as they are documented.  No other module uses it and nothing is
proved of it.  What is proved of compilations holds for all settings.
-/

namespace AtMark

/-- The settings that there are. -/
inductive Setting where
  | fencedDirectives
  | stuckLimit
  | highlightCode
  | cssHeuristic
  | enableKatex
  | enableTailwind
  | assetRoot
  | lockPath
  | debugMode
deriving DecidableEq, Repr

namespace Setting

/-- All settings. -/
def all : List Setting :=
  [fencedDirectives, stuckLimit, highlightCode, cssHeuristic, enableKatex, enableTailwind, assetRoot,
   lockPath, debugMode]

/-- The name of a setting. -/
def name : Setting → Text
  | fencedDirectives => "fenced_directives"
  | stuckLimit => "stuck_limit"
  | highlightCode => "highlight_code"
  | cssHeuristic => "class_css_heuristic"
  | enableKatex => "enable_katex"
  | enableTailwind => "enable_tailwind"
  | assetRoot => "asset_root"
  | lockPath => "vendor_lock_path"
  | debugMode => "debug_mode"

/-- The setting that a name names, in any case. -/
def ofName? (s : Text) : Option Setting :=
  all.find? fun setting => setting.name == Text.lower s

/-- The variable of the environment that sets a setting, in lower case. -/
def variableName (s : Setting) : Text :=
  "docz_" ++ s.name

end Setting

/-- A value that cannot be taken, by the place where it stands. -/
structure SettingFault where
  place : Text
  problem : Problem
deriving DecidableEq, Repr

/-- Why there are no settings: a variable that is no JSON, or values that cannot be taken. -/
inductive SettingsError where
  | unreadableVariable
  | invalid (faults : List SettingFault)
deriving DecidableEq, Repr

namespace Settings

open Text

/-! ## Lists of texts -/

/-- The place of an item in a list. -/
def itemPlace (place : Text) (index : Nat) : Text :=
  place ++ "." ++ ofNat index

/-- The faults of the items of a list, from an index on. -/
def itemFaults (place : Text) (index : Nat) : List Json → List SettingFault
  | [] => []
  | item :: rest =>
    match textOf item with
    | .ok _ => itemFaults place (index + 1) rest
    | .error problem => ⟨itemPlace place index, problem⟩ :: itemFaults place (index + 1) rest

/-- The texts among the items of a list. -/
def itemTexts (items : List Json) : List Text :=
  items.filterMap fun item => (textOf item).toOption

/-! ## Setting a value -/

/-- Sets a setting to what a reader makes of a value. -/
def assign {α : Type} (setting : Setting) (read : Except Problem α) (set : α → Settings) :
    Except (List SettingFault) Settings :=
  match read with
  | .ok a => .ok (set a)
  | .error problem => .error [⟨setting.name, problem⟩]

/-- Sets a setting to a given value. -/
def put (s : Settings) (setting : Setting) (value : Json) : Except (List SettingFault) Settings :=
  match setting with
  | .fencedDirectives =>
    match value with
    | .array items =>
      if itemFaults setting.name 0 items = [] then .ok { s with fencedDirectives := itemTexts items }
      else .error (itemFaults setting.name 0 items)
    | _ => .error [⟨setting.name, .notList⟩]
  | .stuckLimit => assign setting (limitOf value) fun n => { s with stuckLimit := n }
  | .highlightCode => assign setting (boolOf value) fun b => { s with highlightCode := b }
  | .cssHeuristic => assign setting (boolOf value) fun b => { s with cssHeuristic := b }
  | .enableKatex => assign setting (boolOf value) fun b => { s with enableKatex := b }
  | .enableTailwind => assign setting (boolOf value) fun b => { s with enableTailwind := b }
  | .assetRoot => assign setting (textOf value) fun t => { s with assetRoot := t }
  | .lockPath => assign setting (textOf value) fun t => { s with lockPath := t }
  | .debugMode => assign setting (boolOf value) fun b => { s with debugMode := b }

/-! ## Where values come from -/

/-- The environment: variables by name. -/
abbrev Environment := Table

/-- The value of a setting's variable.  Names count in any case, and of several that differ in case only
the one set up last counts. -/
def readVariable (env : Environment) (setting : Setting) : Option Text :=
  (env.entries.reverse.find? fun e => lower e.1 == setting.variableName).map Prod.snd

/-- Is the token an integer of more digits than a numeral may have? -/
def isLongInteger : Json.Token → Bool
  | .atom (.integer n) => maxDigits < Binary64.digitCount n.natAbs
  | _ => false

/-- The JSON in a variable.  An integer that is too long makes it unreadable. -/
def readJson (s : Text) : Option Json := do
  if (← Json.tokens s).any isLongInteger then none else Json.parse s

/-- The value that the environment gives to a setting: the text of its variable, or for the list of fenced
directives the JSON in it, where null gives nothing. -/
def environmentValue (env : Environment) (setting : Setting) : Except SettingsError (Option Json) :=
  match readVariable env setting with
  | none => .ok none
  | some text =>
    if setting = .fencedDirectives then
      match readJson text with
      | none => .error .unreadableVariable
      | some .null => .ok none
      | some value => .ok (some value)
    else .ok (some (.string text))

/-- The value given directly to a setting.  Its own name counts before the same name in another case, and
of several such names the last counts. -/
def givenValue (given : List (Text × Json)) (setting : Setting) : Option Json :=
  (given.lookup setting.name).or
    ((given.reverse.find? fun e => lower e.1 == setting.name).map Prod.snd)

/-- The value of a setting: the one given directly, else that of the environment. -/
def valueOf (env : Environment) (given : List (Text × Json)) (setting : Setting) :
    Except SettingsError (Option Json) := do
  let fromEnvironment ← environmentValue env setting
  return (givenValue given setting).or fromEnvironment

/-- The values of all settings that have one. -/
def values (env : Environment) (given : List (Text × Json)) :
    Except SettingsError (List (Setting × Json)) := do
  let found ← Setting.all.mapM fun setting => do
    return (← valueOf env given setting).map fun value => (setting, value)
  return found.filterMap id

/-- The names given that are no settings. -/
def unknown (given : List (Text × Json)) : List SettingFault :=
  (given.filter fun e => (Setting.ofName? e.1).isNone).map fun e => ⟨e.1, .unknownSetting⟩

/-- Settings after some values, and the faults of the values that cannot be taken. -/
def putAll (s : Settings) : List (Setting × Json) → Settings × List SettingFault
  | [] => (s, [])
  | (setting, value) :: rest =>
    match s.put setting value with
    | .ok s' => putAll s' rest
    | .error faults => ((putAll s rest).1, faults ++ (putAll s rest).2)

/-- Faults in the order of their places. -/
def sortFaults (faults : List SettingFault) : List SettingFault :=
  faults.mergeSort fun a b => le a.place b.place

/-- The settings that an environment and given values make. -/
def make (env : Environment) (given : List (Text × Json)) : Except SettingsError Settings := do
  let found ← values env given
  let (settings, faults) := putAll {} found
  let faults := faults ++ unknown given
  if faults = [] then .ok settings else .error (.invalid (sortFaults faults))

/-- Settings do not change; assigning one is a fault. -/
def reassign (name : Text) : SettingsError :=
  .invalid [⟨name, .frozen⟩]

end Settings
end AtMark
