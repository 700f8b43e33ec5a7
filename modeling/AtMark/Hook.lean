import AtMark.Notice
import AtMark.Text.Utf8

/-!
# `Hook`: plugins that post-process a page

A plugin may have a render hook, a function on the bytes of the finished page.  Hooks run in the order of
the plugins, each on what the one before it made, and a hook that does not give bytes back stops the run.
Beside its result a run tells which hooks were called on what.
-/

namespace AtMark

/-- What a hook gives back instead of bytes: a value of any other type, of which only the name of the type is
told. -/
structure Foreign where
  name : Text
deriving DecidableEq, Repr

namespace Foreign

/-- A text. -/
def text : Foreign := ⟨"str"⟩

/-- No value at all. -/
def nothing : Foreign := ⟨"NoneType"⟩

/-- A whole number. -/
def integer : Foreign := ⟨"int"⟩

end Foreign

/-- What a hook gives back. -/
inductive HookOutput where
  | bytes (raw : Bytes)
  | foreign (kind : Foreign)
deriving DecidableEq, Repr

/-- A plugin: its name, whether it wants to be told when it is registered, and its render hook. -/
structure Plugin where
  name : Text
  announced : Bool := false
  render : Option (Bytes → HookOutput) := none

/-- A hook that did not give bytes back. -/
structure HookFault where
  plugin : Text
  returned : Foreign
deriving DecidableEq, Repr

/-- The wording of a fault. -/
def HookFault.message (f : HookFault) : Text :=
  "Render hook of plugin " ++ Notice.quote f.plugin ++ " returned " ++ f.returned.name ++
    ", expected bytes"

/-- A call of a hook: the plugin and what it was called on. -/
structure HookCall where
  plugin : Text
  input : Bytes
deriving DecidableEq, Repr

/-- What a run of hooks yields. -/
structure HookRun where
  result : Except HookFault Bytes
  calls : List HookCall
  notices : List Notice

namespace Plugin

/-- The plugins that are told that they are registered, in order. -/
def announcedNames (plugins : List Plugin) : List Text :=
  (plugins.filter Plugin.announced).map Plugin.name

/-- What is reported when plugins are registered. -/
def registerNotices (plugins : List Plugin) : List Notice :=
  (announcedNames plugins).map Notice.registering

/-- Puts a call before a run, reported if it went well. -/
def afterCall (call : HookCall) (run : HookRun) : HookRun :=
  ⟨run.result, call :: run.calls, .hookApplied call.plugin :: run.notices⟩

/-- Runs the hooks on the bytes of a page. -/
def run : List Plugin → Bytes → HookRun
  | [], raw => ⟨.ok raw, [], []⟩
  | p :: rest, raw =>
    match p.render with
    | none => run rest raw
    | some hook =>
      match hook raw with
      | .bytes raw' => afterCall ⟨p.name, raw⟩ (run rest raw')
      | .foreign kind => ⟨.error ⟨p.name, kind⟩, [⟨p.name, raw⟩], []⟩

/-- The page that a run of hooks on its bytes leaves, ill-formed bytes replaced. -/
def pageOf (r : HookRun) : Except HookFault Text :=
  r.result.map Utf8.decode

/-- Runs the hooks on a page. -/
def runOnText (plugins : List Plugin) (page : Text) : HookRun :=
  run plugins (Utf8.encode page)

end Plugin
end AtMark
