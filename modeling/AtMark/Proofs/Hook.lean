import AtMark.Hook
import AtMark.Proofs.Text.Utf8

/-!
# `Proofs.Hook`: runs of render hooks

## What is proved

A run of hooks passes if every hook gives bytes back: each is called once, in order, on what the one before it made
(`Plugin.Passes`).  Otherwise it stops at the first hook that does not, and no hook behind that one is called
(`Plugin.Stops`).  Every run does one or the other, and its result and its calls tell which (`Plugin.passes_iff`,
`Plugin.stops_iff`).

The hooks of two lists of plugins, one behind the other, run as the second list does on what the first one leaves
(`Plugin.run_append`).  Without a hook a page comes back as it was, since its bytes are read as they were written
(`Plugin.pageOf_of_hookless`).  The two halves are put together in `Plugin.run_composes`.

## What is not

What hooks do.  A hook is any function from bytes to an answer, so it may give other bytes back, the same, or no bytes
at all; that it throws is not among its answers.  Bytes that are not those of a text are read as a text all the same,
and then the page differs from them.
-/

namespace AtMark

/-- A run gone on with on the bytes that it leaves; one that stopped is not gone on with. -/
def HookRun.followedBy (first : HookRun) (next : Bytes → HookRun) : HookRun :=
  match first.result with
  | .ok raw =>
    ⟨(next raw).result, first.calls ++ (next raw).calls, first.notices ++ (next raw).notices⟩
  | .error _ => first

namespace Plugin

/-- Every hook of the plugins gives bytes back: called in order, each once and on what the one before it made, they
make `out` of `raw`. -/
inductive Passes : List Plugin → Bytes → List HookCall → Bytes → Prop
  | nil {raw : Bytes} : Passes [] raw [] raw
  | silent {p : Plugin} {rest : List Plugin} {raw out : Bytes} {calls : List HookCall} :
      p.render = none → Passes rest raw calls out → Passes (p :: rest) raw calls out
  | called {p : Plugin} {rest : List Plugin} {raw made out : Bytes} {calls : List HookCall}
      {hook : Bytes → HookOutput} :
      p.render = some hook → hook raw = .bytes made → Passes rest made calls out →
        Passes (p :: rest) raw (⟨p.name, raw⟩ :: calls) out

/-- The hooks of some plugins pass, and the hook of the next one gives something else back than bytes.  The fault
names that plugin, and its hook is the last one called. -/
inductive Stops : List Plugin → Bytes → List HookCall → HookFault → Prop
  | intro {before behind : List Plugin} {p : Plugin} {raw made : Bytes} {calls : List HookCall}
      {hook : Bytes → HookOutput} {kind : Foreign} :
      Passes before raw calls made → p.render = some hook → hook made = .foreign kind →
        Stops (before ++ p :: behind) raw (calls ++ [⟨p.name, made⟩]) ⟨p.name, kind⟩

variable {plugins : List Plugin} {p : Plugin} {raw out : Bytes} {calls : List HookCall} {fault : HookFault}

/-! ## One plugin -/

theorem run_silent (h : p.render = none) (rest : List Plugin) (raw : Bytes) :
    run (p :: rest) raw = run rest raw := by
  rw [run, h]

theorem run_called {hook : Bytes → HookOutput} {made : Bytes} (h : p.render = some hook)
    (hmade : hook raw = .bytes made) (rest : List Plugin) :
    run (p :: rest) raw = afterCall ⟨p.name, raw⟩ (run rest made) := by
  rw [run, h]
  simp only [hmade]

theorem run_foreign {hook : Bytes → HookOutput} {kind : Foreign} (h : p.render = some hook)
    (hkind : hook raw = .foreign kind) (rest : List Plugin) :
    run (p :: rest) raw = ⟨.error ⟨p.name, kind⟩, [⟨p.name, raw⟩], []⟩ := by
  rw [run, h]
  simp only [hkind]

/-! ## Two lists of plugins -/

theorem followedBy_afterCall (call : HookCall) (first : HookRun) (next : Bytes → HookRun) :
    (afterCall call first).followedBy next = afterCall call (first.followedBy next) := by
  obtain ⟨result, calls, notices⟩ := first
  cases result with
  | ok raw => rfl
  | error fault => rfl

/-- Plugins behind others run on what those leave. -/
theorem run_append (plugins more : List Plugin) (raw : Bytes) :
    run (plugins ++ more) raw = (run plugins raw).followedBy (run more) := by
  induction plugins generalizing raw with
  | nil => rfl
  | cons p rest ih =>
      rw [List.cons_append]
      cases hrender : p.render with
      | none => rw [run_silent hrender, run_silent hrender, ih]
      | some hook =>
          cases hmade : hook raw with
          | bytes made =>
              rw [run_called hrender hmade, run_called hrender hmade, ih, followedBy_afterCall]
          | foreign kind =>
              rw [run_foreign hrender hmade, run_foreign hrender hmade]
              rfl

/-! ## What a run tells -/

theorem Passes.run_eq (h : Passes plugins raw calls out) :
    run plugins raw = ⟨.ok out, calls, calls.map fun call => .hookApplied call.plugin⟩ := by
  induction h with
  | nil => rfl
  | silent hrender _ ih => rw [run_silent hrender, ih]
  | called hrender hmade _ ih =>
      rw [run_called hrender hmade, ih]
      rfl

/-- Plugins behind the hook that stops a run have no part in it. -/
theorem Stops.run_append_eq (h : Stops plugins raw calls fault) (more : List Plugin) :
    (run (plugins ++ more) raw).result = .error fault ∧ (run (plugins ++ more) raw).calls = calls := by
  obtain ⟨hpasses, hrender, hkind⟩ := h
  rw [List.append_assoc, List.cons_append, run_append, hpasses.run_eq]
  simp only [HookRun.followedBy, run_foreign hrender hkind, and_self]

theorem Stops.run_eq (h : Stops plugins raw calls fault) :
    (run plugins raw).result = .error fault ∧ (run plugins raw).calls = calls := by
  have halone := h.run_append_eq []
  rwa [List.append_nil] at halone

theorem passes_or_stops (plugins : List Plugin) (raw : Bytes) :
    (∃ calls out, Passes plugins raw calls out) ∨ ∃ calls fault, Stops plugins raw calls fault := by
  induction plugins generalizing raw with
  | nil => exact .inl ⟨[], raw, .nil⟩
  | cons p rest ih =>
      cases hrender : p.render with
      | none =>
          rcases ih raw with ⟨calls, out, hpasses⟩ | ⟨calls, fault, hpasses, hnext, hkind⟩
          · exact .inl ⟨calls, out, .silent hrender hpasses⟩
          · exact .inr ⟨_, _, .intro (.silent hrender hpasses) hnext hkind⟩
      | some hook =>
          cases hmade : hook raw with
          | foreign kind => exact .inr ⟨_, _, .intro .nil hrender hmade⟩
          | bytes made =>
              rcases ih made with ⟨calls, out, hpasses⟩ | ⟨calls, fault, hpasses, hnext, hkind⟩
              · exact .inl ⟨_, out, .called hrender hmade hpasses⟩
              · exact .inr ⟨_, _, .intro (.called hrender hmade hpasses) hnext hkind⟩

theorem passes_iff :
    Passes plugins raw calls out ↔ (run plugins raw).result = .ok out ∧ (run plugins raw).calls = calls := by
  constructor
  · intro h
    rw [h.run_eq]
    exact ⟨rfl, rfl⟩
  · rintro ⟨hresult, rfl⟩
    rcases passes_or_stops plugins raw with ⟨calls, found, h⟩ | ⟨calls, fault, h⟩
    · rw [h.run_eq] at hresult ⊢
      cases hresult
      exact h
    · rw [h.run_eq.1] at hresult
      cases hresult

/-- A run fails exactly if a hook stops it, with the fault of that hook. -/
theorem stops_iff :
    Stops plugins raw calls fault ↔
      (run plugins raw).result = .error fault ∧ (run plugins raw).calls = calls := by
  constructor
  · exact fun h => h.run_eq
  · rintro ⟨hresult, rfl⟩
    rcases passes_or_stops plugins raw with ⟨calls, out, h⟩ | ⟨calls, found, h⟩
    · rw [h.run_eq] at hresult
      cases hresult
    · obtain ⟨hfound, hcalls⟩ := h.run_eq
      rw [hfound] at hresult
      cases hresult
      rwa [hcalls]

/-! ## Pages without render hooks -/

theorem run_of_hookless (h : ∀ p ∈ plugins, p.render = none) (raw : Bytes) :
    run plugins raw = ⟨.ok raw, [], []⟩ := by
  induction plugins with
  | nil => rfl
  | cons p rest ih =>
      obtain ⟨hp, hrest⟩ := List.forall_mem_cons.mp h
      rw [run_silent hp, ih hrest]

theorem pageOf_of_hookless (h : ∀ p ∈ plugins, p.render = none) (page : Text) :
    pageOf (runOnText plugins page) = .ok page := by
  rw [runOnText, run_of_hookless h, pageOf]
  exact congrArg Except.ok (Utf8.decode_encode page)

/-! ## All hooks -/

/-- The hooks of two lists of plugins compose.  A run passes or stops, and one that stops does so at the first hook
that gives no bytes back, whatever plugins are behind that one.  Without a hook every page stays as it is. -/
theorem run_composes (plugins more : List Plugin) (raw : Bytes) :
    run (plugins ++ more) raw = (run plugins raw).followedBy (run more) ∧
      (∀ calls out, Passes plugins raw calls out ↔
        (run plugins raw).result = .ok out ∧ (run plugins raw).calls = calls) ∧
      (∀ calls fault, Stops plugins raw calls fault ↔
        (run plugins raw).result = .error fault ∧ (run plugins raw).calls = calls) ∧
      (∀ calls fault, Stops plugins raw calls fault →
        (run (plugins ++ more) raw).result = .error fault ∧ (run (plugins ++ more) raw).calls = calls) ∧
      ((∀ p ∈ plugins, p.render = none) → ∀ page, pageOf (runOnText plugins page) = .ok page) := by
  refine ⟨run_append plugins more raw, ?_, ?_, ?_, ?_⟩
  · intro calls out
    exact passes_iff
  · intro calls fault
    exact stops_iff
  · intro calls fault hstops
    exact hstops.run_append_eq more
  · intro hhookless page
    exact pageOf_of_hookless hhookless page

/-- A hook that adds a byte, a plugin without a hook, and a hook that gives nothing back: the one behind is not
called.  The plugin without a hook leaves a page with a byte order mark alone. -/
theorem run_composes_stopped :
    let plugins : List Plugin :=
      [⟨"mark", false, some fun raw => .bytes (raw ++ [0x21])⟩, ⟨"quiet", false, none⟩,
        ⟨"odd", false, some fun _ => .foreign .nothing⟩]
    let more : List Plugin := [⟨"last", false, some .bytes⟩]
    Stops plugins [0x61] [⟨"mark", [0x61]⟩, ⟨"odd", [0x61, 0x21]⟩] ⟨"odd", .nothing⟩ ∧
      (run (plugins ++ more) [0x61]).result = .error ⟨"odd", .nothing⟩ ∧
      (run (plugins ++ more) [0x61]).calls = [⟨"mark", [0x61]⟩, ⟨"odd", [0x61, 0x21]⟩] ∧
      (∀ p ∈ [(⟨"quiet", false, none⟩ : Plugin)], p.render = none) ∧
      pageOf (runOnText [⟨"quiet", false, none⟩] "\uFEFFé") = .ok "\uFEFFé".toList := by
  intro plugins more
  have hstops : Stops plugins [0x61] [⟨"mark", [0x61]⟩, ⟨"odd", [0x61, 0x21]⟩] ⟨"odd", .nothing⟩ :=
    stops_iff.mpr ⟨rfl, rfl⟩
  obtain ⟨-, -, -, hrun, -⟩ := run_composes plugins more [0x61]
  have hquiet : ∀ p ∈ [(⟨"quiet", false, none⟩ : Plugin)], p.render = none := by simp
  obtain ⟨-, -, -, -, hpage⟩ := run_composes [⟨"quiet", false, none⟩] [] []
  exact ⟨hstops, (hrun _ _ hstops).1, (hrun _ _ hstops).2, hquiet, hpage hquiet _⟩

end Plugin
end AtMark
