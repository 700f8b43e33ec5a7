import AtMark.Proofs.Render.Builtin
import AtMark.Render.Session
import Mathlib.Data.List.Basic

/-!
# `Proofs.Render.Session`: what a renderer keeps

## What is proved

Two things change while a renderer is in use, its aliases and what is registered.  A page gathers the aliases
afresh, so those left behind do not reach it (`page_of_agree`).  What is registered after a session is known
kind by kind: the last registration of the kind, or else what was there before (`registry_afterAll`).  So a
page made behind any session is that of a new renderer which was given the last registration of each kind and
nothing else (`page_afterAll`).

A registered handler is given all that is registered, and may have nodes of other kinds rendered.  So what is
registered for one kind can show in the page of a document without a node of that kind, if some handler asks for it.
The library's own handlers do not (`Render.builtin_render_congr`), and therefore registrations for kinds that the
document does not have leave no trace.

## What is not

Handlers that change the renderer they are given.  A handler here answers with a rendering and does nothing else
(`Handler`).
-/

namespace AtMark

/-! ## The last registrations -/

namespace RenderRequest

/-- What a request registers for a kind. -/
def specFor? (kind : NodeKind) : RenderRequest → Option HandlerSpec
  | register k spec => if k = kind then some spec else none
  | _ => none

/-- What is registered last for a kind. -/
def lastSpec? (kind : NodeKind) : List RenderRequest → Option HandlerSpec
  | [] => none
  | request :: rest => (lastSpec? kind rest).or (request.specFor? kind)

/-- The registrations that no later one replaces. -/
def lastRegistrations : List RenderRequest → List RenderRequest
  | [] => []
  | register kind spec :: rest =>
    if (lastSpec? kind rest).isSome then lastRegistrations rest
    else register kind spec :: lastRegistrations rest
  | _ :: rest => lastRegistrations rest

theorem lastSpec?_eq_none {kind : NodeKind} {requests : List RenderRequest}
    (h : ∀ spec, register kind spec ∉ requests) : lastSpec? kind requests = none := by
  induction requests with
  | nil => rfl
  | cons request rest ih =>
      rw [lastSpec?, ih fun spec hspec => h spec (List.mem_cons_of_mem _ hspec), Option.none_or]
      cases request with
      | register k spec =>
          refine if_neg ?_
          rintro rfl
          exact h spec List.mem_cons_self
      | _ => rfl

/-- Registrations that are replaced later may be left out. -/
theorem lastSpec?_lastRegistrations (kind : NodeKind) (requests : List RenderRequest) :
    lastSpec? kind (lastRegistrations requests) = lastSpec? kind requests := by
  induction requests with
  | nil => rfl
  | cons request rest ih =>
      cases request with
      | register k spec =>
          rw [lastRegistrations, lastSpec?]
          split
          · next hlater =>
            -- A later registration of the same kind hides this one.
            rw [ih]
            by_cases hk : k = kind
            · subst hk
              rw [Option.or_of_isSome hlater]
            · rw [specFor?, if_neg hk, Option.or_none]
          · rw [lastSpec?, ih]
      | _ =>
          rw [lastRegistrations, lastSpec?, ih, specFor?, Option.or_none]
          all_goals exact nofun

end RenderRequest

/-! ## What a session changes -/

namespace Renderer

open RenderRequest

variable {r : Renderer}

theorem host_answer (request : RenderRequest) : (r.answer request).1.host = r.host := by
  cases request <;> rfl

theorem options_answer (request : RenderRequest) : (r.answer request).1.options = r.options := by
  cases request <;> rfl

theorem registry_answer (request : RenderRequest) (kind : NodeKind) :
    (r.answer request).1.registry kind = (request.specFor? kind).or (r.registry kind) := by
  cases request with
  | register k spec =>
      show (if kind = k then some spec else r.registry kind) =
        (if k = kind then some spec else none).or (r.registry kind)
      by_cases hk : k = kind
      · rw [if_pos hk, if_pos hk.symm, Option.some_or]
      · rw [if_neg hk, if_neg (Ne.symm hk), Option.none_or]
  | _ => rfl

theorem afterAll_cons (request : RenderRequest) (rest : List RenderRequest) :
    r.afterAll (request :: rest) = (r.answer request).1.afterAll rest := rfl

/-- What every request leaves as it was is so after a session. -/
theorem afterAll_of_answer {α : Type} {part : Renderer → α}
    (h : ∀ (r : Renderer) (request : RenderRequest), part (r.answer request).1 = part r)
    (requests : List RenderRequest) : part (r.afterAll requests) = part r := by
  induction requests generalizing r with
  | nil => rfl
  | cons request rest ih => rw [afterAll_cons, ih, h]

theorem host_afterAll (requests : List RenderRequest) : (r.afterAll requests).host = r.host :=
  afterAll_of_answer (fun _ => host_answer) requests

theorem options_afterAll (requests : List RenderRequest) : (r.afterAll requests).options = r.options :=
  afterAll_of_answer (fun _ => options_answer) requests

/-- For each kind the last registration counts. -/
theorem registry_afterAll (requests : List RenderRequest) (kind : NodeKind) :
    (r.afterAll requests).registry kind = (lastSpec? kind requests).or (r.registry kind) := by
  induction requests generalizing r with
  | nil => rfl
  | cons request rest ih => rw [afterAll_cons, ih, registry_answer, lastSpec?, Option.or_assoc]

/-! ## Pages behind a session -/

/-- The page of a document depends on the host, the options and what is registered.  The aliases that a renderer
holds are not among that, since it gathers those of the document first. -/
theorem page_of_agree {r r' : Renderer} (hhost : r.host = r'.host) (hoptions : r.options = r'.options)
    (hregistry : r.registry = r'.registry) (document : Node) : r.page document = r'.page document := by
  obtain ⟨host, options, registry, aliases⟩ := r
  obtain ⟨host', options', registry', aliases'⟩ := r'
  obtain rfl : host = host' := hhost
  obtain rfl : options = options' := hoptions
  obtain rfl : registry = registry' := hregistry
  rfl

/-- After any session, the page of a document is that of a new renderer with the same options which was given
the last registration of each kind.  It is that of a new renderer without any registration if none was made
for the kinds of the document's children. -/
theorem page_afterAll (host : Host) (options : RenderOptions) (requests : List RenderRequest)
    (document : Node) :
    (afterAll { host, options } requests).page document =
        (afterAll { host, options } (lastRegistrations requests)).page document ∧
      ((∀ n ∈ document.children, ∀ spec, RenderRequest.register n.kind spec ∉ requests) →
        (afterAll { host, options } requests).page document =
          ({ host, options } : Renderer).page document) := by
  constructor
  · refine page_of_agree ?_ ?_ (funext fun kind => ?_) document
    · rw [host_afterAll, host_afterAll]
    · rw [options_afterAll, options_afterAll]
    · rw [registry_afterAll, registry_afterAll, lastSpec?_lastRegistrations]
  · intro hnone
    have hchildren : ∀ n ∈ document.children,
        (afterAll { host, options } requests).registry n.kind = Render.builtin n.kind := by
      intro n hn
      rw [registry_afterAll, lastSpec?_eq_none (hnone n hn), Option.none_or]
    rw [page_of_builtin hchildren, page_builtin, host_afterAll, options_afterAll]

/-- A session that leaves an alias and two registrations behind, the last one of a handler that has its node rendered
as a paragraph; a document that has neither, and one with a node of the registered kind. -/
theorem page_afterAll_alias :
    let definition : Node := ⟨.styleDef, .empty, "note: wide", true, []⟩
    let block : Node := ⟨.style, .ofList [("name", "note")], "text", true, []⟩
    let first : HandlerSpec := ⟨"first", none, true⟩
    let second : HandlerSpec :=
      ⟨"second", some fun ctx n => ctx.registered.render { n with kind := .content }, false⟩
    let requests := [.page ⟨.document, .empty, [], false, [definition]⟩, .register .heading first,
      .classes block, .register .heading second]
    let document : Node := ⟨.document, .empty, [], false, [block]⟩
    let heading : Node := ⟨.document, .empty, [], false, [⟨.heading, .empty, "text", true, []⟩]⟩
    let r : Renderer := { host := .plain }
    lastRegistrations requests = [.register .heading second] ∧
      (r.afterAll requests).classes block = some "wide".toList ∧
      (∀ n ∈ document.children, ∀ spec, RenderRequest.register n.kind spec ∉ requests) ∧
      (r.afterAll requests).page document = r.page document ∧
      r.page document = .ok (assemble [] ["<div>text</div>"]) ∧
      (r.afterAll requests).page heading = (r.afterAll [.register .heading second]).page heading ∧
      (r.afterAll [.register .heading second]).page heading = .ok (assemble [] ["<p>text</p>"]) := by
  intro definition block first second requests document heading r
  have hnone : ∀ n ∈ document.children, ∀ spec, RenderRequest.register n.kind spec ∉ requests := by
    intro n hn spec
    rw [List.mem_singleton.mp hn]
    simp [requests, block]
  exact ⟨rfl, by decide +kernel, hnone, (page_afterAll _ {} requests document).2 hnone, by decide +kernel,
    (page_afterAll _ {} requests heading).1, by decide +kernel⟩

end Renderer
end AtMark
