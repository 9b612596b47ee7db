import UiTemplate.Proofs.Siblings.Calls

/-!
# How a unit grows

While nodes become calls, the unit only gains. A `Growth` is one way to look at what it gains:
helpers that are noted, say, or components. Nothing is gained by doing nothing, gains add up, and
their order does not matter.

- `Growth.Adds`: what a step that succeeds gives, and what the unit gains by it. There is one rule for
  each way to build a step (`bind`, `within`, `handle`), so what a template adds is found by following
  the code that emits it.
-/

namespace UiTemplate

/-- A way in which units grow. -/
structure Growth (γ : Type) where
  By : List γ → RenderUnit → RenderUnit → Prop
  refl : ∀ u, By [] u u
  append : ∀ {xs ys u u' u''}, By xs u u' → By ys u' u'' → By (xs ++ ys) u u''
  perm : ∀ {xs ys u u'}, By xs u u' → ys.Perm xs → By ys u u'

namespace Growth

/-- What a step that succeeds gives, and what the unit gains by it. -/
def Adds {α γ : Type} (g : Growth γ) (xs : List γ) (step : EmitCall α) (post : α → Prop) : Prop :=
  ∀ s s' a, step.run s = (.ok a, s') → post a ∧ g.By xs s.unit s'.unit

namespace Adds

variable {α β γ : Type} {g : Growth γ} {xs ys : List γ} {post : α → Prop} {post' : β → Prop}

theorem pure {a : α} (h : post a) : g.Adds [] (pure a) post := by
  intro s s' b hr
  cases hr
  exact ⟨h, g.refl s.unit⟩

theorem throw (d : Diagnostic) : g.Adds xs (throw d) post := by
  intro s s' b hr
  cases hr

theorem modify {f : RenderUnit → RenderUnit} (h : ∀ u, g.By xs u (f u)) :
    g.Adds xs (modify fun s => { s with unit := f s.unit }) fun _ => True := by
  intro s s' b hr
  cases hr
  exact ⟨trivial, h s.unit⟩

/-- A step that leaves the unit as it is. -/
theorem of_keeps {step : EmitCall α} (h : Emit.Keeps CallState.unit step) :
    g.Adds [] step fun _ => True := by
  intro s s' a hr
  have hs := h s
  rw [hr] at hs
  rw [show s'.unit = s.unit from hs]
  exact ⟨trivial, g.refl s.unit⟩

theorem congr {step : EmitCall α} (h : g.Adds xs step post) (hp : ys.Perm xs) :
    g.Adds ys step post :=
  fun s s' a hr => (h s s' a hr).imp id fun hg => g.perm hg hp

theorem bind {x : EmitCall α} {f : α → EmitCall β} (hx : g.Adds xs x post)
    (hf : ∀ a, post a → g.Adds ys (f a) post') : g.Adds (xs ++ ys) (x >>= f) post' := by
  intro s s' b hr
  rcases h : x.run s with ⟨r, s₁⟩
  cases r with
  | ok a =>
    rw [Emit.run_bind_ok h] at hr
    obtain ⟨ha, hg⟩ := hx s s₁ a h
    obtain ⟨hb, hg'⟩ := hf a ha s₁ s' b hr
    exact ⟨hb, g.append hg hg'⟩
  | error d =>
    rw [Emit.run_bind_error h] at hr
    cases hr

theorem given {a : α} {f : α → EmitCall β} (hf : g.Adds xs (f a) post') :
    g.Adds xs (Pure.pure a >>= f) post' := by
  rwa [pure_bind]

/-- After a step by which the unit gains nothing. -/
theorem after {x : EmitCall α} {f : α → EmitCall β} (hx : g.Adds [] x post)
    (hf : ∀ a, post a → g.Adds xs (f a) post') : g.Adds xs (x >>= f) post' :=
  hx.bind hf

/-- Then a step by which the unit gains nothing. -/
theorem andThen {x : EmitCall α} {f : α → EmitCall β} (hx : g.Adds xs x post)
    (hf : ∀ a, post a → g.Adds [] (f a) post') : g.Adds xs (x >>= f) post' := by
  have h := hx.bind hf
  rwa [List.append_nil] at h

/-- A step that reads the state. -/
theorem get {f : CallState → EmitCall β} (hf : ∀ s, g.Adds xs (f s) post') :
    g.Adds xs (get >>= f) post' :=
  fun s s' b hr => hf s s s' b hr

/-- A step around which the unit stays. -/
theorem within {step : EmitCall α} {enter : CallState → CallState}
    {leave : CallState → CallState → CallState} (h : g.Adds xs step post)
    (he : ∀ s, (enter s).unit = s.unit) (hl : ∀ s s', (leave s s').unit = s'.unit) :
    g.Adds xs (Emit.within enter leave step) post := by
  intro s s' a hr
  rcases hx : step.run (enter s) with ⟨r, s₁⟩
  obtain ⟨rfl, rfl⟩ := Prod.mk.inj ((Emit.run_within hx).symm.trans hr)
  rw [hl, ← he]
  exact h (enter s) s₁ a hx

theorem deeper {step : EmitCall α} (h : g.Adds xs step post) :
    g.Adds xs (Calls.deeper step) post :=
  h.within (fun _ => rfl) fun _ _ => rfl

theorem aside {step : EmitCall α} (h : g.Adds xs step post) : g.Adds xs (Calls.aside step) post :=
  h.within (fun _ => rfl) fun _ _ => rfl

theorem withLocals {step : EmitCall α} (names : List String) (h : g.Adds xs step post) :
    g.Adds xs (Calls.withLocals names step) post :=
  h.within (fun _ => rfl) fun _ _ => rfl

/-- A part of an emission where no fault is tolerated. -/
theorem handle {tolerant : Bool} (ht : tolerant = false) {note : Diagnostic → EmitCall Unit}
    {step : EmitCall α} (h : g.Adds xs step post) :
    g.Adds xs (Emit.handle tolerant note step) fun r => ∃ a, r = some a ∧ post a := by
  subst ht
  intro s s' r hr
  rcases hx : step.run s with ⟨r', s₁⟩
  unfold Emit.handle at hr
  rw [Emit.run_bind_ok (Emit.run_attempt hx)] at hr
  cases r' with
  | ok a =>
    cases hr
    obtain ⟨ha, hg⟩ := h s _ a hx
    exact ⟨⟨a, rfl, ha⟩, hg⟩
  | error d => cases hr

end Adds

end Growth

end UiTemplate
