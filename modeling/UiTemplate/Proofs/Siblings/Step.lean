import UiTemplate.Proofs.Tolerance.Step

/-!
# Steps beside a fault

A part of an emission that fails is left out of it. These are the notions with which its influence on
what comes after it is followed.

- `Emit.handle`: a part that is left out if it fails.
- `Emit.Alike`: steps to which only a part of the state matters.
- `Emit.Yields`: what holds after a step that succeeds.
- `Emit.Runs`: the states in which a step comes to run a part of it.
-/

namespace UiTemplate

/-- A part of an emission. If faults are tolerated and it fails, the fault is noted and the part left
out. -/
def Emit.handle {σ α : Type} (tolerant : Bool) (note : Diagnostic → Emit σ Unit)
    (step : Emit σ α) : Emit σ (Option α) := do
  match ← Emit.attempt step with
  | .ok a => return some a
  | .error d =>
    if tolerant then
      note d
      return none
    else throw d

theorem Emit.Keeps.handle {σ α γ : Type} {view : σ → γ} {note : Diagnostic → Emit σ Unit}
    {step : Emit σ α} (tolerant : Bool) (hn : ∀ d, Keeps view (note d)) (h : Keeps view step) :
    Keeps view (Emit.handle tolerant note step) := by
  refine h.attempt.bind fun r => ?_
  cases r with
  | ok a => exact .pure _
  | error d =>
    dsimp only
    split
    · exact (hn d).bind fun _ => .pure _
    · exact .throw d

namespace Emit

variable {σ α β γ : Type} {view : σ → γ}

/-- A step in a changed state, after which what `view` sees is put back as it was read before. -/
theorem Keeps.restored {enter : σ → σ} {leave : σ → σ → σ → σ} {x : Emit σ α} {f : α → Emit σ β}
    (h : ∀ s s', view (leave s s s') = view s) (hf : ∀ a, Keeps view (f a)) :
    Keeps view (MonadState.get >>= fun s => Emit.within enter (leave s) x >>= f) := by
  intro s
  rcases hx : x.run (enter s) with ⟨r, s'⟩
  have hin : (Emit.within enter (leave s) x).run s = (r, leave s s s') := run_within hx
  show view ((Emit.within enter (leave s) x >>= f).run s).2 = view s
  cases r with
  | ok a => rw [run_bind_ok hin, hf a, h]
  | error d => rw [run_bind_error hin, h]

/-! ## Steps that see a part of the state -/

/-- Two steps that end alike from states in which `view` sees the same. -/
def Alike (view : σ → γ) (x y : Emit σ α) : Prop :=
  ∀ s t, view s = view t → (x.run s).1 = (y.run t).1 ∧ view (x.run s).2 = view (y.run t).2

namespace Alike

theorem pure (a : α) : Alike view (pure a : Emit σ α) (Pure.pure a) :=
  fun _ _ h => ⟨rfl, h⟩

theorem throw (d : Diagnostic) : Alike view (throw d : Emit σ α) (MonadExcept.throw d) :=
  fun _ _ h => ⟨rfl, h⟩

theorem ofExcept (r : Except Diagnostic α) :
    Alike view (ExceptT.mk (Pure.pure r) : Emit σ α) (ExceptT.mk (Pure.pure r)) :=
  fun _ _ h => ⟨rfl, h⟩

theorem bind {x y : Emit σ α} {f g : α → Emit σ β} (hx : Alike view x y)
    (hf : ∀ a, Alike view (f a) (g a)) : Alike view (x >>= f) (y >>= g) := by
  intro s t h
  rcases hs : x.run s with ⟨r, s'⟩
  rcases ht : y.run t with ⟨r', t'⟩
  have hr := hx s t h
  rw [hs, ht] at hr
  obtain ⟨rfl, hv⟩ := hr
  cases r with
  | ok a =>
    rw [run_bind_ok hs, run_bind_ok ht]
    exact hf a s' t' hv
  | error d =>
    rw [run_bind_error hs, run_bind_error ht]
    exact ⟨rfl, hv⟩

/-- A step that reads the state. -/
theorem get {f g : σ → Emit σ β} (hf : ∀ s t, view s = view t → Alike view (f s) (g t)) :
    Alike view (get >>= f) (MonadState.get >>= g) :=
  fun s t h => hf s t h s t h

theorem modify {f : σ → σ} (hf : ∀ s t, view s = view t → view (f s) = view (f t)) :
    Alike view (modify f : Emit σ Unit) (modify f) :=
  fun s t h => ⟨rfl, hf s t h⟩

theorem within {enter enter' : σ → σ} {leave leave' : σ → σ → σ} {x y : Emit σ α}
    (hx : Alike view x y) (he : ∀ s t, view s = view t → view (enter s) = view (enter' t))
    (hl : ∀ s t s' t', view s = view t → view s' = view t' →
      view (leave s s') = view (leave' t t')) :
    Alike view (Emit.within enter leave x) (Emit.within enter' leave' y) := by
  intro s t h
  obtain ⟨hr, hv⟩ := hx (enter s) (enter' t) (he s t h)
  exact ⟨hr, hl s t _ _ h hv⟩

theorem handle {x y : Emit σ α} {note : Diagnostic → Emit σ Unit} (tolerant : Bool)
    (hn : ∀ d, Alike view (note d) (note d)) (hx : Alike view x y) :
    Alike view (Emit.handle tolerant note x) (Emit.handle tolerant note y) := by
  have ha : Alike view (Emit.attempt x) (Emit.attempt y) := by
    intro s t h
    obtain ⟨hr, hv⟩ := hx s t h
    exact ⟨congrArg Except.ok hr, hv⟩
  refine ha.bind fun r => ?_
  cases r with
  | ok a => exact .pure _
  | error d =>
    dsimp only
    split
    · exact (hn d).bind fun _ => .pure _
    · exact .throw d

end Alike

theorem checkDirectives_alike (ds : List Directive) (path : Path) :
    Alike view (checkDirectives ds path : Emit σ Unit) (checkDirectives ds path) := by
  unfold checkDirectives
  split
  · exact .throw _
  · exact .pure _

/-! ## What holds after a step -/

/-- Where `pre` holds and the step succeeds, `post` holds after it. -/
def Yields (pre : σ → Prop) (step : Emit σ α) (post : σ → Prop) : Prop :=
  ∀ s a s', pre s → step.run s = (.ok a, s') → post s'

namespace Yields

variable {pre mid post : σ → Prop}

theorem pure (a : α) (h : ∀ s, pre s → post s) : Yields pre (pure a : Emit σ α) post := by
  intro s b s' hs hr
  obtain ⟨-, rfl⟩ := Prod.mk.inj hr
  exact h _ hs

theorem throw (d : Diagnostic) : Yields pre (throw d : Emit σ α) post := by
  intro s b s' _ hr
  cases hr

theorem ofExcept (r : Except Diagnostic α) (h : ∀ s, pre s → post s) :
    Yields pre (ExceptT.mk (Pure.pure r) : Emit σ α) post := by
  intro s b s' hs hr
  obtain ⟨-, rfl⟩ := Prod.mk.inj hr
  exact h _ hs

theorem get (h : ∀ s, pre s → post s) : Yields pre (get : Emit σ σ) post :=
  fun s _ _ hs hr => (Prod.mk.inj hr).2 ▸ h s hs

theorem modify {f : σ → σ} (h : ∀ s, pre s → post (f s)) :
    Yields pre (modify f : Emit σ Unit) post :=
  fun s _ _ hs hr => (Prod.mk.inj hr).2 ▸ h s hs

theorem bind {x : Emit σ α} {f : α → Emit σ β} (hx : Yields pre x mid)
    (hf : ∀ a, Yields mid (f a) post) : Yields pre (x >>= f) post := by
  intro s b s' hs hr
  rcases h : x.run s with ⟨r, s₁⟩
  cases r with
  | ok a =>
    rw [run_bind_ok h] at hr
    exact hf a s₁ b s' (hx s a s₁ hs h) hr
  | error d =>
    rw [run_bind_error h] at hr
    cases hr

theorem imp {pre' post' : σ → Prop} {x : Emit σ α} (h : Yields pre x post)
    (hpre : ∀ s, pre' s → pre s) (hpost : ∀ s, post s → post' s) : Yields pre' x post' :=
  fun s a s' hs hr => hpost s' (h s a s' (hpre s hs) hr)

theorem within {pre' post' : σ → Prop} {enter : σ → σ} {leave : σ → σ → σ} {x : Emit σ α}
    (hx : Yields pre' x post') (he : ∀ s, pre s → pre' (enter s))
    (hl : ∀ s s', post' s' → post (leave s s')) :
    Yields pre (Emit.within enter leave x) post := by
  intro s a s' hs hr
  rcases h : x.run (enter s) with ⟨r, s₁⟩
  rw [run_within h] at hr
  obtain ⟨rfl, rfl⟩ := Prod.mk.inj hr
  exact hl s s₁ (hx _ a s₁ (he s hs) h)

/-- A part that is left out if it fails; a fault that is noted has to establish what holds after. -/
theorem handle {x : Emit σ α} {note : Diagnostic → Emit σ Unit} (tolerant : Bool)
    (hn : ∀ d, Yields (fun _ => True) (note d) post) (hx : Yields pre x post) :
    Yields pre (Emit.handle tolerant note x) post := by
  intro s b s' hs hr
  rcases h : x.run s with ⟨r, s₁⟩
  unfold Emit.handle at hr
  rw [run_bind_ok (run_attempt h)] at hr
  cases r with
  | ok a =>
    obtain ⟨-, rfl⟩ := Prod.mk.inj hr
    exact hx s a _ hs h
  | error d =>
    cases tolerant with
    | true =>
      have hpost : Yields (fun _ => True) (note d >>= fun _ => (Pure.pure none : Emit σ (Option α)))
          post := (hn d).bind fun _ => .pure _ fun _ hs => hs
      exact hpost s₁ b s' trivial hr
    | false => cases hr

end Yields

/-! ## Parts of a step -/

theorem run_bind_congr {x : Emit σ α} {f g : α → Emit σ β} {s : σ}
    (h : ∀ a s', x.run s = (.ok a, s') → (f a).run s' = (g a).run s') :
    (x >>= f).run s = (x >>= g).run s := by
  rcases hx : x.run s with ⟨r, s'⟩
  cases r with
  | ok a => rw [run_bind_ok hx, run_bind_ok hx, h a s' hx]
  | error d => rw [run_bind_error hx, run_bind_error hx]

theorem run_bind_congr_left {x y : Emit σ α} {f : α → Emit σ β} {s : σ} (h : x.run s = y.run s) :
    (x >>= f).run s = (y >>= f).run s := by
  rcases hx : x.run s with ⟨r, s'⟩
  have hy : y.run s = (r, s') := h ▸ hx
  cases r with
  | ok a => rw [run_bind_ok hx, run_bind_ok hy]
  | error d => rw [run_bind_error hx, run_bind_error hy]

theorem run_within_congr {enter : σ → σ} {leave : σ → σ → σ} {x y : Emit σ α} {s : σ}
    (h : x.run (enter s) = y.run (enter s)) :
    (Emit.within enter leave x).run s = (Emit.within enter leave y).run s := by
  rcases hy : y.run (enter s) with ⟨r, s'⟩
  rw [run_within (h.trans hy), run_within hy]

/-- Started in `s`, `whole` comes to run its part in `s'`: what comes of it hangs on what the part
does there. -/
def Runs (whole : Emit σ α → Emit σ β) (s s' : σ) : Prop :=
  ∃ part part' : Emit σ α, (∀ t, t ≠ s' → part.run t = part'.run t) ∧
    (whole part).run s ≠ (whole part').run s

theorem Runs.eq {whole : Emit σ α → Emit σ β} {s s' t : σ} (h : Runs whole s s')
    (ht : ∀ part part' : Emit σ α, part.run t = part'.run t →
      (whole part).run s = (whole part').run s) : s' = t := by
  obtain ⟨part, part', hsame, hdiff⟩ := h
  refine Classical.byContradiction fun hne => ?_
  exact hdiff (ht part part' (hsame t fun he => hne he.symm))

end Emit

end UiTemplate
