import UiTemplate.Proofs.Backend.Ends

/-!
# Steps that tolerate faults

A backend runs in two ways: a strict run ends with the first fault, a tolerant one notes it, leaves
out what is at fault and goes on. `Emit.Tolerates noted strict tolerant` compares the two from one
state. As long as the strict step succeeds both do the same and nothing is noted; if it fails with
`d`, then `d` is what the tolerant step fails with or the first fault it notes.

- `Emit.Tolerates.bind`, `within`, `attempt`: one rule for each way to build a step.
- `Emit.Keeps`: a step that leaves a part of the state as it was; one that notes nothing is the same in
  both runs.
- `Tolerated`: what comes of this for a whole emission.
-/

namespace UiTemplate

namespace Emit

variable {σ α β γ : Type} {view : σ → γ} {noted : σ → List Diagnostic}

theorem run_attempt {x : Emit σ α} {s s' : σ} {r : Except Diagnostic α} (h : x.run s = (r, s')) :
    (Emit.attempt x).run s = (.ok r, s') := by
  show (Except.ok (x.run s).1, (x.run s).2) = _
  rw [h]

theorem run_within {enter : σ → σ} {leave : σ → σ → σ} {x : Emit σ α} {s s' : σ}
    {r : Except Diagnostic α} (h : x.run (enter s) = (r, s')) :
    (Emit.within enter leave x).run s = (r, leave s s') := by
  show ((x.run (enter s)).1, leave s (x.run (enter s)).2) = _
  rw [h]

/-! ## Steps that leave a part of the state as it was -/

/-- A step that leaves what `view` sees of the state as it was, however it ends. -/
def Keeps (view : σ → γ) (step : Emit σ α) : Prop :=
  ∀ s, view (step.run s).2 = view s

namespace Keeps

theorem pure (a : α) : Keeps view (pure a : Emit σ α) :=
  fun _ => rfl

theorem throw (d : Diagnostic) : Keeps view (throw d : Emit σ α) :=
  fun _ => rfl

theorem get : Keeps view (get : Emit σ σ) :=
  fun _ => rfl

theorem modify {f : σ → σ} (h : ∀ s, view (f s) = view s) :
    Keeps view (modify f : Emit σ Unit) :=
  h

/-- A result that is computed without the state. -/
theorem ofExcept (x : Except Diagnostic α) :
    Keeps view (ExceptT.mk (Pure.pure x) : Emit σ α) :=
  fun _ => rfl

theorem bind {x : Emit σ α} {f : α → Emit σ β} (hx : Keeps view x)
    (hf : ∀ a, Keeps view (f a)) : Keeps view (x >>= f) := by
  intro s
  have hs := hx s
  rcases h : x.run s with ⟨r, s'⟩
  rw [h] at hs
  cases r with
  | ok a => rw [run_bind_ok h, hf a s', hs]
  | error d => rw [run_bind_error h, hs]

/-- A step in a changed state, of which `leave` puts back what `view` sees. -/
theorem within {enter : σ → σ} {leave : σ → σ → σ} {x : Emit σ α} (hx : Keeps view x)
    (h : ∀ s s', view s' = view (enter s) → view (leave s s') = view s) :
    Keeps view (Emit.within enter leave x) :=
  fun s => h s _ (hx (enter s))

theorem attempt {x : Emit σ α} (hx : Keeps view x) : Keeps view (Emit.attempt x) :=
  hx

end Keeps

theorem checkDirectives_keeps (ds : List Directive) (path : Path) :
    Keeps view (checkDirectives ds path : Emit σ Unit) := by
  unfold checkDirectives
  split
  · exact .throw _
  · exact .pure _

/-! ## Two runs -/

/-- How a tolerant step compares with a strict one. -/
structure Tolerates (noted : σ → List Diagnostic) (strict tolerant : Emit σ α) : Prop where
  /-- Where the strict step succeeds, the tolerant one does the same and notes nothing. -/
  agrees : ∀ {s s' a}, strict.run s = (.ok a, s') →
    tolerant.run s = (.ok a, s') ∧ noted s' = noted s
  /-- Where the strict step fails, the tolerant one fails likewise or has noted the fault first. -/
  notes : ∀ {s s' d}, strict.run s = (.error d, s') →
    (∃ s'', tolerant.run s = (.error d, s'') ∧ noted s'' = noted s) ∨
      noted s ++ [d] <+: noted (tolerant.run s).2
  /-- What was noted before stays noted. -/
  grows : ∀ s, noted s <+: noted (tolerant.run s).2

theorem Keeps.tolerates {step : Emit σ α} (h : Keeps noted step) : Tolerates noted step step := by
  refine ⟨fun {s s' a} hr => ⟨hr, ?_⟩, fun {s s' d} hr => .inl ⟨s', hr, ?_⟩, fun s => ?_⟩
  · have := h s
    rwa [hr] at this
  · have := h s
    rwa [hr] at this
  · exact ⟨[], by rw [List.append_nil, h s]⟩

namespace Tolerates

/-- What is noted by the first of two steps stays noted. -/
theorem grows_bind {x : Emit σ α} {f f' : α → Emit σ β} (hf : ∀ a, Tolerates noted (f a) (f' a))
    (s : σ) : noted (x.run s).2 <+: noted ((x >>= f').run s).2 := by
  rcases h : x.run s with ⟨r, s'⟩
  cases r with
  | ok a =>
    rw [run_bind_ok h]
    exact (hf a).grows s'
  | error d => exact ⟨[], by rw [List.append_nil, run_bind_error h]⟩

theorem bind {x x' : Emit σ α} {f f' : α → Emit σ β} (hx : Tolerates noted x x')
    (hf : ∀ a, Tolerates noted (f a) (f' a)) : Tolerates noted (x >>= f) (x' >>= f') := by
  refine ⟨fun {s s' b} h => ?_, fun {s s' d} h => ?_, fun s => ?_⟩
  · rcases hr : x.run s with ⟨r, s₁⟩
    cases r with
    | error d =>
      rw [run_bind_error hr] at h
      cases h
    | ok a =>
      obtain ⟨hr', hn⟩ := hx.agrees hr
      rw [run_bind_ok hr] at h
      rw [run_bind_ok hr', ← hn]
      exact (hf a).agrees h
  · rcases hr : x.run s with ⟨r, s₁⟩
    cases r with
    | error d' =>
      rw [run_bind_error hr] at h
      cases h
      rcases hx.notes hr with ⟨s₂, hr', hn⟩ | hn
      · exact .inl ⟨s₂, run_bind_error hr', hn⟩
      · exact .inr (hn.trans (grows_bind hf s))
    | ok a =>
      obtain ⟨hr', hn⟩ := hx.agrees hr
      rw [run_bind_ok hr] at h
      rw [run_bind_ok hr', ← hn]
      exact (hf a).notes h
  · exact (hx.grows s).trans (grows_bind hf s)

/-- After a step that is the same in both runs. -/
theorem after {x : Emit σ α} {f f' : α → Emit σ β} (hx : Keeps noted x)
    (hf : ∀ a, Tolerates noted (f a) (f' a)) : Tolerates noted (x >>= f) (x >>= f') :=
  hx.tolerates.bind hf

/-- Then a step that is the same in both runs. -/
theorem andThen {x x' : Emit σ α} {f : α → Emit σ β} (hx : Tolerates noted x x')
    (hf : ∀ a, Keeps noted (f a)) : Tolerates noted (x >>= f) (x' >>= f) :=
  hx.bind fun a => (hf a).tolerates

theorem within {enter : σ → σ} {leave : σ → σ → σ} {x x' : Emit σ α} (h : Tolerates noted x x')
    (he : ∀ s, noted (enter s) = noted s) (hl : ∀ s s', noted (leave s s') = noted s') :
    Tolerates noted (Emit.within enter leave x) (Emit.within enter leave x') := by
  have hnoted (s : σ) :
      noted ((Emit.within enter leave x').run s).2 = noted (x'.run (enter s)).2 := hl s _
  refine ⟨fun {s s' a} hr => ?_, fun {s s' d} hr => ?_, fun s => ?_⟩
  · rcases hx : x.run (enter s) with ⟨r, s₁⟩
    obtain ⟨rfl, rfl⟩ := Prod.mk.inj ((run_within hx).symm.trans hr)
    obtain ⟨hx', hn⟩ := h.agrees hx
    exact ⟨run_within hx', by rw [hl, hn, he]⟩
  · rcases hx : x.run (enter s) with ⟨r, s₁⟩
    obtain ⟨rfl, rfl⟩ := Prod.mk.inj ((run_within hx).symm.trans hr)
    rcases h.notes hx with ⟨s₂, hx', hn⟩ | hn
    · exact .inl ⟨leave s s₂, run_within hx', by rw [hl, hn, he]⟩
    · refine .inr ?_
      rw [hnoted, ← he s]
      exact hn
  · rw [hnoted, ← he s]
    exact h.grows (enter s)

/-- A part that the tolerant run leaves out if it fails, once the fault is noted. -/
theorem attempt {x x' : Emit σ α} {next next' : Except Diagnostic α → Emit σ β}
    (hx : Tolerates noted x x') (hok : ∀ a, Tolerates noted (next (.ok a)) (next' (.ok a)))
    (hstrict : ∀ d, next (.error d) = MonadExcept.throw d)
    (hnotes : ∀ d s, noted s ++ [d] <+: noted ((next' (.error d)).run s).2) :
    Tolerates noted (Emit.attempt x >>= next) (Emit.attempt x' >>= next') := by
  -- What the part has noted stays noted, however the part ended.
  have hlater (s : σ) : noted (x'.run s).2 <+: noted ((Emit.attempt x' >>= next').run s).2 := by
    rcases h : x'.run s with ⟨r, s'⟩
    rw [run_bind_ok (run_attempt h)]
    cases r with
    | ok a => exact (hok a).grows s'
    | error d => exact (List.prefix_append _ _).trans (hnotes d s')
  refine ⟨fun {s s' b} h => ?_, fun {s s' d} h => ?_, fun s => (hx.grows s).trans (hlater s)⟩
  · rcases hr : x.run s with ⟨r, s₁⟩
    rw [run_bind_ok (run_attempt hr)] at h
    cases r with
    | error d =>
      rw [hstrict] at h
      cases h
    | ok a =>
      obtain ⟨hr', he⟩ := hx.agrees hr
      rw [run_bind_ok (run_attempt hr'), ← he]
      exact (hok a).agrees h
  · rcases hr : x.run s with ⟨r, s₁⟩
    rw [run_bind_ok (run_attempt hr)] at h
    cases r with
    | error d' =>
      rw [hstrict] at h
      cases h
      refine .inr ?_
      rcases hx.notes hr with ⟨s₂, hr', he⟩ | hp
      · rw [run_bind_ok (run_attempt hr'), ← he]
        exact hnotes d s₂
      · exact hp.trans (hlater s)
    | ok a =>
      obtain ⟨hr', he⟩ := hx.agrees hr
      rw [run_bind_ok (run_attempt hr'), ← he]
      exact (hok a).notes h

end Tolerates

end Emit

/-! ## Emissions -/

/-- How a tolerant emission compares with a strict one: it succeeds. If the strict one does, it has
the same result and tolerated nothing; otherwise the fault of the strict one is the first it
tolerated. -/
def Tolerated {α : Type} (errors : α → List Diagnostic) (strict tolerant : Except Diagnostic α) :
    Prop :=
  ∃ r, tolerant = .ok r ∧
    ((strict = .ok r ∧ errors r = []) ∨ ∃ d, strict = .error d ∧ [d] <+: errors r)

namespace Tolerated

variable {α β : Type} {errors : α → List Diagnostic}

/-- The results of two emissions, put into another form. -/
theorem bind_ok {strict tolerant : Except Diagnostic α} (h : Tolerated errors strict tolerant)
    {errors' : β → List Diagnostic} {f : α → β} (hf : ∀ a, errors' (f a) = errors a) :
    Tolerated errors' (strict >>= fun a => .ok (f a)) (tolerant >>= fun a => .ok (f a)) := by
  obtain ⟨r, rfl, ⟨rfl, he⟩ | ⟨d, rfl, hd⟩⟩ := h
  · exact ⟨f r, rfl, .inl ⟨rfl, (hf r).trans he⟩⟩
  · exact ⟨f r, rfl, .inr ⟨d, rfl, (hf r).symm ▸ hd⟩⟩

/-- What two runs of a backend from a state without faults leave behind. `finish` makes the result
of an emission from how its run ended. -/
theorem of_tolerates {σ : Type} {noted : σ → List Diagnostic} {x x' : Emit σ β}
    (h : Emit.Tolerates noted x x') {s : σ} (hs : noted s = [])
    (hok : ∃ b s', x'.run s = (.ok b, s')) (errors : α → List Diagnostic)
    (finish : Except Diagnostic β × σ → Except Diagnostic α) {f : β → σ → α}
    (hf : ∀ b s', errors (f b s') = noted s') (hfinish : ∀ b s', finish (.ok b, s') = .ok (f b s'))
    (hfail : ∀ d s', finish (.error d, s') = .error d) :
    Tolerated errors (finish (x.run s)) (finish (x'.run s)) := by
  obtain ⟨b, s', hr'⟩ := hok
  refine ⟨f b s', by rw [hr', hfinish], ?_⟩
  rcases hr : x.run s with ⟨r, s₁⟩
  cases r with
  | ok a =>
    obtain ⟨ha, hn⟩ := h.agrees hr
    rw [hr'] at ha
    cases ha
    exact .inl ⟨hfinish b s', by rw [hf, hn, hs]⟩
  | error d =>
    refine .inr ⟨d, hfail d s₁, ?_⟩
    rcases h.notes hr with ⟨s₂, hr₂, -⟩ | hp
    · rw [hr'] at hr₂
      cases hr₂
    · rw [hs, hr'] at hp
      rw [hf]
      exact hp

end Tolerated

end UiTemplate
