/-!
# Computations that may fail

- `Except.bind_eq_ok`, `Except.toOption_eq_some`: what a computation that gives a result is made of.
- `Except.map_eq_map`: two computations with results that are the same under a function.
- `mapM_eq_mapM`: two passes over a list that agree at every item.
- `Except.Agree`: two computations with the same failure or with results in a relation.
-/

namespace UiTemplate

/-- What a computation that gives a result is made of. -/
theorem Except.bind_eq_ok {ε α β : Type} {x : Except ε α} {f : α → Except ε β} {b : β} :
    x >>= f = .ok b ↔ ∃ a, x = .ok a ∧ f a = .ok b := by
  constructor
  · intro h
    cases x with
    | error e => cases h
    | ok a => exact ⟨a, rfl, h⟩
  · rintro ⟨a, rfl, h⟩
    exact h

theorem Except.bind_eq_error {ε α β : Type} {x : Except ε α} {f : α → Except ε β} {e : ε} :
    x >>= f = .error e ↔ x = .error e ∨ ∃ a, x = .ok a ∧ f a = .error e := by
  constructor
  · intro h
    cases x with
    | error e' =>
      cases h
      exact .inl rfl
    | ok a => exact .inr ⟨a, rfl, h⟩
  · rintro (rfl | ⟨a, rfl, h⟩)
    · rfl
    · exact h

theorem Except.toOption_eq_some {ε α : Type} {x : Except ε α} {a : α} :
    x.toOption = some a ↔ x = .ok a := by
  cases x with
  | error e => exact ⟨nofun, nofun⟩
  | ok b => exact ⟨fun h => congrArg Except.ok (Option.some.inj h), fun h => by cases h; rfl⟩

/-- What a computation is made of whose result starts with what its first part gives. -/
theorem Except.cons_eq_ok {ε α β : Type} {x : Except ε α} {y : Except ε (List β)} {f : α → β}
    {bs : List β} (h : (x >>= fun a => y >>= fun more => .ok (f a :: more)) = .ok bs) :
    ∃ a more, x = .ok a ∧ y = .ok more ∧ bs = f a :: more := by
  rw [Except.bind_eq_ok] at h
  obtain ⟨a, hx, h⟩ := h
  rw [Except.bind_eq_ok] at h
  obtain ⟨more, hy, h⟩ := h
  exact ⟨a, more, hx, hy, (Except.ok.inj h).symm⟩

/-- Two computations whose results are the same under a function fail alike or succeed alike. -/
theorem Except.map_eq_map {ε α β γ : Type} {x : Except ε α} {y : Except ε β} {f : α → γ} {g : β → γ}
    (h : x.map f = y.map g) :
    (∃ e, x = .error e ∧ y = .error e) ∨ ∃ a b, x = .ok a ∧ y = .ok b ∧ f a = g b := by
  cases x with
  | error e =>
    cases y with
    | error e' =>
      cases h
      exact .inl ⟨e, rfl, rfl⟩
    | ok b => cases h
  | ok a =>
    cases y with
    | error e => cases h
    | ok b => exact .inr ⟨a, b, rfl, rfl, Except.ok.inj h⟩

/-- Two passes over a list and over the results for it agree if they agree at every item. -/
theorem mapM_eq_mapM {ε α β γ : Type} {f : α → Except ε β} {g : α → Except ε γ} {k : β → Option γ}
    (h : ∀ a b, f a = .ok b → ∃ c, g a = .ok c ∧ k b = some c) {as : List α} {bs : List β}
    (hf : as.mapM f = .ok bs) : ∃ cs, as.mapM g = .ok cs ∧ bs.mapM k = some cs := by
  induction as generalizing bs with
  | nil =>
    cases hf
    exact ⟨[], rfl, rfl⟩
  | cons a as ih =>
    rw [List.mapM_cons, Except.bind_eq_ok] at hf
    obtain ⟨b, hb, hf⟩ := hf
    rw [Except.bind_eq_ok] at hf
    obtain ⟨bs, hbs, hf⟩ := hf
    cases hf
    obtain ⟨c, hc, hk⟩ := h a b hb
    obtain ⟨cs, hcs, hks⟩ := ih hbs
    refine ⟨c :: cs, ?_, ?_⟩
    · rw [List.mapM_cons, hc, hcs]
      rfl
    · rw [List.mapM_cons, hk, hks]
      rfl

/-- Two computations fail with the same failure, or both give results, which are related. -/
inductive Except.Agree {ε α β : Type} (R : α → β → Prop) : Except ε α → Except ε β → Prop where
  | error (e : ε) : Except.Agree R (.error e) (.error e)
  | ok {a : α} {b : β} : R a b → Except.Agree R (.ok a) (.ok b)

namespace Except.Agree

variable {ε α β γ δ : Type} {R : α → β → Prop} {S : γ → δ → Prop}

theorem bind {x : Except ε α} {y : Except ε β} {f : α → Except ε γ} {g : β → Except ε δ}
    (hx : Except.Agree R x y) (hf : ∀ a b, R a b → Except.Agree S (f a) (g b)) :
    Except.Agree S (x >>= f) (y >>= g) := by
  cases hx with
  | error e => exact .error e
  | ok h => exact hf _ _ h

theorem imp {T : α → β → Prop} {x : Except ε α} {y : Except ε β} (hx : Except.Agree R x y)
    (h : ∀ a b, R a b → T a b) : Except.Agree T x y := by
  cases hx with
  | error e => exact .error e
  | ok hr => exact .ok (h _ _ hr)

/-- After one and the same computation. -/
theorem after {x : Except ε α} {f : α → Except ε γ} {g : α → Except ε δ}
    (hf : ∀ a, Except.Agree S (f a) (g a)) : Except.Agree S (x >>= f) (x >>= g) := by
  cases x with
  | error e => exact .error e
  | ok a => exact hf a

end Except.Agree

end UiTemplate
