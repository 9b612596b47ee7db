import UiTemplate.Backend.Emit
import UiTemplate.Proofs.Template.Tree

/-!
# How steps of a backend end

`Emit.Ends I E strict p step` says how a step ends: it keeps the invariant `I` of the state, it fails
only with what `E` allows, and where faults are not tolerated (`strict`) it succeeds exactly if `p`
holds, in whatever state it starts. There is one rule for each way to build a step (`bind`,
`within`, `attempt`), so a backend is judged by following its code.

- `Emit.Ends.bind`: steps in sequence succeed if all of them do.
- `Emit.checkDirectives_ends`: directives pass the check if all of them are supported.
- `Node.IsSupported`: what a family can emit.
-/

namespace UiTemplate

/-- How a step ends: what it keeps of the state, what it may fail with, and, where `strict` holds,
when it succeeds. -/
structure Emit.Ends {σ α : Type} (I : σ → Prop) (E : Diagnostic → Prop) (strict p : Prop)
    (step : Emit σ α) : Prop where
  keeps : ∀ s, I s → I (step.run s).2
  fails : ∀ s d, (step.run s).1 = .error d → E d
  succeeds : strict → ∀ s, (∃ a, (step.run s).1 = .ok a) ↔ p

namespace Emit

variable {σ α β : Type} {I : σ → Prop} {E : Diagnostic → Prop} {strict p q : Prop}

theorem run_bind_ok {x : Emit σ α} {f : α → Emit σ β} {s s' : σ} {a : α}
    (h : x.run s = (.ok a, s')) : (x >>= f).run s = (f a).run s' := by
  rw [ExceptT.run_bind]
  show StateT.bind x.run _ s = _
  unfold StateT.bind
  rw [h]
  rfl

theorem run_bind_error {x : Emit σ α} {f : α → Emit σ β} {s s' : σ} {d : Diagnostic}
    (h : x.run s = (.error d, s')) : (x >>= f).run s = (.error d, s') := by
  rw [ExceptT.run_bind]
  show StateT.bind x.run _ s = _
  unfold StateT.bind
  rw [h]
  rfl

namespace Ends

theorem pure (a : α) : Ends I E strict True (pure a : Emit σ α) :=
  ⟨fun _ h => h, fun _ _ h => (nomatch h), fun _ _ => ⟨fun _ => trivial, fun _ => ⟨a, rfl⟩⟩⟩

theorem throw {d : Diagnostic} (hd : E d) : Ends I E strict False (throw d : Emit σ α) := by
  refine ⟨fun _ h => h, fun _ d' h => ?_, fun _ _ => ⟨fun ⟨a, h⟩ => ?_, False.elim⟩⟩
  · cases h
    exact hd
  · cases h

/-- Steps in sequence succeed if all of them do. -/
theorem bind {x : Emit σ α} {f : α → Emit σ β} (hx : Ends I E strict p x)
    (hf : ∀ a, Ends I E strict q (f a)) : Ends I E strict (p ∧ q) (x >>= f) := by
  refine ⟨fun s hs => ?_, fun s d hd => ?_, fun st s => ?_⟩
  · have hk := hx.keeps s hs
    rcases h : x.run s with ⟨r, s'⟩
    rw [h] at hk
    cases r with
    | ok a =>
      rw [run_bind_ok h]
      exact (hf a).keeps s' hk
    | error d =>
      rw [run_bind_error h]
      exact hk
  · rcases h : x.run s with ⟨r, s'⟩
    cases r with
    | ok a =>
      rw [run_bind_ok h] at hd
      exact (hf a).fails s' d hd
    | error d' =>
      rw [run_bind_error h] at hd
      cases hd
      exact hx.fails s d (by rw [h])
  · have hp := hx.succeeds st s
    rcases h : x.run s with ⟨r, s'⟩
    rw [h] at hp
    cases r with
    | ok a =>
      rw [run_bind_ok h, (hf a).succeeds st s']
      exact ⟨fun hq => ⟨hp.mp ⟨a, rfl⟩, hq⟩, fun hpq => hpq.2⟩
    | error d =>
      rw [run_bind_error h]
      refine ⟨fun ⟨b, hb⟩ => (nomatch hb), fun hpq => ?_⟩
      obtain ⟨a, ha⟩ := hp.mpr hpq.1
      cases ha

theorem of_iff {step : Emit σ α} (h : Ends I E strict p step) (hpq : strict → (p ↔ q)) :
    Ends I E strict q step :=
  ⟨h.keeps, h.fails, fun st s => (h.succeeds st s).trans (hpq st)⟩

theorem modify {f : σ → σ} (hf : ∀ s, I s → I (f s)) :
    Ends I E strict True (modify f : Emit σ Unit) :=
  ⟨hf, fun _ _ h => (nomatch h), fun _ _ => ⟨fun _ => trivial, fun _ => ⟨(), rfl⟩⟩⟩

theorem get : Ends I E strict True (get : Emit σ σ) :=
  ⟨fun _ h => h, fun _ _ h => (nomatch h), fun _ s => ⟨fun _ => trivial, fun _ => ⟨s, rfl⟩⟩⟩

/-- Then a step that cannot fail. -/
theorem andThen {x : Emit σ α} {f : α → Emit σ β} (hx : Ends I E strict p x)
    (hf : ∀ a, Ends I E strict True (f a)) : Ends I E strict p (x >>= f) :=
  (hx.bind hf).of_iff fun _ => and_iff_left trivial

/-- After a step that cannot fail. -/
theorem after {x : Emit σ α} {f : α → Emit σ β} (hx : Ends I E strict True x)
    (hf : ∀ a, Ends I E strict p (f a)) : Ends I E strict p (x >>= f) :=
  (hx.bind hf).of_iff fun _ => and_iff_right trivial

theorem within {enter : σ → σ} {leave : σ → σ → σ} {step : Emit σ α}
    (h : Ends I E strict p step) (he : ∀ s, I s → I (enter s))
    (hl : ∀ s s', I s' → I (leave s s')) : Ends I E strict p (Emit.within enter leave step) :=
  ⟨fun s hs => hl s _ (h.keeps _ (he s hs)), fun s d hd => h.fails (enter s) d hd,
    fun st s => h.succeeds st (enter s)⟩

/-- A result that is computed without the state. -/
theorem ofExcept {x : Except Diagnostic α} (hd : ∀ d, x = .error d → E d)
    (hp : (∃ a, x = .ok a) ↔ p) : Ends I E strict p (ExceptT.mk (Pure.pure x) : Emit σ α) :=
  ⟨fun _ h => h, fun _ d h => hd d h, fun _ _ => hp⟩

/-- What follows a step whose failure is a result. -/
theorem attempt {step : Emit σ α} {next : Except Diagnostic α → Emit σ β}
    (hs : Ends I E strict p step) (ho : ∀ a, Ends I E strict q (next (.ok a)))
    (he : ∀ d, E d → Ends I E strict False (next (.error d))) :
    Ends I E strict (p ∧ q) (Emit.attempt step >>= next) := by
  have hrun (s : σ) : (Emit.attempt step).run s = (.ok (step.run s).1, (step.run s).2) := rfl
  refine ⟨fun s h => ?_, fun s d h => ?_, fun st s => ?_⟩
  · have hk := hs.keeps s h
    rw [run_bind_ok (hrun s)]
    cases hr : (step.run s).1 with
    | ok a => exact (ho a).keeps _ hk
    | error d => exact (he d (hs.fails s d hr)).keeps _ hk
  · rw [run_bind_ok (hrun s)] at h
    cases hr : (step.run s).1 with
    | ok a =>
      rw [hr] at h
      exact (ho a).fails _ d h
    | error d' =>
      rw [hr] at h
      exact (he d' (hs.fails s d' hr)).fails _ d h
  · have hp := hs.succeeds st s
    rw [run_bind_ok (hrun s)]
    cases hr : (step.run s).1 with
    | ok a =>
      rw [hr] at hp
      exact ((ho a).succeeds st _).trans ⟨fun hq => ⟨hp.mp ⟨a, rfl⟩, hq⟩, And.right⟩
    | error d =>
      rw [hr] at hp
      refine ((he d (hs.fails s d hr)).succeeds st _).trans ⟨False.elim, fun hpq => ?_⟩
      obtain ⟨a, h⟩ := hp.mpr hpq.1
      cases h

/-- A fault that is noted where faults are tolerated, and then what follows. -/
theorem tolerate {tolerant : Bool} (hs : strict → tolerant = false) {d : Diagnostic}
    {note : Emit σ Unit} {rest : Emit σ β} (hd : E d) (hn : Ends I E strict True note)
    (hr : Ends I E strict p rest) :
    Ends I E strict False (if tolerant then note >>= fun _ => rest else MonadExcept.throw d) := by
  cases tolerant with
  | true => exact (hn.after fun _ => hr).of_iff fun st => nomatch hs st
  | false => exact throw hd

/-- What a step keeps and may fail with, whenever it succeeds. -/
theorem weaken {step : Emit σ α} (h : Ends I E False p step) : Ends I E False q step :=
  h.of_iff False.elim

end Ends

end Emit

/-- A fault other than a slot without outlet. -/
def Diagnostic.OfResolved (d : Diagnostic) : Prop :=
  d.fault ≠ .unresolvedSlot

/-- How an emission ends, whose result has the tolerated faults `errors`. It meets no slot without
outlet, and where `strict` holds it succeeds exactly if `p` does. -/
structure Emitted {α : Type} (errors : α → List Diagnostic) (strict p : Prop)
    (result : Except Diagnostic α) : Prop where
  isOk_iff : strict → ((∃ r, result = .ok r) ↔ p)
  error : ∀ d, result = .error d → d.OfResolved
  noted : ∀ r, result = .ok r → ∀ d ∈ errors r, d.OfResolved

namespace Emitted

variable {α β : Type} {errors : α → List Diagnostic} {strict p q : Prop}

theorem ok {r : α} (hp : strict → p) (h : ∀ d ∈ errors r, d.OfResolved) :
    Emitted errors strict p (.ok r) := by
  refine ⟨fun st => ⟨fun _ => hp st, fun _ => ⟨r, rfl⟩⟩, fun d hd => (nomatch hd), ?_⟩
  rintro r' ⟨⟩
  exact h

theorem error_of {d : Diagnostic} (hp : strict → ¬p) (h : d.OfResolved) :
    Emitted errors strict p (.error d) := by
  refine ⟨fun st => ⟨fun ⟨r, hr⟩ => (nomatch hr), fun hq => absurd hq (hp st)⟩, ?_,
    fun r hr => (nomatch hr)⟩
  rintro d' ⟨⟩
  exact h

/-- The result of an emission, put into another form. -/
theorem bind_ok {result : Except Diagnostic α} (h : Emitted errors strict p result)
    {errors' : β → List Diagnostic} {f : α → β} (hf : ∀ a, errors' (f a) = errors a) :
    Emitted errors' strict p (result >>= fun a => .ok (f a)) := by
  cases result with
  | ok a => exact .ok (fun st => (h.isOk_iff st).mp ⟨a, rfl⟩) (hf a ▸ h.noted a rfl)
  | error d =>
    refine .error_of (fun st hp => ?_) (h.error d rfl)
    obtain ⟨a, ha⟩ := (h.isOk_iff st).mpr hp
    cases ha

theorem of_iff {result : Except Diagnostic α} (h : Emitted errors strict p result) (hpq : p ↔ q) :
    Emitted errors strict q result :=
  ⟨fun st => (h.isOk_iff st).trans hpq, h.error, h.noted⟩

/-- What a step leaves behind. -/
theorem of_ends {σ : Type} {noted : σ → List Diagnostic} {step : Emit σ β} {f : β → σ → α}
    (h : Emit.Ends (fun s => ∀ d ∈ noted s, d.OfResolved) Diagnostic.OfResolved strict p step)
    {s : σ} (hs : noted s = []) (hf : ∀ b s', errors (f b s') = noted s')
    {result : Except Diagnostic α} (hok : ∀ b s', step.run s = (.ok b, s') → result = .ok (f b s'))
    (herror : ∀ d s', step.run s = (.error d, s') → result = .error d) :
    Emitted errors strict p result := by
  have hk := h.keeps s (by rw [hs]; exact fun d hd => absurd hd List.not_mem_nil)
  have hp := fun st => h.succeeds st s
  rcases hr : step.run s with ⟨r, s'⟩
  rw [hr] at hk hp
  cases r with
  | ok b =>
    rw [hok b s' hr]
    exact .ok (fun st => (hp st).mp ⟨b, rfl⟩) (hf b s' ▸ hk)
  | error d =>
    rw [herror d s' hr]
    refine .error_of (fun st hn => ?_) (h.fails s d (by rw [hr]))
    obtain ⟨b, hb⟩ := (hp st).mpr hn
    cases hb

end Emitted

/-! ## What can be emitted -/

/-- Whether a directive is none that can be emitted. -/
def Directive.isUnsupported : Directive → Bool
  | .unsupported .. => true
  | _ => false

/-- A family can emit a node, the nodes below it aside: all directives are supported. Calls cannot
give an element both bound content and children. Markup has no bound content, and its handlers are
names. -/
def Node.IsSupported (family : Family) : Node → Prop
  | .element info children =>
    (∀ d ∈ info.directives, d.isUnsupported = false) ∧
      match family with
      | .calls => ¬((∃ b ∈ bindings info.directives, b.kind = .html) ∧ children ≠ [])
      | .markup => ∀ b ∈ bindings info.directives,
          b.kind ≠ .html ∧ (b.kind = .event → ∃ name, b.expression.tree = .ident name)
  | .slot info _ => ∀ d ∈ info.directives, d.isUnsupported = false
  | _ => True

theorem Emit.checkDirectives_ends {σ : Type} {I : σ → Prop} {E : Diagnostic → Prop} {strict : Prop}
    {ds : List Directive} {path : Path}
    (hE : ∀ name value location, Directive.unsupported name value location ∈ ds →
      E ⟨.unsupportedDirective name, path, location⟩) :
    Emit.Ends I E strict (∀ d ∈ ds, d.isUnsupported = false)
      (Emit.checkDirectives ds path : Emit σ Unit) := by
  unfold Emit.checkDirectives
  split
  · rename_i d hd
    obtain ⟨directive, hm, hf⟩ := List.exists_of_findSome?_eq_some hd
    cases directive with
    | unsupported name value location =>
      cases hf
      refine (Emit.Ends.throw (hE name value location hm)).of_iff fun _ =>
        ⟨False.elim, fun h => ?_⟩
      exact absurd (h _ hm) (by simp [Directive.isUnsupported])
    | structural s l => cases hf
    | binding b => cases hf
  · rename_i hn
    refine (Emit.Ends.pure ()).of_iff fun _ => ⟨fun _ d hd => ?_, fun _ => trivial⟩
    have hf := List.findSome?_eq_none_iff.mp hn d hd
    cases d with
    | unsupported name value location => cases hf
    | structural s l => rfl
    | binding b => rfl

theorem Node.isSupported_of_eq_nil {family : Family} {ns : List Node} (h : ns = []) :
    ∀ m ∈ Node.withinAll ns, m.IsSupported family := by
  rw [h]
  exact fun m hm => absurd hm List.not_mem_nil

/-! ## Keys and outlets do not matter -/

theorem Directive.isUnsupported_strip (ds : List Directive) :
    (∀ d ∈ ds.map Directive.strip, d.isUnsupported = false) ↔
      ∀ d ∈ ds, d.isUnsupported = false := by
  rw [List.forall_mem_map]
  refine forall₂_congr fun d _ => ?_
  cases d <;> rfl

theorem Node.isSupported_strip (family : Family) (n : Node) :
    (n.strip SlotInfo.plain).IsSupported family ↔ n.IsSupported family := by
  cases n with
  | element info children =>
    simp only [Node.strip, Node.IsSupported]
    refine and_congr (Directive.isUnsupported_strip info.directives) ?_
    cases family with
    | calls => simp [bindings_strip, Node.stripAll_eq_nil]
    | markup => simp [bindings_strip]
  | slot info fallback => exact Iff.rfl
  | _ => exact Iff.rfl

end UiTemplate
