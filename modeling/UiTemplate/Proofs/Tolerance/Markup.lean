import UiTemplate.Backend.Markup
import UiTemplate.Proofs.Tolerance.Step

/-!
# Markup that tolerates faults

- `Markup.emitAll_tolerates`: nodes are emitted alike by a strict and a tolerant run, up to the first
  fault.
- `Markup.emitAll_ok`: a tolerant run emits nodes whatever they are.
- `Markup.generate_tolerated`: what follows for a template.
-/

namespace UiTemplate

/-- The settings with faults tolerated or not. -/
def MarkupSettings.tolerating (settings : MarkupSettings) (b : Bool) : MarkupSettings :=
  { settings with tolerant := b }

namespace Markup

/-- A step that notes no fault. -/
abbrev Quiet {α : Type} (step : EmitMarkup α) : Prop :=
  Emit.Keeps MarkupState.errors step

/-- How a tolerant step compares with a strict one. -/
abbrev Tolerates {α : Type} (strict tolerant : EmitMarkup α) : Prop :=
  Emit.Tolerates MarkupState.errors strict tolerant

/-! ## Two runs of a part -/

theorem takePending_quiet : Quiet takePending :=
  fun _ => rfl

theorem takeLoopOwner_quiet : Quiet takeLoopOwner :=
  fun _ => rfl

section Parts

variable (settings : MarkupSettings) (path : Path)

theorem elementMarkup_tolerates (info : ElementInfo) (children : List Node)
    {c c' : EmitMarkup (List String)} (hc : Tolerates c c') :
    Tolerates (elementMarkup settings path info children c)
      (elementMarkup settings path info children c') := by
  refine .after (Emit.checkDirectives_keeps _ _) fun _ => .after takeLoopOwner_quiet fun owner =>
    .after takePending_quiet fun pending => .after .get fun s => .after (.ofExcept _) fun own => ?_
  dsimp only
  split
  · exact (Emit.Keeps.pure _).tolerates
  · exact hc.andThen fun _ => .pure _

theorem slotMarkup_tolerates (info : SlotInfo) {c c' : EmitMarkup (List String)}
    (hc : Tolerates c c') :
    Tolerates (slotMarkup settings path info c) (slotMarkup settings path info c') := by
  refine .after (Emit.checkDirectives_keeps _ _) fun _ => ?_
  cases info.resolution with
  | none => exact (Emit.Keeps.throw _).tolerates
  | some r =>
    refine .after takePending_quiet fun pending => .after .get fun s => ?_
    dsimp only
    split
    · exact (Emit.Keeps.pure _).tolerates
    · exact hc.andThen fun _ => .pure _

theorem branchMarkup_tolerates (key : Option Key) (info : BranchInfo) {x x' : EmitMarkup String}
    (h : Tolerates x x') :
    Tolerates (branchMarkup settings key info x) (branchMarkup settings key info x') := by
  unfold branchMarkup inScope
  refine .within (.after (.modify ?_) fun _ => h) ?_ ?_
  · exact fun _ => rfl
  · exact fun _ => rfl
  · exact fun _ _ => rfl

theorem loopMarkup_tolerates (info : LoopInfo) (children : List Node) {x x' : EmitMarkup String}
    (h : Tolerates x x') :
    Tolerates (loopMarkup settings info children x) (loopMarkup settings info children x') := by
  refine .after takePending_quiet fun outer => .after .get fun s => .andThen (.within ?_ ?_ ?_) ?_
  · exact h.andThen fun _ => takePending_quiet.bind fun _ => .pure _
  · exact fun _ => rfl
  · exact fun _ _ => rfl
  · exact fun _ => .pure _

/-! Only how the children of a node are emitted hangs on the tolerance of the settings. -/

theorem boundAttributes_tolerating (b : Bool) (scope : List String) (owner : Bool)
    (bs : List Binding) :
    boundAttributes (settings.tolerating b) scope path owner bs =
      boundAttributes settings scope path owner bs := by
  induction bs with
  | nil => rfl
  | cons binding bs ih =>
    rw [boundAttributes, boundAttributes, ih]
    rfl

theorem elementMarkup_tolerating (b : Bool) (info : ElementInfo) (children : List Node)
    (c : EmitMarkup (List String)) :
    elementMarkup (settings.tolerating b) path info children c =
      elementMarkup settings path info children c := by
  unfold elementMarkup elementAttributes
  simp only [boundAttributes_tolerating]
  rfl

theorem slotMarkup_tolerating (b : Bool) (info : SlotInfo) (c : EmitMarkup (List String)) :
    slotMarkup (settings.tolerating b) path info c = slotMarkup settings path info c := rfl

theorem branchMarkup_tolerating (b : Bool) (key : Option Key) (info : BranchInfo)
    (x : EmitMarkup String) :
    branchMarkup (settings.tolerating b) key info x = branchMarkup settings key info x := rfl

theorem loopMarkup_tolerating (b : Bool) (info : LoopInfo) (children : List Node)
    (x : EmitMarkup String) :
    loopMarkup (settings.tolerating b) info children x = loopMarkup settings info children x := rfl

end Parts

/-! ## Two runs of a template -/

section Nodes

variable (settings : MarkupSettings)

/-- A tolerant run emits nodes whatever they are. -/
theorem emitAll_ok (parent : Path) (index : Nat) (ns : List Node) (s : MarkupState) :
    ∃ markup s', (emitAll (settings.tolerating true) parent index ns).run s = (.ok markup, s') := by
  induction ns generalizing index s with
  | nil =>
    rw [emitAll]
    exact ⟨[], s, rfl⟩
  | cons n ns ih =>
    rw [emitAll]
    rcases h : (emit (settings.tolerating true) (parent.child index) n).run s with ⟨r, s₁⟩
    rw [Emit.run_bind_ok (Emit.run_attempt h)]
    cases r with
    | ok markup =>
      obtain ⟨more, s₂, h₂⟩ := ih (index + 1) s₁
      refine ⟨markup :: more, s₂, ?_⟩
      dsimp only
      rw [Emit.run_bind_ok h₂]
      rfl
    | error d =>
      exact ih (index + 1)
        { s₁ with pending := [], loopOwner := false, errors := s₁.errors ++ [d] }

mutual

theorem emit_tolerates (path : Path) (n : Node) :
    Tolerates (emit (settings.tolerating false) path n)
      (emit (settings.tolerating true) path n) := by
  match n with
  | .element info children =>
    rw [emit, emit, elementMarkup_tolerating, elementMarkup_tolerating]
    exact elementMarkup_tolerates settings path info children (emitAll_tolerates path 0 children)
  | .text value l =>
    rw [emit, emit]
    exact (takePending_quiet.bind fun _ => .pure _).tolerates
  | .interpolation e key l =>
    rw [emit, emit]
    exact (takePending_quiet.bind fun _ => Emit.Keeps.get.bind fun _ => .pure _).tolerates
  | .slot info fallback =>
    rw [emit, emit, slotMarkup_tolerating, slotMarkup_tolerating]
    exact slotMarkup_tolerates settings path info (emitAll_tolerates path 0 fallback)
  | .chain branches key l =>
    rw [emit, emit]
    exact .after takePending_quiet fun _ =>
      (emitBranches_tolerates path 0 key branches).andThen fun _ => .pure _
  | .loop info children =>
    rw [emit, emit, loopMarkup_tolerating, loopMarkup_tolerating]
    exact loopMarkup_tolerates settings info children (emitFirst_tolerates path children)
  | .comment value l =>
    rw [emit, emit]
    exact (Emit.Keeps.pure _).tolerates

theorem emitFirst_tolerates (path : Path) (ns : List Node) :
    Tolerates (emitFirst (settings.tolerating false) path ns)
      (emitFirst (settings.tolerating true) path ns) := by
  match ns with
  | [] =>
    rw [emitFirst, emitFirst]
    exact (Emit.Keeps.pure _).tolerates
  | n :: _ =>
    rw [emitFirst, emitFirst]
    exact emit_tolerates _ n

theorem emitAll_tolerates (parent : Path) (index : Nat) (ns : List Node) :
    Tolerates (emitAll (settings.tolerating false) parent index ns)
      (emitAll (settings.tolerating true) parent index ns) := by
  match ns with
  | [] =>
    rw [emitAll, emitAll]
    exact (Emit.Keeps.pure _).tolerates
  | n :: rest =>
    have hrest := emitAll_tolerates parent (index + 1) rest
    rw [emitAll, emitAll]
    exact (emit_tolerates (parent.child index) n).attempt (fun _ => hrest.andThen fun _ => .pure _)
      (fun _ => rfl) fun d s =>
        hrest.grows { s with pending := [], loopOwner := false, errors := s.errors ++ [d] }

theorem emitBranches_tolerates (parent : Path) (index : Nat) (key : Option Key)
    (bs : List Branch) :
    Tolerates (emitBranches (settings.tolerating false) parent index key bs)
      (emitBranches (settings.tolerating true) parent index key bs) := by
  match bs with
  | [] =>
    rw [emitBranches, emitBranches]
    exact (Emit.Keeps.pure _).tolerates
  | .mk info [] :: rest =>
    rw [emitBranches, emitBranches]
    exact emitBranches_tolerates parent (index + 1) key rest
  | .mk info (n :: _) :: rest =>
    rw [emitBranches, emitBranches, branchMarkup_tolerating, branchMarkup_tolerating]
    exact (branchMarkup_tolerates settings key info (emit_tolerates _ n)).bind fun _ =>
      (emitBranches_tolerates parent (index + 1) key rest).andThen fun _ => .pure _

end

/-- A tolerant run emits every template, and what it emits is that of a strict run which
succeeds. -/
theorem generate_tolerated (nodes : List Node) :
    Tolerated Prod.snd (generate (settings.tolerating false) nodes)
      (generate (settings.tolerating true) nodes) := by
  unfold generate
  exact .of_tolerates (emitAll_tolerates settings [] 0 nodes) rfl (emitAll_ok settings [] 0 nodes {})
    Prod.snd (fun
      | (.ok markup, s) => .ok (String.join markup, s.errors)
      | (.error d, _) => .error d)
    (f := fun markup s => (String.join markup, s.errors)) (fun _ _ => rfl) (fun _ _ => rfl)
    fun _ _ => rfl

end Nodes

end Markup

end UiTemplate
