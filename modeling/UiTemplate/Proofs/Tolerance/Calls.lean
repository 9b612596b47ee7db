import UiTemplate.Backend.Calls
import UiTemplate.Proofs.Tolerance.Step

/-!
# Calls that tolerate faults

- `Calls.emitAll_tolerates`: nodes are emitted alike by a strict and a tolerant run, up to the first
  fault.
- `Calls.emitAll_ok`: a tolerant run emits nodes whatever they are.
- `Calls.generate_tolerated`: what follows for a template.
-/

namespace UiTemplate

/-- The settings with faults tolerated or not. -/
def CallSettings.tolerating (settings : CallSettings) (b : Bool) : CallSettings :=
  { settings with tolerant := b }

namespace Calls

/-- A step that notes no fault. -/
abbrev Quiet {α : Type} (step : EmitCall α) : Prop :=
  Emit.Keeps CallState.errors step

/-- How a tolerant step compares with a strict one. -/
abbrev Tolerates {α : Type} (strict tolerant : EmitCall α) : Prop :=
  Emit.Tolerates CallState.errors strict tolerant

/-! ## Steps that only add to the unit -/

section Keeps

variable {γ : Type} {view : CallState → γ} (hv : ∀ s unit, view { s with unit } = view s)
include hv

/-- What only adds to the unit keeps what a view sees apart from the unit. -/
theorem imports_keeps (name : String) : Emit.Keeps view (imports name) :=
  .modify fun s => hv s _

theorem uses_keeps (h : Helper) : Emit.Keeps view (uses h) :=
  .modify fun s => hv s _

theorem call_keeps (callee : String) (args : List (Option String)) :
    Emit.Keeps view (call callee args) :=
  (imports_keeps hv callee).bind fun _ => .pure _

theorem fragment_keeps : Emit.Keeps view fragment :=
  (imports_keeps hv _).bind fun _ => .pure _

theorem fragmentCall_keeps (children : String) (flag : PatchFlag) :
    Emit.Keeps view (fragmentCall children flag) :=
  (fragment_keeps hv).bind fun _ => call_keeps hv _ _

theorem declare_keeps (code : String) : Emit.Keeps view (declare code) := by
  refine Emit.Keeps.get.bind fun _ => (Emit.Keeps.modify ?_).bind fun _ => .pure _
  exact fun s => hv s _

theorem constructLoop_keeps (source : String) (info : LoopInfo) (child : String) (keyed : Bool) :
    Emit.Keeps view (constructLoop source info child keyed) :=
  (uses_keeps hv _).bind fun _ => fragmentCall_keeps hv _ _

theorem conditional_keeps (branches : List (Option String × String)) :
    Emit.Keeps view (conditional branches) := by
  unfold conditional
  dsimp only
  split
  · exact .pure _
  · exact (call_keeps hv _ _).bind fun _ => .pure _

variable (settings : CallSettings)

theorem display_keeps (e : Expression) (key : Option Key) :
    Emit.Keeps view (display settings e key) := by
  refine (uses_keeps hv _).bind fun _ => Emit.Keeps.get.bind fun s => ?_
  split
  · exact .pure _
  · exact .pure _

/-- A component is noted in the unit alone. -/
theorem component_keeps (tag : String) : Emit.Keeps view (component settings tag) := by
  refine Emit.Keeps.get.bind fun s => ?_
  split
  · exact .pure _
  · have rest (c : ComponentRef) : Emit.Keeps view (do
        modify fun s => { s with unit := { s.unit with components := s.unit.components ++ [c] } }
        return c.variableName : EmitCall String) := by
      refine (Emit.Keeps.modify ?_).bind fun _ => .pure _
      exact fun s => hv s _
    dsimp only
    split
    · exact (imports_keeps hv _).bind fun _ => rest _
    · exact (imports_keeps hv _).bind fun _ => rest _
    · exact rest _

/-- Text notes the helper that displays in the unit alone. -/
theorem textParts_keeps (ns : List Node) : Emit.Keeps view (textParts settings ns) := by
  induction ns with
  | nil => exact .pure _
  | cons n ns ih =>
    cases n with
    | interpolation e key l =>
      exact (display_keeps hv settings e key).bind fun _ => ih.bind fun _ => .pure _
    | text value l => exact ih.bind fun _ => .pure _
    | _ => exact ih

/-- So does the call that makes an element, with what it imports. -/
theorem constructElement_keeps (info : ElementInfo) (props : ElementProps)
    (children : Option String) (flag : PatchFlag) (hoisted : Bool) :
    Emit.Keeps view (constructElement settings info props children flag hoisted) := by
  unfold constructElement
  cases info.kind with
  | native => exact (Emit.Keeps.pure _).bind fun _ => call_keeps hv _ _
  | component =>
    exact (component_keeps hv settings _).bind fun _ => (Emit.Keeps.pure _).bind fun _ =>
      call_keeps hv _ _
  | fragment =>
    exact (fragment_keeps hv).bind fun _ => (Emit.Keeps.pure _).bind fun _ => call_keeps hv _ _

omit hv in
theorem outletOf_keeps (info : SlotInfo) (path : Path) :
    Emit.Keeps view (outletOf settings info path) := by
  unfold outletOf
  split
  · exact .pure _
  · exact .throw _

end Keeps

/-- The faults noted so far are no part of the unit. -/
theorem errors_unit (s : CallState) (unit : RenderUnit) :
    CallState.errors { s with unit } = CallState.errors s := rfl

/-! ## Two runs of a part -/

section Parts

variable {α : Type} {x x' : EmitCall α}

/-- Names that are bound around two runs do not tell them apart. -/
theorem withLocals_tolerates (names : List String) (h : Tolerates x x') :
    Tolerates (withLocals names x) (withLocals names x') :=
  h.within (fun _ => rfl) fun _ _ => rfl

theorem deeper_tolerates (h : Tolerates x x') : Tolerates (deeper x) (deeper x') :=
  h.within (fun _ => rfl) fun _ _ => rfl

theorem aside_tolerates (h : Tolerates x x') : Tolerates (aside x) (aside x') :=
  h.within (fun _ => rfl) fun _ _ => rfl

variable (settings : CallSettings) (path : Path)

/-- Runs for an element compare as those for its children do. -/
theorem elementCode_tolerates (info : ElementInfo) (children : List Node)
    {c c' : EmitCall (List String)} (hoisted : Bool) (hc : Tolerates c c') :
    Tolerates (elementCode settings path info children c hoisted)
      (elementCode settings path info children c' hoisted) := by
  unfold elementCode
  by_cases hh : (hasHtml info && !children.isEmpty) = true
  · rw [if_pos hh, if_pos hh]
    exact (Emit.Keeps.throw _).tolerates
  · rw [if_neg hh, if_neg hh]
    refine .after .get fun s => ?_
    dsimp only
    have construct (items : Option String) (flag : PatchFlag) :
        Quiet (constructElement settings info (elementProps settings.platform s.locals info) items
          flag hoisted) :=
      constructElement_keeps errors_unit settings _ _ _ _ _
    cases info.kind with
    | native =>
      dsimp only
      split
      · exact .after (textParts_keeps errors_unit settings children) fun _ => (construct _ _).tolerates
      · split
        · exact (construct _ _).tolerates
        · exact (deeper_tolerates hc).andThen fun _ => construct _ _
    | component =>
      dsimp only
      split
      · exact (construct _ _).tolerates
      · exact (deeper_tolerates hc).andThen fun _ => construct _ _
    | fragment => exact (deeper_tolerates hc).andThen fun _ => construct _ _

/-- So they do where a static element is hoisted. -/
theorem elementOrHoisted_tolerates (info : ElementInfo) (children : List Node)
    {c c' : EmitCall (List String)} (hc : Tolerates c c') :
    Tolerates (elementOrHoisted settings path info children c)
      (elementOrHoisted settings path info children c') := by
  refine .after (Emit.checkDirectives_keeps _ _) fun _ => .after .get fun s => ?_
  split
  · exact (aside_tolerates (elementCode_tolerates settings path info children true hc)).andThen
      fun _ => declare_keeps errors_unit _
  · exact elementCode_tolerates settings path info children false hc

/-- Runs for a slot compare as those for its fallback do. -/
theorem slotCode_tolerates (info : SlotInfo) (count : Nat) {f f' : EmitCall String}
    {c c' : EmitCall (List String)} (hf : Tolerates f f') (hc : Tolerates c c') :
    Tolerates (slotCode settings path info count f c) (slotCode settings path info count f' c') := by
  refine .after (Emit.checkDirectives_keeps _ _) fun _ =>
    .after (outletOf_keeps settings info path) fun outlet => .after (uses_keeps errors_unit _) fun _ =>
      .after .get fun s => ?_
  dsimp only
  split
  · exact (Emit.Keeps.pure _).tolerates
  · split
    · exact hf.andThen fun _ => .pure _
    · exact (deeper_tolerates hc).andThen fun _ => (fragmentCall_keeps errors_unit _ _).bind fun _ => .pure _

/-! Only how the children of a node are emitted hangs on the tolerance of the settings. -/

theorem display_tolerating (b : Bool) (e : Expression) (key : Option Key) :
    display (settings.tolerating b) e key = display settings e key := rfl

/-- Text is the same in all settings of one context. -/
theorem textParts_congr {settings settings' : CallSettings}
    (hc : settings'.context = settings.context) (ns : List Node) :
    textParts settings' ns = textParts settings ns := by
  induction ns with
  | nil => rfl
  | cons n ns ih =>
    cases n with
    | interpolation e key l => rw [textParts, textParts, ih, display, display, hc]
    | text value l => rw [textParts, textParts, ih]
    | _ => exact ih

/-- The code of an element hangs on the platform, the bound values and the components alone. -/
theorem elementCode_congr (settings settings' : CallSettings)
    (hp : settings'.platform = settings.platform) (hc : settings'.context = settings.context)
    (hr : settings'.resolver = settings.resolver) (info : ElementInfo) (children : List Node)
    (c : EmitCall (List String)) (hoisted : Bool) :
    elementCode settings' path info children c hoisted =
      elementCode settings path info children c hoisted := by
  have hconstruct (props : ElementProps) (items : Option String) (flag : PatchFlag) :
      constructElement settings' info props items flag hoisted =
        constructElement settings info props items flag hoisted := by
    rw [constructElement, constructElement, component, component, hr]
  unfold elementCode
  simp only [textParts_congr hc, hconstruct, hp]

/-- Only what is passed on as the run for the children can tolerate faults. -/
theorem elementCode_tolerating (b : Bool) (info : ElementInfo) (children : List Node)
    (c : EmitCall (List String)) (hoisted : Bool) :
    elementCode (settings.tolerating b) path info children c hoisted =
      elementCode settings path info children c hoisted :=
  elementCode_congr path settings (settings.tolerating b) rfl rfl rfl info children c hoisted

theorem elementOrHoisted_tolerating (b : Bool) (info : ElementInfo) (children : List Node)
    (c : EmitCall (List String)) :
    elementOrHoisted (settings.tolerating b) path info children c =
      elementOrHoisted settings path info children c := by
  unfold elementOrHoisted
  simp only [elementCode_tolerating]
  rfl

theorem slotCode_tolerating (b : Bool) (info : SlotInfo) (count : Nat) (f : EmitCall String)
    (c : EmitCall (List String)) :
    slotCode (settings.tolerating b) path info count f c = slotCode settings path info count f c :=
  rfl

end Parts

/-! ## Two runs of a template -/

section Nodes

variable (settings : CallSettings)

/-- A tolerant run emits nodes whatever they are. -/
theorem emitAll_ok (parent : Path) (index : Nat) (ns : List Node) (s : CallState) :
    ∃ codes s', (emitAll (settings.tolerating true) parent index ns).run s =
      (.ok codes, s') := by
  induction ns generalizing index s with
  | nil =>
    rw [emitAll]
    exact ⟨[], s, rfl⟩
  | cons n ns ih =>
    rw [emitAll]
    rcases h : (emit (settings.tolerating true) (parent.child index) n).run s with ⟨r, s₁⟩
    rw [Emit.run_bind_ok (Emit.run_attempt h)]
    cases r with
    | ok code =>
      obtain ⟨codes, s₂, h₂⟩ := ih (index + 1) s₁
      refine ⟨code :: codes, s₂, ?_⟩
      dsimp only
      rw [Emit.run_bind_ok h₂]
      rfl
    | error d =>
      exact ih (index + 1) { s₁ with errors := s₁.errors ++ [d] }

mutual

/-- A strict and a tolerant run for one node are alike up to the first fault. -/
theorem emit_tolerates (path : Path) (n : Node) :
    Tolerates (emit (settings.tolerating false) path n)
      (emit (settings.tolerating true) path n) := by
  match n with
  | .element info children =>
    rw [emit, emit, elementOrHoisted_tolerating, elementOrHoisted_tolerating]
    exact elementOrHoisted_tolerates settings path info children (emitAll_tolerates path 0 children)
  | .text value l =>
    rw [emit, emit]
    exact (call_keeps errors_unit _ _).tolerates
  | .interpolation e key l =>
    rw [emit, emit, display_tolerating, display_tolerating]
    exact ((display_keeps errors_unit settings e key).bind fun _ => call_keeps errors_unit _ _).tolerates
  | .slot info fallback =>
    rw [emit, emit, slotCode_tolerating, slotCode_tolerating]
    exact slotCode_tolerates settings path info fallback.length (emitFirst_tolerates path fallback)
      (emitAll_tolerates path 0 fallback)
  | .chain branches key l =>
    rw [emit, emit]
    exact (emitBranches_tolerates path 0 branches).andThen fun _ => conditional_keeps errors_unit _
  | .loop info children =>
    rw [emit, emit]
    exact .after .get fun s => (withLocals_tolerates _ (emitFirst_tolerates path children)).andThen
      fun _ => constructLoop_keeps errors_unit _ _ _ _
  | .comment value l =>
    rw [emit, emit]
    exact (call_keeps errors_unit _ _).tolerates

/-- So are the runs for a single child. -/
theorem emitFirst_tolerates (path : Path) (ns : List Node) :
    Tolerates (emitFirst (settings.tolerating false) path ns)
      (emitFirst (settings.tolerating true) path ns) := by
  match ns with
  | [] =>
    rw [emitFirst, emitFirst]
    exact (Emit.Keeps.pure _).tolerates
  | n :: _ =>
    rw [emitFirst, emitFirst]
    exact emit_tolerates _ n

theorem emitAll_tolerates (parent : Path) (index : Nat) (ns : List Node) :
    Tolerates (emitAll (settings.tolerating false) parent index ns)
      (emitAll (settings.tolerating true) parent index ns) := by
  match ns with
  | [] =>
    rw [emitAll, emitAll]
    exact (Emit.Keeps.pure _).tolerates
  | n :: rest =>
    have hrest := emitAll_tolerates parent (index + 1) rest
    rw [emitAll, emitAll]
    exact (emit_tolerates (parent.child index) n).attempt (fun _ => hrest.andThen fun _ => .pure _)
      (fun _ => rfl) fun d s => hrest.grows { s with errors := s.errors ++ [d] }

/-- So are those for the branches of a chain. -/
theorem emitBranches_tolerates (parent : Path) (index : Nat) (bs : List Branch) :
    Tolerates (emitBranches (settings.tolerating false) parent index bs)
      (emitBranches (settings.tolerating true) parent index bs) := by
  match bs with
  | [] =>
    rw [emitBranches, emitBranches]
    exact (Emit.Keeps.pure _).tolerates
  | .mk info [] :: rest =>
    rw [emitBranches, emitBranches]
    exact emitBranches_tolerates parent (index + 1) rest
  | .mk info (n :: _) :: rest =>
    rw [emitBranches, emitBranches]
    exact (emit_tolerates _ n).bind fun _ => .after .get fun s =>
      (emitBranches_tolerates parent (index + 1) rest).andThen fun _ => .pure _

end

/-- So are those for the roots. -/
theorem emitRoots_tolerates (nodes : List Node) :
    Tolerates (emitRoots (settings.tolerating false) nodes)
      (emitRoots (settings.tolerating true) nodes) := by
  have hall := emitAll_tolerates settings [] 0 nodes
  unfold emitRoots
  split
  · exact .after .get fun s => (deeper_tolerates hall).andThen fun _ => fragmentCall_keeps errors_unit _ _
  · exact hall.andThen fun _ => .pure _

/-- A tolerant run emits the roots whatever they are. -/
theorem emitRoots_ok (nodes : List Node) (s : CallState) :
    ∃ root s', (emitRoots (settings.tolerating true) nodes).run s = (.ok root, s') := by
  unfold emitRoots
  split
  · obtain ⟨codes, s₁, h⟩ := emitAll_ok settings [] 0 nodes { s with level := s.level + 1 }
    have hd : (deeper (emitAll (settings.tolerating true) [] 0 nodes)).run s =
        (.ok codes, { s₁ with level := s.level }) := Emit.run_within h
    have hg : (get : EmitCall CallState).run s = (.ok s, s) := rfl
    rw [Emit.run_bind_ok hg, Emit.run_bind_ok hd]
    exact ⟨_, _, rfl⟩
  · obtain ⟨codes, s₁, h⟩ := emitAll_ok settings [] 0 nodes s
    rw [Emit.run_bind_ok h]
    exact ⟨_, _, rfl⟩

/-- A tolerant run emits every template, and what it emits is that of a strict run which
succeeds. -/
theorem generate_tolerated (nodes : List Node) :
    Tolerated Prod.snd (generate (settings.tolerating false) nodes)
      (generate (settings.tolerating true) nodes) := by
  unfold generate
  exact .of_tolerates (emitRoots_tolerates settings nodes) rfl (emitRoots_ok settings nodes {})
    Prod.snd (fun
      | (.ok root, s) => .ok ({ s.unit with root }, s.errors)
      | (.error d, _) => .error d)
    (f := fun root s => ({ s.unit with root }, s.errors)) (fun _ _ => rfl) (fun _ _ => rfl)
    fun _ _ => rfl

end Nodes

end Calls

end UiTemplate
