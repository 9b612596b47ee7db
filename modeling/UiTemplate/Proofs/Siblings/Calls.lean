import UiTemplate.Proofs.Siblings.Step
import UiTemplate.Proofs.Tolerance.Calls

/-!
# Calls beside a fault

The code of a node hangs on the local names, the level of indentation and whether it is hoisted.
Every step that changes one of these puts it back, also where a part of it fails.

- `Calls.emitAll_cons`: children are handled one by one.
- `Calls.emitChild_keeps`: a child leaves the surroundings of its siblings alone.
-/

namespace UiTemplate

/-- The local names, the level of indentation, and whether a node is being hoisted. -/
def CallState.surroundings (s : CallState) : List String × Nat × Bool :=
  (s.locals, s.level, s.hoisting)

namespace Calls

/-- A step that leaves the surroundings as they were. -/
abbrev Unmoved {α : Type} (step : EmitCall α) : Prop :=
  Emit.Keeps CallState.surroundings step

/-- The surroundings are no part of the unit. -/
theorem surroundings_unit (s : CallState) (unit : RenderUnit) :
    CallState.surroundings { s with unit } = s.surroundings := rfl

section Parts

variable {α : Type} {step : EmitCall α}

theorem note_unmoved (d : Diagnostic) : Unmoved (note d) :=
  .modify fun _ => rfl

theorem withLocals_unmoved (names : List String) (h : Unmoved step) :
    Unmoved (withLocals names step) := by
  refine h.within fun s s' hs => ?_
  simp_all [CallState.surroundings]

theorem deeper_unmoved (h : Unmoved step) : Unmoved (deeper step) := by
  refine h.within fun s s' hs => ?_
  simp_all [CallState.surroundings]

theorem aside_unmoved (h : Unmoved step) : Unmoved (aside step) := by
  refine h.within fun s s' hs => ?_
  simp_all [CallState.surroundings]

variable (settings : CallSettings) (path : Path)

theorem elementCode_unmoved (info : ElementInfo) (children : List Node)
    {c : EmitCall (List String)} (hoisted : Bool) (hc : Unmoved c) :
    Unmoved (elementCode settings path info children c hoisted) := by
  have construct (props : ElementProps) (items : Option String) (flag : PatchFlag) :
      Unmoved (constructElement settings info props items flag hoisted) :=
    constructElement_keeps surroundings_unit settings info props items flag hoisted
  unfold elementCode
  by_cases hh : (hasHtml info && !children.isEmpty) = true
  · rw [if_pos hh]
    exact .throw _
  · rw [if_neg hh]
    refine Emit.Keeps.get.bind fun s => ?_
    cases info.kind with
    | native =>
      dsimp only
      split
      · exact (textParts_keeps surroundings_unit settings children).bind fun _ => construct _ _ _
      · split
        · exact construct _ _ _
        · exact (deeper_unmoved hc).bind fun _ => construct _ _ _
    | component =>
      dsimp only
      split
      · exact construct _ _ _
      · exact (deeper_unmoved hc).bind fun _ => construct _ _ _
    | fragment => exact (deeper_unmoved hc).bind fun _ => construct _ _ _

theorem elementOrHoisted_unmoved (info : ElementInfo) (children : List Node)
    {c : EmitCall (List String)} (hc : Unmoved c) :
    Unmoved (elementOrHoisted settings path info children c) := by
  refine (Emit.checkDirectives_keeps _ _).bind fun _ => Emit.Keeps.get.bind fun s => ?_
  split
  · have hcode := aside_unmoved (elementCode_unmoved settings path info children true hc)
    exact hcode.bind fun _ => declare_keeps surroundings_unit _
  · exact elementCode_unmoved settings path info children false hc

theorem slotCode_unmoved (info : SlotInfo) (count : Nat) {f : EmitCall String}
    {c : EmitCall (List String)} (hf : Unmoved f) (hc : Unmoved c) :
    Unmoved (slotCode settings path info count f c) := by
  refine (Emit.checkDirectives_keeps _ _).bind fun _ =>
    (outletOf_keeps settings info path).bind fun outlet =>
      (uses_keeps surroundings_unit _).bind fun _ => Emit.Keeps.get.bind fun s => ?_
  dsimp only
  split
  · exact .pure _
  · split
    · exact hf.bind fun _ => .pure _
    · exact (deeper_unmoved hc).bind fun _ =>
        (fragmentCall_keeps surroundings_unit _ _).bind fun _ => .pure _

end Parts

/-! ## Nodes -/

section Nodes

variable (settings : CallSettings)

/-- The code of a child; none if it fails and faults are tolerated. -/
def emitChild (path : Path) (n : Node) : EmitCall (Option String) :=
  Emit.handle settings.tolerant note (emit settings path n)

/-- Children are handled one by one. -/
theorem emitAll_cons (parent : Path) (index : Nat) (n : Node) (rest : List Node) :
    emitAll settings parent index (n :: rest) = (do
      let code ← emitChild settings (parent.child index) n
      let more ← emitAll settings parent (index + 1) rest
      return code.toList ++ more) := by
  rw [emitAll, emitChild, Emit.handle, bind_assoc]
  refine bind_congr fun r => ?_
  cases r with
  | ok code => simp
  | error d =>
    dsimp only
    split
    · simp
    · rfl

mutual

theorem emit_keeps (path : Path) (n : Node) : Unmoved (emit settings path n) := by
  match n with
  | .element info children =>
    rw [emit]
    exact elementOrHoisted_unmoved settings path info children (emitAll_keeps path 0 children)
  | .text value l =>
    rw [emit]
    exact call_keeps surroundings_unit _ _
  | .interpolation e key l =>
    rw [emit]
    exact (display_keeps surroundings_unit settings e key).bind fun _ =>
      call_keeps surroundings_unit _ _
  | .slot info fallback =>
    rw [emit]
    exact slotCode_unmoved settings path info fallback.length (emitFirst_keeps path fallback)
      (emitAll_keeps path 0 fallback)
  | .chain branches key l =>
    rw [emit]
    exact (emitBranches_keeps path 0 branches).bind fun _ => conditional_keeps surroundings_unit _
  | .loop info children =>
    rw [emit]
    refine Emit.Keeps.get.bind fun s => ?_
    exact (withLocals_unmoved _ (emitFirst_keeps path children)).bind fun _ =>
      constructLoop_keeps surroundings_unit _ _ _ _
  | .comment value l =>
    rw [emit]
    exact call_keeps surroundings_unit _ _

theorem emitFirst_keeps (path : Path) (ns : List Node) :
    Unmoved (emitFirst settings path ns) := by
  match ns with
  | [] =>
    rw [emitFirst]
    exact .pure _
  | n :: _ =>
    rw [emitFirst]
    exact emit_keeps _ n

theorem emitAll_keeps (parent : Path) (index : Nat) (ns : List Node) :
    Unmoved (emitAll settings parent index ns) := by
  match ns with
  | [] =>
    rw [emitAll]
    exact .pure _
  | n :: rest =>
    have hn : Unmoved (emitChild settings (parent.child index) n) :=
      (emit_keeps (parent.child index) n).handle settings.tolerant note_unmoved
    rw [emitAll_cons]
    exact hn.bind fun _ => (emitAll_keeps parent (index + 1) rest).bind fun _ => .pure _

theorem emitBranches_keeps (parent : Path) (index : Nat) (bs : List Branch) :
    Unmoved (emitBranches settings parent index bs) := by
  match bs with
  | [] =>
    rw [emitBranches]
    exact .pure _
  | .mk info [] :: rest =>
    rw [emitBranches]
    exact emitBranches_keeps parent (index + 1) rest
  | .mk info (n :: _) :: rest =>
    rw [emitBranches]
    refine (emit_keeps _ n).bind fun _ => Emit.Keeps.get.bind fun s => ?_
    exact (emitBranches_keeps parent (index + 1) rest).bind fun _ => .pure _

end

/-- A child leaves the surroundings of its siblings alone, whether it fails or not. -/
theorem emitChild_keeps (path : Path) (n : Node) : Unmoved (emitChild settings path n) :=
  (emit_keeps settings path n).handle settings.tolerant note_unmoved

end Nodes

end Calls

end UiTemplate
