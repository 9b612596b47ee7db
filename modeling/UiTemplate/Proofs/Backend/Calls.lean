import UiTemplate.Backend.Calls
import UiTemplate.Proofs.Backend.Ends
import UiTemplate.Proofs.Template.Shape

/-!
# When nodes become calls

- `Calls.emitAll_ends`: nodes can be emitted exactly if every node in them is supported.
- `Calls.generate_emitted`: the same for a template.
-/

namespace UiTemplate

/-- Every noted fault is of a kind. -/
def CallState.Noted (E : Diagnostic → Prop) (s : CallState) : Prop :=
  ∀ d ∈ s.errors, E d

namespace Calls

/-- How a step ends whose faults, thrown or noted, are all of a kind. -/
abbrev EndsWith {α : Type} (E : Diagnostic → Prop) (strict p : Prop) (step : EmitCall α) : Prop :=
  Emit.Ends (CallState.Noted E) E strict p step

section Steps

variable {settings : CallSettings} {E : Diagnostic → Prop} {strict : Prop} {α : Type} {p : Prop}
  {step : EmitCall α}

/-- What only adds to the unit ends without a fault. -/
theorem imports_ends (name : String) : EndsWith E strict True (imports name) :=
  .modify fun _ h => h

theorem uses_ends (h : Helper) : EndsWith E strict True (uses h) :=
  .modify fun _ h => h

/-- A fault of the kind can be noted. -/
theorem note_ends {d : Diagnostic} (hd : E d) : EndsWith E strict True (note d) :=
  .modify fun _ h => List.forall_mem_append.mpr ⟨h, List.forall_mem_singleton.mpr hd⟩

/-- Names that are bound do not change how a step ends. -/
theorem withLocals_ends (names : List String) (h : EndsWith E strict p step) :
    EndsWith E strict p (withLocals names step) :=
  h.within (fun _ h => h) fun _ _ h => h

theorem deeper_ends (h : EndsWith E strict p step) : EndsWith E strict p (deeper step) :=
  h.within (fun _ h => h) fun _ _ h => h

theorem aside_ends (h : EndsWith E strict p step) : EndsWith E strict p (aside step) :=
  h.within (fun _ h => h) fun _ _ h => h

theorem call_ends (callee : String) (args : List (Option String)) :
    EndsWith E strict True (call callee args) :=
  (imports_ends callee).after fun _ => .pure _

theorem fragment_ends : EndsWith E strict True fragment :=
  (imports_ends _).after fun _ => .pure _

theorem fragmentCall_ends (children : String) (flag : PatchFlag) :
    EndsWith E strict True (fragmentCall children flag) :=
  fragment_ends.after fun _ => call_ends _ _

theorem display_ends (e : Expression) (key : Option Key) :
    EndsWith E strict True (display settings e key) := by
  refine (uses_ends _).after fun _ => Emit.Ends.get.after fun s => ?_
  split
  · exact .pure _
  · exact .pure _

/-- A component can always be resolved. -/
theorem component_ends (tag : String) : EndsWith E strict True (component settings tag) := by
  refine Emit.Ends.get.after fun s => ?_
  split
  · exact .pure _
  · have rest (c : ComponentRef) : EndsWith E strict True (do
        modify fun s => { s with unit := { s.unit with components := s.unit.components ++ [c] } }
        return c.variableName : EmitCall String) := by
      refine (Emit.Ends.modify ?_).after fun _ => .pure _
      exact fun _ h => h
    dsimp only
    split
    · exact (imports_ends _).after fun _ => rest _
    · exact (imports_ends _).after fun _ => rest _
    · exact rest _

/-- Text ends without a fault. -/
theorem textParts_ends (ns : List Node) : EndsWith E strict True (textParts settings ns) := by
  induction ns with
  | nil => exact .pure _
  | cons n ns ih =>
    cases n with
    | interpolation e key l =>
      exact (display_ends e key).after fun _ => ih.after fun _ => .pure _
    | text value l => exact ih.after fun _ => .pure _
    | _ => exact ih

theorem constructElement_ends (info : ElementInfo) (props : ElementProps)
    (children : Option String) (flag : PatchFlag) (hoisted : Bool) :
    EndsWith E strict True (constructElement settings info props children flag hoisted) := by
  unfold constructElement
  cases info.kind with
  | native => exact (Emit.Ends.pure _).after fun _ => call_ends _ _
  | component =>
    exact (component_ends _).after fun _ => (Emit.Ends.pure _).after fun _ => call_ends _ _
  | fragment => exact fragment_ends.after fun _ => (Emit.Ends.pure _).after fun _ => call_ends _ _

theorem declare_ends (code : String) : EndsWith E strict True (declare code) := by
  refine Emit.Ends.get.after fun _ => (Emit.Ends.modify ?_).after fun _ => .pure _
  exact fun _ h => h

theorem constructLoop_ends (source : String) (info : LoopInfo) (child : String) (keyed : Bool) :
    EndsWith E strict True (constructLoop source info child keyed) :=
  (uses_ends _).after fun _ => fragmentCall_ends _ _

theorem conditional_ends (branches : List (Option String × String)) :
    EndsWith E strict True (conditional branches) := by
  unfold conditional
  dsimp only
  split
  · exact .pure _
  · exact (call_ends _ _).after fun _ => .pure _

end Steps

/-! ## Elements and slots -/

section Parts

variable {settings : CallSettings} {E : Diagnostic → Prop} {strict : Prop} {path : Path} {p : Prop}

/-- Whether an element has both inner HTML and children. -/
theorem hasHtml_and_children (info : ElementInfo) (children : List Node) :
    (hasHtml info && !children.isEmpty) = true ↔
      (∃ b ∈ bindings info.directives, b.kind = .html) ∧ children ≠ [] := by
  simp [hasHtml]

/-- Children that are emitted one by one matter. Those that collapse into one text cannot fail. -/
theorem elementCode_ends {info : ElementInfo} {children : List Node}
    {emitChildren : EmitCall (List String)} (hoisted : Bool)
    (hE : (∃ b ∈ bindings info.directives, b.kind = .html) ∧ children ≠ [] →
      E ⟨.htmlAndChildren info.tag, path, info.location⟩)
    (hc : EndsWith E strict p emitChildren) (hp : children.all Node.isTextLike = true → p) :
    EndsWith E strict (¬((∃ b ∈ bindings info.directives, b.kind = .html) ∧ children ≠ []) ∧ p)
      (elementCode settings path info children emitChildren hoisted) := by
  rw [← hasHtml_and_children] at hE ⊢
  unfold elementCode
  by_cases hh : (hasHtml info && !children.isEmpty) = true
  · rw [if_pos hh]
    exact (Emit.Ends.throw (hE hh)).of_iff fun _ => ⟨False.elim, fun h => h.1 hh⟩
  · rw [if_neg hh]
    have hempty : children.isEmpty = true → p := fun h => hp (by simp_all)
    refine Emit.Ends.of_iff ?_ fun _ => (and_iff_right hh).symm
    refine Emit.Ends.get.after fun s => ?_
    dsimp only
    cases info.kind with
    | native =>
      dsimp only
      split
      · rename_i ht
        refine Emit.Ends.of_iff ?_ fun _ => (iff_true_intro (hp ?_)).symm
        · exact (textParts_ends _).after fun _ => constructElement_ends _ _ _ _ _
        · exact (Bool.and_eq_true _ _ ▸ ht).2
      · split
        · rename_i he
          exact (constructElement_ends _ _ _ _ _).of_iff fun _ =>
            (iff_true_intro (hempty he)).symm
        · exact (deeper_ends hc).andThen fun _ => constructElement_ends _ _ _ _ _
    | component =>
      dsimp only
      split
      · rename_i he
        exact (constructElement_ends _ _ _ _ _).of_iff fun _ => (iff_true_intro (hempty he)).symm
      · exact (deeper_ends hc).andThen fun _ => constructElement_ends _ _ _ _ _
    | fragment => exact (deeper_ends hc).andThen fun _ => constructElement_ends _ _ _ _ _

/-- An element ends with the faults of its directives, its HTML and its children. -/
theorem elementOrHoisted_ends {info : ElementInfo} {children : List Node}
    {emitChildren : EmitCall (List String)}
    (hdirective : ∀ name value location,
      Directive.unsupported name value location ∈ info.directives →
        E ⟨.unsupportedDirective name, path, location⟩)
    (hhtml : (∃ b ∈ bindings info.directives, b.kind = .html) ∧ children ≠ [] →
      E ⟨.htmlAndChildren info.tag, path, info.location⟩)
    (hc : EndsWith E strict p emitChildren)
    (hp : children.all Node.isTextLike = true → p) :
    EndsWith E strict ((Node.element info children).IsSupported .calls ∧ p)
      (elementOrHoisted settings path info children emitChildren) := by
  show EndsWith E strict
    ((_ ∧ ¬((∃ b ∈ bindings info.directives, b.kind = .html) ∧ children ≠ [])) ∧ p) _
  rw [and_assoc]
  refine Emit.Ends.bind (Emit.checkDirectives_ends hdirective) fun _ =>
    Emit.Ends.get.after fun s => ?_
  split
  · exact (aside_ends (elementCode_ends true hhtml hc hp)).andThen fun _ => declare_ends _
  · exact elementCode_ends false hhtml hc hp

/-- A slot with an outlet under its key ends without a fault. -/
theorem outletOf_ends {info : SlotInfo} {outlet : OutletCall}
    (h : info.keys.outlet.bind settings.context.thunk? = some (.outlet outlet)) :
    EndsWith E strict True (outletOf settings info path) := by
  unfold outletOf
  rw [h]
  exact .pure _

/-- One node of fallback is emitted like several are. -/
theorem slotCode_ends {info : SlotInfo} {fallback : List Node}
    (hdirective : ∀ name value location,
      Directive.unsupported name value location ∈ info.directives →
        E ⟨.unsupportedDirective name, path, location⟩)
    (ho : EndsWith E strict True (outletOf settings info path)) {emitFirst : EmitCall String} {emitChildren : EmitCall (List String)}
    (hf : fallback.length = 1 → EndsWith E strict p emitFirst) (hc : EndsWith E strict p emitChildren)
    (hp : fallback = [] → p) :
    EndsWith E strict ((Node.slot info fallback).IsSupported .calls ∧ p)
      (slotCode settings path info fallback.length emitFirst emitChildren) := by
  refine Emit.Ends.bind (Emit.checkDirectives_ends hdirective) fun _ =>
    ho.after fun outlet => (uses_ends _).after fun _ => Emit.Ends.get.after fun s => ?_
  dsimp only
  split
  · rename_i he
    exact (Emit.Ends.pure _).of_iff fun _ =>
      (iff_true_intro (hp (List.length_eq_zero_iff.mp he))).symm
  · split
    · rename_i hl
      exact (hf hl).andThen fun _ => .pure _
    · exact (deeper_ends hc).andThen fun _ => (fragmentCall_ends _ _).after fun _ => .pure _

end Parts

/-! ## Nodes -/

/-- How a step ends under settings, if no fault is a slot without outlet. -/
abbrev Ends {α : Type} (settings : CallSettings) (p : Prop) (step : EmitCall α) : Prop :=
  EndsWith Diagnostic.OfResolved (settings.tolerant = false) p step

/-- What the emission of a node relies on: loops and branches have one node, and the key of a slot
stands for its outlet. -/
def Ready (settings : CallSettings) (n : Node) : Prop :=
  n.IsSingle ∧ ∀ info fallback, n = .slot info fallback →
    ∃ outlet, info.keys.outlet.bind settings.context.thunk? = some (.outlet outlet)

/-- Texts and interpolations are supported. -/
theorem isSupported_of_isTextLike {family : Family} {ns : List Node}
    (h : ns.all Node.isTextLike = true) : ∀ m ∈ Node.withinAll ns, m.IsSupported family := by
  induction ns with
  | nil => exact fun m hm => absurd hm List.not_mem_nil
  | cons n ns ih =>
    rw [List.all_cons, Bool.and_eq_true] at h
    refine List.forall_mem_append.mpr ⟨?_, ih h.2⟩
    cases n with
    | text value l => exact List.forall_mem_singleton.mpr trivial
    | interpolation e key l => exact List.forall_mem_singleton.mpr trivial
    | _ => cases h.1

section Nodes

variable {settings : CallSettings}

mutual

/-- A strict run for a node succeeds exactly if all nodes within are supported. -/
theorem emit_ends (path : Path) (n : Node) (hr : ∀ m ∈ n.within, Ready settings m) :
    Ends settings (∀ m ∈ n.within, m.IsSupported .calls) (emit settings path n) := by
  match n with
  | .element info children =>
    rw [emit]
    refine Emit.Ends.of_iff (elementOrHoisted_ends (fun _ _ _ _ => nofun) (fun _ => nofun)
      (emitAll_ends path 0 children (List.forall_mem_cons.mp hr).2) isSupported_of_isTextLike)
      fun _ => List.forall_mem_cons.symm
  | .text value l =>
    rw [emit]
    exact (call_ends _ _).of_iff fun _ =>
      (iff_true_intro (List.forall_mem_singleton.mpr trivial)).symm
  | .interpolation e key l =>
    rw [emit]
    refine Emit.Ends.of_iff ((display_ends e key).after fun _ => call_ends _ _) fun _ => ?_
    exact (iff_true_intro (List.forall_mem_singleton.mpr trivial)).symm
  | .slot info fallback =>
    obtain ⟨hs, hc⟩ := List.forall_mem_cons.mp hr
    obtain ⟨outlet, ho⟩ := hs.2 info fallback rfl
    rw [emit]
    refine Emit.Ends.of_iff (slotCode_ends (fun _ _ _ _ => nofun) (outletOf_ends ho)
      (fun hl => ?_) (emitAll_ends path 0 fallback hc) ?_) fun _ => List.forall_mem_cons.symm
    · exact emitFirst_ends path fallback hl hc
    · exact Node.isSupported_of_eq_nil
  | .chain branches key l =>
    obtain ⟨hs, hc⟩ := List.forall_mem_cons.mp hr
    rw [emit]
    refine Emit.Ends.of_iff ((emitBranches_ends path 0 branches hs.1 hc).andThen fun _ =>
      conditional_ends _) fun _ => ?_
    exact ((List.forall_mem_cons).trans (and_iff_right trivial)).symm
  | .loop info children =>
    obtain ⟨hs, hc⟩ := List.forall_mem_cons.mp hr
    have hl : children.length = 1 := by
      obtain ⟨n, hn⟩ := hs.1
      rw [hn]
      rfl
    rw [emit]
    refine Emit.Ends.of_iff (Emit.Ends.get.after fun s =>
      (withLocals_ends _ (emitFirst_ends path children hl hc)).andThen fun _ =>
        constructLoop_ends _ _ _ _) fun _ => ?_
    exact ((List.forall_mem_cons).trans (and_iff_right trivial)).symm
  | .comment value l =>
    rw [emit]
    exact (call_ends _ _).of_iff fun _ =>
      (iff_true_intro (List.forall_mem_singleton.mpr trivial)).symm

/-- So does the run for a single child. -/
theorem emitFirst_ends (path : Path) (ns : List Node) (hl : ns.length = 1)
    (hr : ∀ m ∈ Node.withinAll ns, Ready settings m) :
    Ends settings (∀ m ∈ Node.withinAll ns, m.IsSupported .calls)
      (emitFirst settings path ns) := by
  match ns, hl with
  | [n], _ =>
    rw [emitFirst]
    rw [Node.withinAll, Node.withinAll, List.append_nil] at hr ⊢
    exact emit_ends _ n hr

/-- So does the run for siblings. -/
theorem emitAll_ends (parent : Path) (index : Nat) (ns : List Node)
    (hr : ∀ m ∈ Node.withinAll ns, Ready settings m) :
    Ends settings (∀ m ∈ Node.withinAll ns, m.IsSupported .calls)
      (emitAll settings parent index ns) := by
  match ns with
  | [] =>
    rw [emitAll]
    exact (Emit.Ends.pure _).of_iff fun _ => (iff_true_intro (Node.isSupported_of_eq_nil rfl)).symm
  | n :: rest =>
    obtain ⟨hn, hs⟩ := List.forall_mem_append.mp hr
    have hrest := emitAll_ends parent (index + 1) rest hs
    rw [emitAll]
    refine Emit.Ends.of_iff (Emit.Ends.attempt (emit_ends (parent.child index) n hn)
      (fun code => ?_) fun d hd => ?_) fun _ => List.forall_mem_append.symm
    · exact hrest.andThen fun _ => .pure _
    · exact Emit.Ends.tolerate id hd (note_ends hd) hrest

/-- So does the run for branches. -/
theorem emitBranches_ends (parent : Path) (index : Nat) (bs : List Branch)
    (hb : ∀ b ∈ bs, ∃ n, b.children = [n] ∧ n.isComment = false)
    (hr : ∀ m ∈ Branch.withinAll bs, Ready settings m) :
    Ends settings (∀ m ∈ Branch.withinAll bs, m.IsSupported .calls)
      (emitBranches settings parent index bs) := by
  match bs with
  | [] =>
    rw [emitBranches]
    exact (Emit.Ends.pure _).of_iff fun _ =>
      (iff_true_intro fun m hm => absurd hm List.not_mem_nil).symm
  | .mk info [] :: rest =>
    obtain ⟨⟨n, hn, -⟩, -⟩ := List.forall_mem_cons.mp hb
    cases hn
  | .mk info (n :: more) :: rest =>
    obtain ⟨⟨m, hm, -⟩, hrest⟩ := List.forall_mem_cons.mp hb
    cases hm
    obtain ⟨hn, hs⟩ := List.forall_mem_append.mp hr
    rw [Node.withinAll, Node.withinAll, List.append_nil] at hn
    rw [emitBranches, Branch.withinAll, Node.withinAll, Node.withinAll, List.append_nil]
    refine Emit.Ends.of_iff ((emit_ends _ n hn).bind fun code => Emit.Ends.get.after fun s => ?_)
      fun _ => List.forall_mem_append.symm
    exact (emitBranches_ends parent (index + 1) rest hrest hs).andThen fun _ => .pure _

end

/-- So does the run for the roots. -/
theorem emitRoots_ends (nodes : List Node)
    (hr : ∀ m ∈ Node.withinAll nodes, Ready settings m) :
    Ends settings (∀ m ∈ Node.withinAll nodes, m.IsSupported .calls)
      (emitRoots settings nodes) := by
  have hall := emitAll_ends [] 0 nodes hr
  unfold emitRoots
  split
  · exact Emit.Ends.get.after fun s => (deeper_ends hall).andThen fun _ => fragmentCall_ends _ _
  · exact hall.andThen fun _ => .pure _

end Nodes

/-- A template is emitted exactly if every node in it is supported. -/
theorem generate_emitted {settings : CallSettings} {nodes : List Node}
    (hr : ∀ m ∈ Node.withinAll nodes, Ready settings m) :
    Emitted Prod.snd (settings.tolerant = false)
      (∀ m ∈ Node.withinAll nodes, m.IsSupported .calls) (generate settings nodes) := by
  unfold generate
  refine .of_ends (emitRoots_ends nodes hr) (s := {}) rfl (f := fun root s => ({ s.unit with root }, s.errors))
    (fun _ _ => rfl) (fun _ _ hrun => ?_) fun _ _ hrun => ?_
  · rw [hrun]
  · rw [hrun]

end Calls

end UiTemplate
