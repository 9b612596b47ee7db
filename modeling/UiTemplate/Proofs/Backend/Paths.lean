import UiTemplate.Proofs.Backend.Calls
import UiTemplate.Proofs.Backend.Markup
import UiTemplate.Proofs.Outlet.Paths

/-!
# Where the faults of backends point

- `Calls.emit_reports`, `Markup.emit_reports`: a fault at a node or below it has the path of the node
  at fault, if the emission started with the path of its own node.
- `Calls.generate_reports`, `Markup.generate_reports`: the same for whole trees, of whatever shape.
- `Template.parse_pathsLead`: every path that the report on the slots of a template or a backend
  gives out leads to the slot or to the node that it is about.
-/

namespace UiTemplate

/-- The faults that a backend reports: the one that ended it, or those that it tolerated. -/
def reported {α : Type} : Except Diagnostic (α × List Diagnostic) → List Diagnostic
  | .error d => [d]
  | .ok (_, errors) => errors

section Faults

variable {root : List Node} {path : Path}

theorem Diagnostic.Blames.leadsIn {d : Diagnostic} {n : Node} (hd : d.Blames n)
    (h : Template.at? root d.path = some n)
    (hfault : ∀ outlet path, d.fault ≠ .collision outlet path) : d.LeadsIn root where
  node := ⟨n, h, hd⟩
  other outlet path he := absurd he (hfault outlet path)

theorem Diagnostic.leadsIn_directive {n : Node} (h : Template.at? root path = some n) (name : String)
    (value : Option String) (location : Location)
    (hm : .unsupported name value location ∈ n.directives) :
    Diagnostic.LeadsIn root ⟨.unsupportedDirective name, path, location⟩ :=
  Diagnostic.Blames.leadsIn (n := n) ⟨value, hm⟩ h nofun

theorem Diagnostic.leadsIn_html {info : ElementInfo} {children : List Node}
    (h : Template.at? root path = some (.element info children))
    (hm : (∃ b ∈ bindings info.directives, b.kind = .html) ∧ children ≠ []) :
    Diagnostic.LeadsIn root ⟨.htmlAndChildren info.tag, path, info.location⟩ :=
  Diagnostic.Blames.leadsIn (n := .element info children) ⟨info, children, rfl, rfl, rfl, hm⟩ h nofun

theorem Diagnostic.leadsIn_slot {info : SlotInfo} {fallback : List Node}
    (h : Template.at? root path = some (.slot info fallback)) :
    Diagnostic.LeadsIn root ⟨.unresolvedSlot, path, info.location⟩ :=
  Diagnostic.Blames.leadsIn (n := .slot info fallback) ⟨info, fallback, rfl, rfl⟩ h nofun

theorem Diagnostic.leadsIn_binding {info : ElementInfo} {children : List Node}
    (h : Template.at? root path = some (.element info children)) (b : Binding)
    (hb : b ∈ bindings info.directives) (d : Diagnostic)
    (hd : Markup.bindingFault? path b = some d) : d.LeadsIn root := by
  unfold Markup.bindingFault? at hd
  split at hd
  · cases hd
  · rename_i hkind
    cases hd
    exact Diagnostic.Blames.leadsIn (n := .element info children)
      ⟨info, children, rfl, b, hb, hkind, rfl, rfl⟩ h nofun
  · rename_i hkind
    cases hd
    exact Diagnostic.Blames.leadsIn (n := .element info children)
      ⟨info, children, b.name, rfl, b, hb, hkind, rfl, rfl⟩ h nofun

end Faults

/-! ## Calls -/

namespace Calls

variable {root : List Node} (settings : CallSettings)

/-- Every fault of a step has the path of the node at fault. -/
abbrev Reports {α : Type} (root : List Node) (step : EmitCall α) : Prop :=
  EndsWith (Diagnostic.LeadsIn root) False True step

theorem outletOf_reports {path : Path} {info : SlotInfo} {fallback : List Node}
    (h : Template.at? root path = some (.slot info fallback)) :
    Reports root (outletOf settings info path) := by
  unfold outletOf
  split
  · exact .pure _
  · exact (Emit.Ends.throw (Diagnostic.leadsIn_slot h)).weaken

mutual

theorem emit_reports (path : Path) (n : Node) (h : Template.at? root path = some n) :
    Reports root (emit settings path n) := by
  match n with
  | .element info children =>
    rw [emit]
    exact (elementOrHoisted_ends (Diagnostic.leadsIn_directive h) (Diagnostic.leadsIn_html h)
      (emitAll_reports path 0 children (Template.leads_children h)) fun _ => trivial).weaken
  | .text value l =>
    rw [emit]
    exact call_ends _ _
  | .interpolation e key l =>
    rw [emit]
    exact (display_ends e key).after fun _ => call_ends _ _
  | .slot info fallback =>
    have hfallback := Template.leads_children h
    rw [emit]
    exact (slotCode_ends (Diagnostic.leadsIn_directive h) (outletOf_reports settings h)
      (fun _ => emitFirst_reports path fallback hfallback)
      (emitAll_reports path 0 fallback hfallback) fun _ => trivial).weaken
  | .chain branches key l =>
    rw [emit]
    exact (emitBranches_reports path 0 branches (Template.leadsInto_branches h)).after fun _ =>
      conditional_ends _
  | .loop info children =>
    have hchildren := Template.leads_children h
    rw [emit]
    exact Emit.Ends.get.after fun s =>
      (withLocals_ends _ (emitFirst_reports path children hchildren)).after fun _ =>
        constructLoop_ends _ _ _ _
  | .comment value l =>
    rw [emit]
    exact call_ends _ _

theorem emitFirst_reports (path : Path) (ns : List Node) (h : Template.Leads root path 0 ns) :
    Reports root (emitFirst settings path ns) := by
  match ns with
  | [] =>
    rw [emitFirst]
    exact .pure _
  | n :: rest =>
    rw [emitFirst]
    exact emit_reports _ n h.head

theorem emitAll_reports (parent : Path) (index : Nat) (ns : List Node)
    (h : Template.Leads root parent index ns) : Reports root (emitAll settings parent index ns) := by
  match ns with
  | [] =>
    rw [emitAll]
    exact .pure _
  | n :: rest =>
    have hrest := emitAll_reports parent (index + 1) rest h.tail
    rw [emitAll]
    refine (Emit.Ends.attempt (q := True) (emit_reports (parent.child index) n h.head) (fun code => ?_)
      fun d hd => ?_).weaken
    · exact hrest.after fun _ => .pure _
    · exact Emit.Ends.tolerate False.elim hd (note_ends hd) hrest

theorem emitBranches_reports (parent : Path) (index : Nat) (bs : List Branch)
    (h : Template.LeadsInto root parent index bs) :
    Reports root (emitBranches settings parent index bs) := by
  match bs with
  | [] =>
    rw [emitBranches]
    exact .pure _
  | .mk info [] :: rest =>
    rw [emitBranches]
    exact emitBranches_reports parent (index + 1) rest h.tail
  | .mk info (n :: more) :: rest =>
    rw [emitBranches]
    exact (emit_reports _ n h.head).after fun code => Emit.Ends.get.after fun s =>
      (emitBranches_reports parent (index + 1) rest h.tail).after fun _ => .pure _

end

theorem emitRoots_reports (nodes : List Node) : Reports nodes (emitRoots settings nodes) := by
  have hall := emitAll_reports settings [] 0 nodes Template.leads_root
  unfold emitRoots
  split
  · exact Emit.Ends.get.after fun s => (deeper_ends hall).after fun _ => fragmentCall_ends _ _
  · exact hall.after fun _ => .pure _

/-- The faults that the emission of a tree reports have the paths of the nodes at fault. -/
theorem generate_reports (nodes : List Node) :
    ∀ d ∈ reported (generate settings nodes), d.LeadsIn nodes := by
  have hkeeps := (emitRoots_reports settings nodes).keeps {} nofun
  have hfails := (emitRoots_reports settings nodes).fails {}
  unfold generate
  split
  · rename_i root s hrun
    rw [hrun] at hkeeps
    exact hkeeps
  · rename_i d s hrun
    exact List.forall_mem_singleton.mpr (hfails d (by rw [hrun]))

end Calls

/-! ## Markup -/

namespace Markup

variable {root : List Node} (settings : MarkupSettings)

/-- Every fault of a step has the path of the node at fault. -/
abbrev Reports {α : Type} (root : List Node) (step : EmitMarkup α) : Prop :=
  EndsWith (Diagnostic.LeadsIn root) False True step

theorem slotMarkup_reports {path : Path} {info : SlotInfo} {fallback : List Node}
    {emitFallback : EmitMarkup (List String)}
    (h : Template.at? root path = some (.slot info fallback)) (hf : Reports root emitFallback) :
    Reports root (slotMarkup settings path info emitFallback) := by
  cases hr : info.resolution with
  | some r =>
    -- What is left out of the fallback does not fail.
    have hpolicy : ([] : List Node) ≠ [] → r.fallback = .dualBranch := absurd rfl
    exact (slotMarkup_ends (Diagnostic.leadsIn_directive h) hr hpolicy hf
      fun _ => trivial).weaken
  | none =>
    unfold slotMarkup
    rw [hr]
    exact ((Emit.checkDirectives_ends (Diagnostic.leadsIn_directive h)).bind fun _ =>
      Emit.Ends.throw (Diagnostic.leadsIn_slot h)).weaken

mutual

theorem emit_reports (path : Path) (n : Node) (h : Template.at? root path = some n) :
    Reports root (emit settings path n) := by
  match n with
  | .element info children =>
    rw [emit]
    exact (elementMarkup_ends (Diagnostic.leadsIn_directive h) (Diagnostic.leadsIn_binding h)
      (emitAll_reports path 0 children (Template.leads_children h)) fun _ => trivial).weaken
  | .text value l =>
    rw [emit]
    exact takePending_ends.after fun _ => .pure _
  | .interpolation e key l =>
    rw [emit]
    exact takePending_ends.after fun _ => Emit.Ends.get.after fun _ => .pure _
  | .slot info fallback =>
    rw [emit]
    exact slotMarkup_reports settings h (emitAll_reports path 0 fallback (Template.leads_children h))
  | .chain branches key l =>
    rw [emit]
    exact takePending_ends.after fun _ =>
      (emitBranches_reports path 0 key branches (Template.leadsInto_branches h)).after fun _ =>
        .pure _
  | .loop info children =>
    rw [emit]
    exact loopMarkup_ends info children
      (emitFirst_reports path children (Template.leads_children h))
  | .comment value l =>
    rw [emit]
    exact .pure _

theorem emitFirst_reports (path : Path) (ns : List Node) (h : Template.Leads root path 0 ns) :
    Reports root (emitFirst settings path ns) := by
  match ns with
  | [] =>
    rw [emitFirst]
    exact .pure _
  | n :: rest =>
    rw [emitFirst]
    exact emit_reports _ n h.head

theorem emitAll_reports (parent : Path) (index : Nat) (ns : List Node)
    (h : Template.Leads root parent index ns) : Reports root (emitAll settings parent index ns) := by
  match ns with
  | [] =>
    rw [emitAll]
    exact .pure _
  | n :: rest =>
    have hrest := emitAll_reports parent (index + 1) rest h.tail
    rw [emitAll]
    refine (Emit.Ends.attempt (q := True) (emit_reports (parent.child index) n h.head) (fun code => ?_)
      fun d hd => ?_).weaken
    · exact hrest.after fun _ => .pure _
    · exact Emit.Ends.tolerate False.elim hd (note_ends hd) hrest

theorem emitBranches_reports (parent : Path) (index : Nat) (key : Option Key) (bs : List Branch)
    (h : Template.LeadsInto root parent index bs) :
    Reports root (emitBranches settings parent index key bs) := by
  match bs with
  | [] =>
    rw [emitBranches]
    exact .pure _
  | .mk info [] :: rest =>
    rw [emitBranches]
    exact emitBranches_reports parent (index + 1) key rest h.tail
  | .mk info (n :: more) :: rest =>
    rw [emitBranches]
    exact (branchMarkup_ends key info (emit_reports _ n h.head)).after fun _ =>
      (emitBranches_reports parent (index + 1) key rest h.tail).after fun _ => .pure _

end

/-- The faults that the emission of a tree reports have the paths of the nodes at fault. -/
theorem generate_reports (nodes : List Node) :
    ∀ d ∈ reported (generate settings nodes), d.LeadsIn nodes := by
  have hall := emitAll_reports settings [] 0 nodes Template.leads_root
  have hkeeps := hall.keeps {} nofun
  have hfails := hall.fails {}
  unfold generate
  split
  · rename_i markup s hrun
    rw [hrun] at hkeeps
    exact hkeeps
  · rename_i d s hrun
    exact List.forall_mem_singleton.mpr (hfails d (by rw [hrun]))

end Markup

/-- The paths of the report and of the backends, followed from the root: that of an outlet leads to
the slot that was resolved to it, and those of a fault to the nodes that it is about. -/
structure Annotated.PathsLead (a : Annotated) : Prop where
  outlets : ∀ o ∈ a.report.outlets, ∃ info fallback r,
    Template.at? a.nodes o.path = some (.slot info fallback) ∧ info.resolution = some r ∧
      o = ⟨o.path, r.base, r.isIterated, r.fallback⟩
  slotErrors : ∀ d ∈ a.report.errors, d.LeadsIn a.nodes
  calls : ∀ settings, ∀ d ∈ reported (Calls.generate settings a.nodes), d.LeadsIn a.nodes
  markup : ∀ settings, ∀ d ∈ reported (Markup.generate settings a.nodes), d.LeadsIn a.nodes

/-- In a template that was read, every path leads to what it is given out for, whatever the platform
and the settings of the backends are. -/
theorem Template.parse_pathsLead {options : ParseOptions} {source : String} {nodes : List Node}
    (h : Template.parse options source = .ok nodes) (platform : Platform) :
    (Template.annotate platform.capabilities nodes).PathsLead where
  outlets _ ho := Template.outlets_lead (Template.parse_isSingle h) ho
  slotErrors _ hd := Template.slotErrors_lead (Template.parse_isSingle h) hd
  calls settings := Calls.generate_reports settings _
  markup settings := Markup.generate_reports settings _

/-- An event on a slot in one branch, and two slots in the other one that collide. -/
theorem Template.parse_pathsLead_slotsInBranches :
    ∃ nodes,
      Template.parse {} "<view v-if=\"x\"><slot @tap=\"f\"/></view><view v-else><slot/><slot/></view>" =
        .ok nodes ∧
      (Template.annotate Platform.web.capabilities nodes).report.errors.map Diagnostic.path =
        [[0, 0, 0, 0], [0, 1, 0, 1]] ∧
      (Template.annotate Platform.web.capabilities nodes).PathsLead := by
  have hrun : (Template.parse {}
      "<view v-if=\"x\"><slot @tap=\"f\"/></view><view v-else><slot/><slot/></view>").toOption.map
        (fun nodes => (Template.annotate Platform.web.capabilities nodes).report.errors.map
          Diagnostic.path) = some [[0, 0, 0, 0], [0, 1, 0, 1]] := by
    decide +kernel
  obtain ⟨nodes, hp, hpaths⟩ := Option.map_eq_some_iff.mp hrun
  have hp := Except.toOption_eq_some.mp hp
  exact ⟨nodes, hp, hpaths, Template.parse_pathsLead hp .web⟩

end UiTemplate
