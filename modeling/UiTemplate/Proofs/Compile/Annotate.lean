import UiTemplate.Compile
import UiTemplate.Proofs.Binding.Extraction
import UiTemplate.Proofs.Outlet.Resolve

/-!
# Trees as backends get them

- `Template.annotate_strip`: a tree with outlets and keys is the tree that was read, but for these.
- `Template.annotate_isResolved`: every slot of it has its outlet.
- `Template.annotate_thunk?`, `Template.annotate_outlet`: where nodes become calls, every key stands
  for what it was given to.
-/

namespace UiTemplate

variable (capabilities : Capabilities) (nodes : List Node)

/-- Only keys are added to a tree whose bound values are extracted. -/
theorem Template.extract_strip :
    Node.stripAll SlotInfo.plain (Template.extract capabilities nodes).1 =
      Node.stripAll SlotInfo.plain nodes := by
  have h := congrArg (Node.stripAll SlotInfo.plain) (Node.extractAll_strip capabilities nodes {})
  rw [Node.stripAll_stripAll, Node.stripAll_stripAll] at h
  exact h

theorem Template.annotate_strip_unkeyed :
    Node.stripAll SlotInfo.unkeyed (Template.annotate capabilities nodes).nodes =
      Node.stripAll SlotInfo.unkeyed (Template.resolveSlots capabilities nodes) :=
  Node.extractAll_strip capabilities _ {}

/-- Only outlets and keys are added to a tree. -/
theorem Template.annotate_strip :
    Node.stripAll SlotInfo.plain (Template.annotate capabilities nodes).nodes =
      Node.stripAll SlotInfo.plain nodes :=
  (Template.extract_strip capabilities _).trans
    (Node.resolveSlotsAll_strip capabilities [] none nodes)

theorem Node.isResolved_strip (n : Node) :
    (n.strip SlotInfo.unkeyed).IsResolved capabilities ↔ n.IsResolved capabilities := by
  cases n with
  | slot info fallback =>
    simp only [Node.strip, Node.IsResolved, ne_eq, Node.stripAll_eq_nil]
    rfl
  | _ => exact Iff.rfl

/-- Every slot has its outlet. -/
theorem Template.annotate_isResolved :
    ∀ n ∈ Node.withinAll (Template.annotate capabilities nodes).nodes,
      n.IsResolved capabilities :=
  (Node.forall_within_of_stripAll_eq SlotInfo.unkeyed (Node.isResolved_strip capabilities)
    (Template.annotate_strip_unkeyed capabilities nodes)).mpr
    (Node.resolveSlotsAll_isResolved capabilities [] none nodes)

/-- Where nodes become calls, the key of whatever a node binds stands for it. -/
theorem Template.annotate_thunk? {n : Node}
    (h : n ∈ Node.withinAll (Template.annotate Family.calls.capabilities nodes).nodes) {p : Part}
    (hp : p ∈ n.ownParts .calls) :
    p.1.bind (Template.annotate Family.calls.capabilities nodes).context.thunk? = some p.2 := by
  have hl : ¬Family.calls.capabilities.localKeys = true := by decide
  obtain ⟨key, hk, hf⟩ := Template.extract_finds Family.calls.capabilities
    (Template.resolveSlots Family.calls.capabilities nodes)
    (Template.extract_increasing _ _) (fun _ => List.Sublist.refl _) _
    (Node.ownParts_subset_all hl _ h hp)
  rw [hk]
  exact hf

/-- Where nodes become calls, the key of a slot stands for the outlet that it is resolved to. -/
theorem Template.annotate_resolved {info : SlotInfo} {fallback : List Node} {r : Resolution}
    (h : .slot info fallback ∈
      Node.withinAll (Template.annotate Family.calls.capabilities nodes).nodes)
    (hr : info.resolution = some r) :
    info.keys.outlet.bind (Template.annotate Family.calls.capabilities nodes).context.thunk? =
      some (.outlet ⟨r.base, info.props, r.loopPath⟩) := by
  have hp : (info.keys.outlet, Thunk.outlet ⟨r.base, info.props, r.loopPath⟩) ∈
      info.parts .calls := by
    rw [SlotInfo.parts, SlotInfo.outlet?_calls hr]
    exact List.mem_append_right _ List.mem_cons_self
  exact Template.annotate_thunk? nodes h hp

/-- Where nodes become calls, the key of a slot stands for its outlet. -/
theorem Template.annotate_outlet {info : SlotInfo} {fallback : List Node}
    (h : .slot info fallback ∈
      Node.withinAll (Template.annotate Family.calls.capabilities nodes).nodes) :
    ∃ outlet : OutletCall, outlet.props = info.props ∧ info.keys.outlet.bind
        (Template.annotate Family.calls.capabilities nodes).context.thunk? =
      some (.outlet outlet) := by
  obtain ⟨r, hr, -⟩ := Template.annotate_isResolved Family.calls.capabilities nodes _ h
  exact ⟨_, rfl, Template.annotate_resolved nodes h hr⟩

end UiTemplate
