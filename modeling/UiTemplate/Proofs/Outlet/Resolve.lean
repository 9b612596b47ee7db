import UiTemplate.Outlet.Resolve
import UiTemplate.Proofs.Template.Tree

/-!
# Slots that are resolved

- `Node.resolveSlotsAll_strip`: resolving changes nothing but the outlets of slots.
- `Node.resolveSlotsAll_isResolved`: afterwards every slot has its outlet.
-/

namespace UiTemplate

mutual

theorem Node.resolveSlots_strip (capabilities : Capabilities) (loops : List Nat)
    (branch : Option Nat) (n : Node) :
    (n.resolveSlots capabilities loops branch).strip SlotInfo.plain = n.strip SlotInfo.plain := by
  match n with
  | .element info children =>
    rw [Node.resolveSlots, Node.strip, Node.strip, Node.resolveSlotsAll_strip]
  | .text .. => rfl
  | .interpolation .. => rfl
  | .slot info fallback =>
    rw [Node.resolveSlots, Node.strip, Node.strip, Node.resolveSlotsAll_strip]
    rfl
  | .chain branches key l =>
    rw [Node.resolveSlots, Node.strip, Node.strip, Branch.resolveSlotsAll_strip]
  | .loop info children =>
    rw [Node.resolveSlots, Node.strip, Node.strip, Node.resolveSlotsAll_strip]
  | .comment .. => rfl

/-- Resolving changes nothing but the outlets of slots. -/
theorem Node.resolveSlotsAll_strip (capabilities : Capabilities) (loops : List Nat)
    (branch : Option Nat) (ns : List Node) :
    Node.stripAll SlotInfo.plain (Node.resolveSlotsAll capabilities loops branch ns) =
      Node.stripAll SlotInfo.plain ns := by
  match ns with
  | [] => rfl
  | n :: rest =>
    rw [Node.resolveSlotsAll, Node.stripAll, Node.stripAll, Node.resolveSlots_strip,
      Node.resolveSlotsAll_strip]

theorem Branch.resolveSlotsAll_strip (capabilities : Capabilities) (loops : List Nat) (index : Nat)
    (bs : List Branch) :
    Branch.stripAll SlotInfo.plain (Branch.resolveSlotsAll capabilities loops index bs) =
      Branch.stripAll SlotInfo.plain bs := by
  match bs with
  | [] => rfl
  | .mk info children :: rest =>
    rw [Branch.resolveSlotsAll, Branch.stripAll, Branch.stripAll, Node.resolveSlotsAll_strip,
      Branch.resolveSlotsAll_strip]

end

/-- A slot has its outlet. A fallback is emitted beside the outlet, where the runtime cannot tell
whether the outlet has content. -/
def Node.IsResolved (capabilities : Capabilities) : Node → Prop
  | .slot info fallback =>
    ∃ r, info.resolution = some r ∧
      (capabilities.introspectsOutlets = false → fallback ≠ [] → r.fallback = .dualBranch)
  | _ => True

theorem Outlet.policyFor_eq_dualBranch {capabilities : Capabilities} {fallback : List Node}
    (hi : capabilities.introspectsOutlets = false) (hf : fallback ≠ []) :
    policyFor capabilities fallback = .dualBranch := by
  rw [policyFor, if_neg (by simpa using hf), hi]
  rfl

theorem Node.resolveSlotsAll_eq_nil {capabilities : Capabilities} {loops : List Nat}
    {branch : Option Nat} {ns : List Node} :
    Node.resolveSlotsAll capabilities loops branch ns = [] ↔ ns = [] := by
  cases ns <;> simp [Node.resolveSlotsAll]

mutual

theorem Node.resolveSlots_isResolved (capabilities : Capabilities) (loops : List Nat)
    (branch : Option Nat) (n : Node) :
    ∀ m ∈ (n.resolveSlots capabilities loops branch).within, m.IsResolved capabilities := by
  match n with
  | .element info children =>
    rw [Node.resolveSlots, Node.within, List.forall_mem_cons]
    exact ⟨trivial, Node.resolveSlotsAll_isResolved capabilities loops branch children⟩
  | .text .. => exact List.forall_mem_singleton.mpr trivial
  | .interpolation .. => exact List.forall_mem_singleton.mpr trivial
  | .slot info fallback =>
    rw [Node.resolveSlots, Node.within, List.forall_mem_cons]
    refine ⟨⟨_, rfl, fun hi hf => ?_⟩,
      Node.resolveSlotsAll_isResolved capabilities loops branch fallback⟩
    exact Outlet.policyFor_eq_dualBranch hi (mt Node.resolveSlotsAll_eq_nil.mpr hf)
  | .chain branches key l =>
    rw [Node.resolveSlots, Node.within, List.forall_mem_cons]
    exact ⟨trivial, Branch.resolveSlotsAll_isResolved capabilities loops 0 branches⟩
  | .loop info children =>
    rw [Node.resolveSlots, Node.within, List.forall_mem_cons]
    exact ⟨trivial, Node.resolveSlotsAll_isResolved capabilities _ branch children⟩
  | .comment .. => exact List.forall_mem_singleton.mpr trivial

/-- Every slot has its outlet afterwards. -/
theorem Node.resolveSlotsAll_isResolved (capabilities : Capabilities) (loops : List Nat)
    (branch : Option Nat) (ns : List Node) :
    ∀ m ∈ Node.withinAll (Node.resolveSlotsAll capabilities loops branch ns),
      m.IsResolved capabilities := by
  match ns with
  | [] => exact fun m hm => absurd hm List.not_mem_nil
  | n :: rest =>
    rw [Node.resolveSlotsAll, Node.withinAll, List.forall_mem_append]
    exact ⟨Node.resolveSlots_isResolved capabilities loops branch n,
      Node.resolveSlotsAll_isResolved capabilities loops branch rest⟩

theorem Branch.resolveSlotsAll_isResolved (capabilities : Capabilities) (loops : List Nat)
    (index : Nat) (bs : List Branch) :
    ∀ m ∈ Branch.withinAll (Branch.resolveSlotsAll capabilities loops index bs),
      m.IsResolved capabilities := by
  match bs with
  | [] => exact fun m hm => absurd hm List.not_mem_nil
  | .mk info children :: rest =>
    rw [Branch.resolveSlotsAll, Branch.withinAll, List.forall_mem_append]
    exact ⟨Node.resolveSlotsAll_isResolved capabilities loops (some index) children,
      Branch.resolveSlotsAll_isResolved capabilities loops (index + 1) rest⟩

end

end UiTemplate
