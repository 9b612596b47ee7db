import Mathlib.Data.List.Pairwise
import UiTemplate.Outlet.Resolve

/-!
# Slots and what is around them

- `Template.slotSites_resolveSlots`: the slots of a tree with its slots resolved.
- `Outlet.partedBy_of_noCollision`: a report without collision says that a chain parts any two slots
  that clash.
-/

namespace UiTemplate

/-! ## Loops around a node -/

mutual

/-- The number of loops from a node, itself included, to the node at a path below it. -/
def Node.loopsTo : Node → Path → Nat
  | .element _ children, path => Node.loopsToAll children path
  | .slot _ fallback, path => Node.loopsToAll fallback path
  | .chain branches _ _, path => Branch.loopsToAll branches path
  | .loop _ _, [] => 0
  | .loop _ children, i :: path => Node.loopsToAll children (i :: path) + 1
  | _, _ => 0

/-- The number of loops around the node at a path that starts among siblings. -/
def Node.loopsToAll : List Node → Path → Nat
  | n :: _, 0 :: path => n.loopsTo path
  | _ :: ns, (i + 1) :: path => Node.loopsToAll ns (i :: path)
  | _, _ => 0

/-- The number of loops around the node at a path that starts among branches. -/
def Branch.loopsToAll : List Branch → Path → Nat
  | .mk _ children :: _, 0 :: path => Node.loopsToAll children path
  | _ :: bs, (i + 1) :: path => Branch.loopsToAll bs (i :: path)
  | _, _ => 0

end

/-- The number of loops around the node at a path of a tree. -/
def Template.loopsAround (nodes : List Node) (path : Path) : Nat :=
  Node.loopsToAll nodes path

/-! ## Slots of a tree with its slots resolved -/

/-- The branch right around a slot. -/
def SlotSite.innermost (branches : List (Path × Nat)) : Option Nat :=
  branches.getLast?.map Prod.snd

/-- The slot with its outlet, and its fallback with the outlets in it. -/
def SlotSite.resolved (capabilities : Capabilities) (s : SlotSite) : SlotSite :=
  { s with
    slot := { s.slot with resolution := some (s.resolution capabilities) }
    fallback := Node.resolveSlotsAll capabilities s.loops (innermost s.branches) s.fallback }

section Resolved

variable (capabilities : Capabilities)

mutual

theorem Node.slotSites_resolveSlots (path : Path) (loops : List Nat) (branches : List (Path × Nat))
    (n : Node) :
    (n.resolveSlots capabilities loops (SlotSite.innermost branches)).slotSites path loops branches =
      (n.slotSites path loops branches).map (SlotSite.resolved capabilities) := by
  match n with
  | .element info children =>
    rw [Node.resolveSlots, Node.slotSites, Node.slotSites, Node.slotSitesAll_resolveSlotsAll]
  | .text .. => rfl
  | .interpolation .. => rfl
  | .slot info fallback =>
    rw [Node.resolveSlots, Node.slotSites, Node.slotSites, Node.slotSitesAll_resolveSlotsAll]
    rfl
  | .chain members key l =>
    rw [Node.resolveSlots, Node.slotSites, Node.slotSites, Branch.slotSitesAll_resolveSlotsAll]
  | .loop info children =>
    rw [Node.resolveSlots, Node.slotSites, Node.slotSites, Node.slotSitesAll_resolveSlotsAll]
  | .comment .. => rfl

theorem Node.slotSitesAll_resolveSlotsAll (parent : Path) (index : Nat) (loops : List Nat)
    (branches : List (Path × Nat)) (ns : List Node) :
    Node.slotSitesAll parent index loops branches
        (Node.resolveSlotsAll capabilities loops (SlotSite.innermost branches) ns) =
      (Node.slotSitesAll parent index loops branches ns).map (SlotSite.resolved capabilities) := by
  match ns with
  | [] => rfl
  | n :: rest =>
    rw [Node.resolveSlotsAll, Node.slotSitesAll, Node.slotSitesAll, List.map_append,
      Node.slotSites_resolveSlots, Node.slotSitesAll_resolveSlotsAll]

theorem Branch.slotSitesAll_resolveSlotsAll (parent : Path) (index : Nat) (loops : List Nat)
    (branches : List (Path × Nat)) (bs : List Branch) :
    Branch.slotSitesAll parent index loops branches
        (Branch.resolveSlotsAll capabilities loops index bs) =
      (Branch.slotSitesAll parent index loops branches bs).map (SlotSite.resolved capabilities) := by
  match bs with
  | [] => rfl
  | .mk info children :: rest =>
    have hi : some index = SlotSite.innermost (branches ++ [(parent, index)]) := by
      simp [SlotSite.innermost]
    rw [Branch.resolveSlotsAll, Branch.slotSitesAll, Branch.slotSitesAll, List.map_append, hi,
      Node.slotSitesAll_resolveSlotsAll, Branch.slotSitesAll_resolveSlotsAll]

end

/-- Resolving writes into each slot what the slot, the loops and the branches around it say. -/
theorem Template.slotSites_resolveSlots (nodes : List Node) :
    Template.slotSites (Template.resolveSlots capabilities nodes) =
      (Template.slotSites nodes).map (SlotSite.resolved capabilities) :=
  Node.slotSitesAll_resolveSlotsAll capabilities [] 0 [] [] nodes

end Resolved

/-! ## What the report says about two slots -/

namespace SlotSite

/-- The slots lie in different branches of the chain at a path. -/
def PartedBy (chain : Path) (s t : SlotSite) : Prop :=
  ∃ i j, (chain, i) ∈ s.branches ∧ (chain, j) ∈ t.branches ∧ i ≠ j

theorem PartedBy.symm {chain : Path} {s t : SlotSite} (h : s.PartedBy chain t) :
    t.PartedBy chain s := by
  obtain ⟨i, j, hi, hj, hne⟩ := h
  exact ⟨j, i, hj, hi, hne.symm⟩

theorem isExclusive_iff {s t : SlotSite} :
    s.isExclusive t = true ↔ ∃ chain, s.PartedBy chain t := by
  simp only [isExclusive, List.any_eq_true, Bool.and_eq_true, beq_iff_eq, bne_iff_ne, PartedBy]
  constructor
  · rintro ⟨⟨chain, i⟩, hi, ⟨chain', j⟩, hj, rfl, hne⟩
    exact ⟨chain, i, j, hi, hj, hne⟩
  · rintro ⟨chain, i, j, hi, hj, hne⟩
    exact ⟨(chain, i), hi, (chain, j), hj, rfl, hne⟩

end SlotSite

namespace Outlet

/-- The report on the slots of a tree has no collision. -/
def NoCollision (capabilities : Capabilities) (nodes : List Node) : Prop :=
  ∀ d ∈ (report capabilities nodes).errors, d.fault.faultClass ≠ .slotCollision

/-- Slots without a collision have outlets that cannot meet, or a chain parts them. -/
theorem pairwise_of_faults {capabilities : Capabilities} {seen sites : List SlotSite}
    (h : ∀ d ∈ faults capabilities seen sites, d.fault.faultClass ≠ .slotCollision) :
    (∀ a ∈ seen, ∀ b ∈ sites, a.clashes capabilities b = true → a.isExclusive b = true) ∧
      sites.Pairwise fun a b => a.clashes capabilities b = true → a.isExclusive b = true := by
  induction sites generalizing seen with
  | nil => exact ⟨fun a _ b hb => absurd hb List.not_mem_nil, .nil⟩
  | cons s rest ih =>
    rw [faults] at h
    cases hc : s.collision? capabilities seen with
    | some earlier =>
      rw [hc] at h
      exact absurd rfl (h _ (List.mem_append_right _ List.mem_cons_self))
    | none =>
      rw [hc] at h
      obtain ⟨hseen, hrest⟩ := ih fun d hd => h d (List.mem_append_right _ hd)
      have hs : ∀ a ∈ seen, a.clashes capabilities s = true → a.isExclusive s = true := by
        intro a ha hclash
        have hnone := List.find?_eq_none.mp hc a ha
        simpa [hclash] using hnone
      constructor
      · intro a ha b hb
        rcases List.mem_cons.mp hb with rfl | hb
        · exact hs a ha
        · exact hseen a (List.mem_append_left _ ha) b hb
      · refine List.pairwise_cons.mpr ⟨fun b hb => ?_, hrest⟩
        exact hseen s (List.mem_append_right _ List.mem_cons_self) b hb

theorem partedBy_of_noCollision {capabilities : Capabilities} {nodes : List Node}
    (h : NoCollision capabilities nodes) {s t : SlotSite} (hs : s ∈ Template.slotSites nodes)
    (ht : t ∈ Template.slotSites nodes) (hne : s ≠ t) (hst : s.clashes capabilities t = true)
    (hts : t.clashes capabilities s = true) : ∃ chain, s.PartedBy chain t := by
  let Parted (a b : SlotSite) : Prop :=
    a.clashes capabilities b = true → b.clashes capabilities a = true → ∃ chain, a.PartedBy chain b
  have : Std.Symm Parted := by
    refine ⟨fun a b hab hba hab' => ?_⟩
    obtain ⟨chain, hchain⟩ := hab hab' hba
    exact ⟨chain, hchain.symm⟩
  have hfaults : ∀ d ∈ faults capabilities [] (Template.slotSites nodes),
      d.fault.faultClass ≠ .slotCollision := h
  have hpairs : (Template.slotSites nodes).Pairwise Parted :=
    (pairwise_of_faults hfaults).2.imp fun hab hclash _ =>
      SlotSite.isExclusive_iff.mp (hab hclash)
  exact hpairs.forall hs ht hne hst hts

end Outlet

end UiTemplate
