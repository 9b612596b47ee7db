import UiTemplate.Proofs.Outlet.Identity
import UiTemplate.Proofs.Outlet.Sites
import UiTemplate.Template.Parse

/-!
# Outlets that are told apart

Rendering a template makes an outlet for each slot and each pass through the loops around it. Two
outlets of one rendering should not have one identity. The report exempts slots in different
branches of a chain; but inside a loop both branches render, in different passes, and so a slot can
take the identity of one inside more loops. `Outlet.identitiesUnique_iff` says that this is the only
way for outlets to be confused.
-/

namespace UiTemplate

/-! ## Identities of outlets -/

namespace SlotSite

variable {capabilities : Capabilities}

theorem identityAt_eq_some {s : SlotSite} {i : List Nat} {identity : String} :
    (s.resolution capabilities).identityAt i = some identity ↔
      ∃ name, Outlet.baseOf capabilities s.slot = .fixed name ∧
        Helper.outletIdentity name i = identity := by
  show Resolution.identityAt (Outlet.resolve _ _ _ _ _) i = _ ↔ _
  rw [Resolution.identityAt, Outlet.resolve]
  cases Outlet.baseOf capabilities s.slot <;> simp

/-- Slots whose outlets have an identity in common clash. -/
theorem clashes_of_identity_eq {s t : SlotSite} {i j : List Nat} {x y : String}
    (hs : Outlet.baseOf capabilities s.slot = .fixed x)
    (ht : Outlet.baseOf capabilities t.slot = .fixed y) (hi : i.length = s.loops.length)
    (hj : j.length = t.loops.length)
    (h : Helper.outletIdentity x i = Helper.outletIdentity y j) :
    s.clashes capabilities t = true := by
  have hoverlap := Outlet.namesOverlap_of_identity_eq h
  rw [hi, hj] at hoverlap
  simpa [clashes, hs, ht] using hoverlap

/-- The name of `s` spells the outlet of `t` at the positions `extra` in the outermost loops around
`t`, and the other loops are as many as there are around `s`. -/
def Spells (capabilities : Capabilities) (extra : List Nat) (s t : SlotSite) : Prop :=
  s.loops.length + extra.length = t.loops.length ∧
    ∃ name, Outlet.baseOf capabilities t.slot = .fixed name ∧
      Outlet.baseOf capabilities s.slot = .fixed (Helper.outletIdentity name extra)

end SlotSite

namespace Outlet

variable {capabilities : Capabilities} {nodes : List Node}

/-- Outlets of one rendering have different identities. If two slots with fixed names have one
identity at the positions `i` and `j` in the loops around them, then it is the same slot in the same
pass, or the two do not render together: they lie in different branches of a chain, in the same pass
through the loops around the chain. -/
def IdentitiesUnique (capabilities : Capabilities) (nodes : List Node) : Prop :=
  ∀ s ∈ Template.slotSites (Template.resolveSlots capabilities nodes),
  ∀ t ∈ Template.slotSites (Template.resolveSlots capabilities nodes),
  ∀ r, s.slot.resolution = some r → ∀ r', t.slot.resolution = some r' →
  ∀ i j, i.length = r.loopPath.length → j.length = r'.loopPath.length →
  ∀ identity, r.identityAt i = some identity → r'.identityAt j = some identity →
    (s = t ∧ i = j) ∨
      ∃ chain, s.PartedBy chain t ∧
        i.take (Template.loopsAround nodes chain) = j.take (Template.loopsAround nodes chain)

/-- No slot spells the outlet of a slot inside more loops that only chains inside loops part from
it. -/
def SpellingsApart (capabilities : Capabilities) (nodes : List Node) : Prop :=
  ∀ s ∈ Template.slotSites nodes, ∀ t ∈ Template.slotSites nodes,
    (∃ chain, s.PartedBy chain t) →
    (∀ chain, s.PartedBy chain t → 0 < Template.loopsAround nodes chain) →
    ∀ extra ≠ [], ¬s.Spells capabilities extra t

/-- Outlets with one identity, the first one inside at most as many loops as the second one. -/
theorem same_or_parted_of_le (h : NoCollision capabilities nodes)
    (hapart : SpellingsApart capabilities nodes) {s t : SlotSite}
    (hs : s ∈ Template.slotSites nodes) (ht : t ∈ Template.slotSites nodes) {i j : List Nat}
    (hi : i.length = s.loops.length) (hj : j.length = t.loops.length) {x y : String}
    (hx : baseOf capabilities s.slot = .fixed x) (hy : baseOf capabilities t.slot = .fixed y)
    (hid : Helper.outletIdentity x i = Helper.outletIdentity y j) (hl : i.length ≤ j.length) :
    (s = t ∧ i = j) ∨
      ∃ chain, s.PartedBy chain t ∧
        i.take (Template.loopsAround nodes chain) = j.take (Template.loopsAround nodes chain) := by
  have hparted (hne : s ≠ t) : ∃ chain, s.PartedBy chain t :=
    partedBy_of_noCollision h hs ht hne (SlotSite.clashes_of_identity_eq hx hy hi hj hid)
      (SlotSite.clashes_of_identity_eq hy hx hj hi hid.symm)
  obtain ⟨extra, rfl, rfl⟩ := (Helper.outletIdentity_eq_iff hl).mp hid
  by_cases hextra : extra = []
  · -- Equally many loops: the positions are the same, whatever chain parts the slots.
    subst hextra
    by_cases hst : s = t
    · exact .inl ⟨hst, rfl⟩
    · obtain ⟨chain, hchain⟩ := hparted hst
      exact .inr ⟨chain, hchain, rfl⟩
  · -- More loops around `t`: the chain that parts the slots is in no loop.
    have hlen : s.loops.length + extra.length = t.loops.length := by
      rw [← hj, List.length_append, hi, Nat.add_comm]
    have hne : s ≠ t := by
      rintro rfl
      have := List.length_pos_iff.mpr hextra
      omega
    by_contra hnot
    refine hapart s hs t ht (hparted hne) (fun chain hchain => ?_) extra hextra ⟨hlen, y, hy, hx⟩
    by_contra hzero
    have hnone : Template.loopsAround nodes chain = 0 := by omega
    exact hnot (.inr ⟨chain, hchain, by rw [hnone]; rfl⟩)

/-- A slot that spells the outlet of a slot inside more loops takes its identity in some pass, and
not in the same pass through the outermost loop. -/
theorem identity_shared_of_spells {s t : SlotSite} {extra : List Nat} (hextra : extra ≠ [])
    (h : s.Spells capabilities extra t) :
    ∃ i j identity, i.length = s.loops.length ∧ j.length = t.loops.length ∧
      (s.resolution capabilities).identityAt i = some identity ∧
      (t.resolution capabilities).identityAt j = some identity ∧
      ∀ n, 0 < n → i.take n ≠ j.take n := by
  obtain ⟨hlen, name, hy, hx⟩ := h
  obtain ⟨first, later, rfl⟩ := List.exists_cons_of_ne_nil hextra
  let i := List.replicate s.loops.length (first + 1)
  refine ⟨i, first :: later ++ i, Helper.outletIdentity name (first :: later ++ i), ?_, ?_, ?_, ?_, ?_⟩
  · simp [i]
  · simp only [List.length_append, i, List.length_replicate]
    omega
  · refine SlotSite.identityAt_eq_some.mpr ⟨_, hx, ?_⟩
    rw [Helper.outletIdentity_append]
  · exact SlotSite.identityAt_eq_some.mpr ⟨name, hy, rfl⟩
  · intro n hn htake
    obtain ⟨n, rfl⟩ := Nat.exists_eq_succ_of_ne_zero (Nat.pos_iff_ne_zero.mp hn)
    cases hloops : s.loops.length with
    | zero => simp [i, hloops] at htake
    | succ m => simp [i, hloops, List.replicate_succ] at htake

/-- A slot that spells the outlet of a slot inside more loops shares an identity with it. -/
theorem not_identitiesUnique_of_spells {s t : SlotSite} (hs : s ∈ Template.slotSites nodes)
    (ht : t ∈ Template.slotSites nodes)
    (hchains : ∀ chain, s.PartedBy chain t → 0 < Template.loopsAround nodes chain)
    {extra : List Nat} (hextra : extra ≠ []) (hspells : s.Spells capabilities extra t) :
    ¬IdentitiesUnique capabilities nodes := by
  intro hunique
  rw [IdentitiesUnique, Template.slotSites_resolveSlots] at hunique
  obtain ⟨i, j, identity, hi, hj, hsi, htj, htake⟩ := identity_shared_of_spells hextra hspells
  rcases hunique _ (List.mem_map_of_mem hs) _ (List.mem_map_of_mem ht) _ rfl _ rfl i j hi hj
    identity hsi htj with ⟨hst, -⟩ | ⟨chain, hchain, hagree⟩
  · have hloops : (s.resolved capabilities).loops = (t.resolved capabilities).loops := by rw [hst]
    change s.loops = t.loops at hloops
    have hlen := hspells.1
    have hpos := List.length_pos_iff.mpr hextra
    rw [hloops] at hlen
    omega
  · exact htake _ (hchains chain hchain) hagree

/-- **When outlets are told apart.** If the report on a tree has no collision, then the outlets of a
rendering have different identities exactly if no slot spells the outlet of a slot inside more loops
that only chains inside loops part from it. -/
theorem identitiesUnique_iff (h : NoCollision capabilities nodes) :
    IdentitiesUnique capabilities nodes ↔ SpellingsApart capabilities nodes := by
  constructor
  · intro hunique s hs t ht _ hchains extra hextra hspells
    exact not_identitiesUnique_of_spells hs ht hchains hextra hspells hunique
  · intro hapart
    rw [IdentitiesUnique, Template.slotSites_resolveSlots]
    intro s' hs' t' ht' r hr r' hr' i j hi hj identity hsi htj
    obtain ⟨s, hs, rfl⟩ := List.mem_map.mp hs'
    obtain ⟨t, ht, rfl⟩ := List.mem_map.mp ht'
    cases hr
    cases hr'
    obtain ⟨x, hx, hxi⟩ := SlotSite.identityAt_eq_some.mp hsi
    obtain ⟨y, hy, hyj⟩ := SlotSite.identityAt_eq_some.mp htj
    have hid := hxi.trans hyj.symm
    rcases Nat.le_total i.length j.length with hl | hl
    · rcases same_or_parted_of_le h hapart hs ht hi hj hx hy hid hl with ⟨rfl, hij⟩ | hchain
      · exact .inl ⟨rfl, hij⟩
      · exact .inr hchain
    · rcases same_or_parted_of_le h hapart ht hs hj hi hy hx hid.symm hl with
        ⟨rfl, hij⟩ | ⟨chain, hchain, hagree⟩
      · exact .inl ⟨rfl, hij.symm⟩
      · exact .inr ⟨chain, hchain.symm, hagree.symm⟩

/-- The two branches of a chain in a loop have a slot of one name. -/
def slotInEitherBranch : List Node :=
  let slot : Node := .slot ⟨some "a", none, [], [], true, none, {}, {}⟩ []
  [.loop { source := default, item := "x", index := none, depth := 0 }
    [.chain
      [.mk { kind := .onlyIf, condition := some default } [slot],
        .mk { kind := .otherwise, condition := none } [slot]]
      none {}]]

/-- Namesakes in the branches of one chain keep their outlets apart, as one of them at most is there
in each pass. -/
theorem identitiesUnique_slotInEitherBranch :
    NoCollision Platform.web.capabilities slotInEitherBranch ∧
      IdentitiesUnique Platform.web.capabilities slotInEitherBranch := by
  have hnone : NoCollision Platform.web.capabilities slotInEitherBranch :=
    fun d hd => absurd hd (List.not_mem_nil (a := d))
  refine ⟨hnone, (identitiesUnique_iff hnone).mpr fun s hs t ht _ _ extra hextra hspells => ?_⟩
  have hloops : ∀ s ∈ Template.slotSites slotInEitherBranch, s.loops.length = 1 := by decide
  have hlen := hspells.1
  have hpos := List.length_pos_iff.mpr hextra
  rw [hloops s hs, hloops t ht] at hlen
  omega

/-- A template whose outlets are not told apart, and whose report has no collision: in pass 2 the
first slot is `a-1-2`, and so is the second one in pass 1 of the outer and pass 2 of the inner
loop. -/
def slotsAcrossPasses : String :=
  "<view v-for=\"x in xs\"><slot v-if=\"x\" name=\"a-1\"/>" ++
    "<slot v-else v-for=\"y in ys\" name=\"a\"/></view>"

/-- Nothing is reported, but two slots share an outlet across passes. -/
theorem identities_shared_across_passes :
    ∃ nodes, Template.parse {} slotsAcrossPasses = .ok nodes ∧
      NoCollision Platform.web.capabilities nodes ∧
      ¬IdentitiesUnique Platform.web.capabilities nodes := by
  let web := Platform.web.capabilities
  have hfacts : ∃ nodes ∈ (Template.parse {} slotsAcrossPasses).toOption,
      (report web nodes).errors = [] ∧ Template.loopsAround nodes [0, 0, 0] = 1 ∧
      (Template.slotSites nodes).map (·.loops) = [[0], [0, 1]] ∧
      (Template.slotSites nodes).map (·.branches) = [[([0, 0, 0], 0)], [([0, 0, 0], 1)]] ∧
      (Template.slotSites nodes).map (fun s => (s.resolution web).identityAt []) =
        [some "a-1", some "a"] := by
    decide +kernel
  obtain ⟨nodes, hnodes, herrors, haround, hloops, hbranches, hnames⟩ := hfacts
  have hparse : Template.parse {} slotsAcrossPasses = .ok nodes := by
    cases hp : Template.parse {} slotsAcrossPasses with
    | error e => simp [hp, Except.toOption] at hnodes
    | ok ns => simpa [hp, Except.toOption] using hnodes
  refine ⟨nodes, hparse, fun d hd => absurd hd (by simp [web, herrors]), ?_⟩
  obtain ⟨s, rest, hsites, hs, hrest⟩ := List.map_eq_cons_iff.mp hloops
  obtain ⟨t, rest, rfl, ht, hnil⟩ := List.map_eq_cons_iff.mp hrest
  obtain rfl := List.map_eq_nil_iff.mp hnil
  simp only [hsites, List.map_cons, List.map_nil, List.cons.injEq, and_true] at hbranches hnames
  obtain ⟨x, hx, hxname⟩ := SlotSite.identityAt_eq_some.mp hnames.1
  obtain ⟨y, hy, hyname⟩ := SlotSite.identityAt_eq_some.mp hnames.2
  refine not_identitiesUnique_of_spells (s := s) (t := t) (by simp [hsites]) (by simp [hsites])
    (fun chain hchain => ?_) (List.cons_ne_nil 1 []) ⟨by simp [hs, ht], y, hy, ?_⟩
  · obtain ⟨i, j, hi, -, -⟩ := hchain
    rw [hbranches.1, List.mem_singleton] at hi
    cases hi
    omega
  · rw [hx]
    cases hxname
    cases hyname
    rfl

end Outlet

end UiTemplate
