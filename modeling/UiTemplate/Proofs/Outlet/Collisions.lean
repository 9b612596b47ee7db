import UiTemplate.Proofs.Outlet.Positions

/-!
# What the report on slots says

The report goes through the slots once and keeps those that have not collided, to compare later ones
with. `Outlet.report_exact` says what comes of this in terms of the tree alone: which slots are
listed and in which order, which of them collide, and with which slot.

- `Outlet.CanMeet`, `Template.Parted`: two slots can have one outlet, and a chain keeps them from
  rendering together.
- `Outlet.Bars`: a slot stands in the way of a later one.
- `Outlet.verdicts`: the slots with what the report finds on each.
-/

namespace UiTemplate

/-! ## Two slots of a tree -/

/-- The paths go through different branches of one chain, so that what they lead to never renders
together. -/
def Template.Parted (nodes : List Node) (p q : Path) : Prop :=
  ∃ chain i j, Passes nodes p (chain, i) ∧ Passes nodes q (chain, j) ∧ i ≠ j

namespace Outlet

/-- Two slots can have one outlet, given the loops around each. Fixed names meet if they overlap at
these depths, computed ones if they are written alike and the depths are the same. A fixed name and
a computed one are never held to meet. -/
def Meet (capabilities : Capabilities) (a : SlotInfo) (m : Nat) (b : SlotInfo) (n : Nat) : Prop :=
  match baseOf capabilities a, baseOf capabilities b with
  | .fixed x, .fixed y => namesOverlap x.toList m y.toList n = true
  | .computed x, .computed y => x.source = y.source ∧ m = n
  | _, _ => False

/-- The paths lead to slots that can have one outlet. -/
def CanMeet (capabilities : Capabilities) (nodes : List Node) (p q : Path) : Prop :=
  ∃ a fallback b fallback', Template.reach? nodes p = some (.slot a fallback) ∧
    Template.reach? nodes q = some (.slot b fallback') ∧
    Meet capabilities a (Template.loopsAround nodes p) b (Template.loopsAround nodes q)

/-- How messages show the name of an outlet. -/
def shown : OutletBase → String
  | .fixed name => name
  | .computed e => e.source

/-- The report has a collision at a path. -/
def Collides (capabilities : Capabilities) (nodes : List Node) (path : Path) : Prop :=
  ∃ d ∈ (report capabilities nodes).errors, d.path = path ∧ d.fault.faultClass = .slotCollision

/-- The slot at `q` stands in the way of the one at `p`: it comes before it, is not reported itself,
can render together with it, and then they can have one outlet. -/
structure Bars (capabilities : Capabilities) (nodes : List Node) (q p : Path) : Prop where
  earlier : q < p
  stays : ¬Collides capabilities nodes q
  together : ¬Template.Parted nodes q p
  meets : CanMeet capabilities nodes q p

/-! ## Verdicts -/

/-- A slot with the earlier one that it collides with, if there is one. -/
structure Verdict where
  slot : SlotSite
  other : Option SlotSite

/-- What is wrong with a slot. -/
def Verdict.faults (capabilities : Capabilities) (v : Verdict) : List Diagnostic :=
  v.slot.eventFault?.toList ++ v.other.toList.map fun earlier =>
    ⟨.collision (v.slot.shownName capabilities) earlier.path, v.slot.path, v.slot.slot.location⟩

/-- What the report finds on each slot, given the slots before them that do not collide. -/
def verdicts (capabilities : Capabilities) (seen : List SlotSite) : List SlotSite → List Verdict
  | [] => []
  | s :: rest =>
    match s.collision? capabilities seen with
    | some earlier => ⟨s, some earlier⟩ :: verdicts capabilities seen rest
    | none => ⟨s, none⟩ :: verdicts capabilities (seen ++ [s]) rest

/-- The slots that do not collide. -/
def kept (vs : List Verdict) : List SlotSite :=
  (vs.filter fun v => v.other.isNone).map Verdict.slot

section Verdicts

variable {capabilities : Capabilities} {seen sites : List SlotSite}

theorem faults_eq_flatMap : faults capabilities seen sites =
    (verdicts capabilities seen sites).flatMap (Verdict.faults capabilities) := by
  induction sites generalizing seen with
  | nil => rfl
  | cons s rest ih =>
    rw [faults, verdicts]
    cases h : s.collision? capabilities seen with
    | some earlier => simp [Verdict.faults, ih]
    | none => simp [Verdict.faults, ih]

theorem verdicts_slots : (verdicts capabilities seen sites).map Verdict.slot = sites := by
  induction sites generalizing seen with
  | nil => rfl
  | cons s rest ih =>
    rw [verdicts]
    cases h : s.collision? capabilities seen with
    | some earlier => simp [ih]
    | none => simp [ih]

/-- A slot is compared with the slots before it that do not collide. -/
theorem verdicts_other {before after : List Verdict} {v : Verdict}
    (h : verdicts capabilities seen sites = before ++ v :: after) :
    v.other = v.slot.collision? capabilities (seen ++ kept before) := by
  induction sites generalizing seen before with
  | nil =>
    rw [verdicts] at h
    simp at h
  | cons s rest ih =>
    rw [verdicts] at h
    cases hc : s.collision? capabilities seen with
    | some earlier =>
      rw [hc] at h
      cases before with
      | nil =>
        obtain ⟨rfl, -⟩ := List.cons.inj h
        simpa [kept] using hc.symm
      | cons w before =>
        obtain ⟨rfl, hrest⟩ := List.cons.inj h
        simpa [kept] using ih hrest
    | none =>
      rw [hc] at h
      cases before with
      | nil =>
        obtain ⟨rfl, -⟩ := List.cons.inj h
        simpa [kept] using hc.symm
      | cons w before =>
        obtain ⟨rfl, hrest⟩ := List.cons.inj h
        simpa [kept] using ih hrest

end Verdicts

/-! ## The report on a tree -/

section Report

variable {capabilities : Capabilities} {nodes : List Node}

/-- What the report finds on the slots of a tree. -/
def verdictsOn (capabilities : Capabilities) (nodes : List Node) : List Verdict :=
  verdicts capabilities [] (Template.slotSites nodes)

theorem verdictsOn_increasing (capabilities : Capabilities) (nodes : List Node) :
    (verdictsOn capabilities nodes).Pairwise fun v w => v.slot.path < w.slot.path := by
  have hslots : SlotSite.Increasing ((verdictsOn capabilities nodes).map Verdict.slot) := by
    rw [verdictsOn, verdicts_slots]
    exact Template.slotSites_increasing nodes
  rwa [SlotSite.Increasing, List.pairwise_map] at hslots

theorem slot_mem_slotSites {v : Verdict} (hv : v ∈ verdictsOn capabilities nodes) :
    v.slot ∈ Template.slotSites nodes := by
  have h := List.mem_map_of_mem (f := Verdict.slot) hv
  rwa [verdictsOn, verdicts_slots] at h

variable (capabilities) in
theorem exists_verdict {s : SlotSite} (hs : s ∈ Template.slotSites nodes) :
    ∃ v ∈ verdictsOn capabilities nodes, v.slot = s := by
  refine List.mem_map.mp ?_
  rwa [verdictsOn, verdicts_slots]

/-- The collisions of the report are those of its verdicts. -/
theorem mem_errors_iff {d : Diagnostic} :
    d ∈ (report capabilities nodes).errors ∧ d.fault.faultClass = .slotCollision ↔
      ∃ v ∈ verdictsOn capabilities nodes, ∃ earlier, v.other = some earlier ∧
        d = ⟨.collision (v.slot.shownName capabilities) earlier.path, v.slot.path,
          v.slot.slot.location⟩ := by
  have hevent {s : SlotSite} {d : Diagnostic} (h : s.eventFault? = some d) :
      d.fault.faultClass = .slotEvent := by
    obtain ⟨b, -, rfl⟩ := Option.map_eq_some_iff.mp h
    rfl
  show d ∈ faults capabilities [] (Template.slotSites nodes) ∧ _ ↔ _
  rw [faults_eq_flatMap, List.mem_flatMap]
  constructor
  · rintro ⟨⟨v, hv, hd⟩, hclass⟩
    rcases List.mem_append.mp hd with hd | hd
    · rw [hevent (Option.mem_toList.mp hd)] at hclass
      cases hclass
    · obtain ⟨earlier, he, rfl⟩ := List.mem_map.mp hd
      exact ⟨v, hv, earlier, Option.mem_toList.mp he, rfl⟩
  · rintro ⟨v, hv, earlier, he, rfl⟩
    refine ⟨⟨v, hv, List.mem_append_right _ ?_⟩, rfl⟩
    exact List.mem_map.mpr ⟨earlier, Option.mem_toList.mpr he, rfl⟩

/-- Only one slot has a path. -/
theorem eq_of_path_eq {v w : Verdict} (hv : v ∈ verdictsOn capabilities nodes)
    (hw : w ∈ verdictsOn capabilities nodes) (h : v.slot.path = w.slot.path) : v = w := by
  by_contra hne
  have hpairs : (verdictsOn capabilities nodes).Pairwise
      fun v w => v.slot.path ≠ w.slot.path := by
    refine (verdictsOn_increasing capabilities nodes).imp fun {v w} hlt heq => ?_
    rw [heq] at hlt
    exact List.lt_irrefl _ hlt
  have : Std.Symm fun v w : Verdict => v.slot.path ≠ w.slot.path := ⟨fun _ _ hne => hne.symm⟩
  exact hpairs.forall hv hw hne h

theorem collides_iff {v : Verdict} (hv : v ∈ verdictsOn capabilities nodes) :
    Collides capabilities nodes v.slot.path ↔ v.other.isSome := by
  constructor
  · rintro ⟨d, hd, hpath, hclass⟩
    obtain ⟨w, hw, earlier, hother, rfl⟩ := mem_errors_iff.mp ⟨hd, hclass⟩
    rw [← eq_of_path_eq hw hv hpath, hother]
    rfl
  · intro h
    obtain ⟨earlier, hother⟩ := Option.isSome_iff_exists.mp h
    have hd := mem_errors_iff.mpr ⟨v, hv, earlier, hother, rfl⟩
    exact ⟨_, hd.1, rfl, hd.2⟩

/-- The slots that a slot is compared with are those before it that the report has no collision
at. -/
theorem mem_kept_iff {before after : List Verdict} {v : Verdict}
    (h : verdictsOn capabilities nodes = before ++ v :: after) {t : SlotSite} :
    t ∈ kept before ↔ t ∈ Template.slotSites nodes ∧ t.path < v.slot.path ∧
      ¬Collides capabilities nodes t.path := by
  have hpairs := verdictsOn_increasing capabilities nodes
  rw [h, List.pairwise_append] at hpairs
  have hmem {w : Verdict} (hw : w ∈ before) : w ∈ verdictsOn capabilities nodes := by
    rw [h]
    exact List.mem_append_left _ hw
  constructor
  · intro ht
    obtain ⟨w, hw, rfl⟩ := List.mem_map.mp ht
    obtain ⟨hw, hother⟩ := List.mem_filter.mp hw
    refine ⟨slot_mem_slotSites (hmem hw), hpairs.2.2 w hw v List.mem_cons_self, ?_⟩
    rw [collides_iff (hmem hw)]
    simpa using hother
  · rintro ⟨ht, hlt, hstays⟩
    obtain ⟨w, hw, rfl⟩ := exists_verdict capabilities ht
    rw [collides_iff hw] at hstays
    refine List.mem_map.mpr ⟨w, List.mem_filter.mpr ⟨?_, by simpa using hstays⟩, rfl⟩
    rw [h] at hw
    rcases List.mem_append.mp hw with hw | hw
    · exact hw
    · -- Neither the slot itself nor a later one is before it.
      rcases List.mem_cons.mp hw with rfl | hw
      · exact absurd hlt (List.lt_irrefl _)
      · exact absurd hlt (List.lt_asymm ((List.pairwise_cons.mp hpairs.2.1).1 w hw))

theorem clashes_iff {s t : SlotSite} :
    s.clashes capabilities t = true ↔
      Meet capabilities s.slot s.loops.length t.slot t.loops.length := by
  rw [SlotSite.clashes, Meet]
  cases baseOf capabilities s.slot <;> cases baseOf capabilities t.slot <;> simp

theorem isExclusive_iff_parted {s t : SlotSite} (hs : s ∈ Template.slotSites nodes)
    (ht : t ∈ Template.slotSites nodes) :
    s.isExclusive t = true ↔ Template.Parted nodes s.path t.path := by
  simp only [SlotSite.isExclusive_iff, SlotSite.PartedBy, Template.Parted,
    (Template.slotSites_reach hs).2.2, (Template.slotSites_reach ht).2.2]

theorem canMeet_iff {s t : SlotSite} (hs : s ∈ Template.slotSites nodes)
    (ht : t ∈ Template.slotSites nodes) :
    CanMeet capabilities nodes s.path t.path ↔ s.clashes capabilities t = true := by
  obtain ⟨hs, hsl, -⟩ := Template.slotSites_reach hs
  obtain ⟨ht, htl, -⟩ := Template.slotSites_reach ht
  rw [clashes_iff, hsl, htl]
  constructor
  · rintro ⟨a, fallback, b, fallback', ha, hb, h⟩
    cases hs.symm.trans ha
    cases ht.symm.trans hb
    exact h
  · exact fun h => ⟨_, _, _, _, hs, ht, h⟩

/-- What stands in the way of a slot are the slots that it is compared with and that the comparison
holds against it. -/
theorem bars_iff {before after : List Verdict} {v : Verdict}
    (h : verdictsOn capabilities nodes = before ++ v :: after) {q : Path} :
    Bars capabilities nodes q v.slot.path ↔ ∃ t ∈ kept before, t.path = q ∧
      (t.clashes capabilities v.slot && !t.isExclusive v.slot) = true := by
  have hv : v.slot ∈ Template.slotSites nodes := by
    have hmem : v ∈ verdictsOn capabilities nodes := by
      rw [h]
      exact List.mem_append_right _ List.mem_cons_self
    exact slot_mem_slotSites hmem
  constructor
  · intro hb
    obtain ⟨a, fallback, b, fallback', ha, -, -⟩ := hb.meets
    obtain ⟨t, ht, rfl⟩ := Template.exists_slotSite ha
    refine ⟨t, (mem_kept_iff h).mpr ⟨ht, hb.earlier, hb.stays⟩, rfl, ?_⟩
    have hmeets := (canMeet_iff ht hv).mp hb.meets
    have htogether := mt (isExclusive_iff_parted ht hv).mp hb.together
    simp [hmeets, htogether]
  · rintro ⟨t, ht, rfl, hmeet⟩
    obtain ⟨ht, hlt, hstays⟩ := (mem_kept_iff h).mp ht
    obtain ⟨hclash, hexclusive⟩ := Bool.and_eq_true_iff.mp hmeet
    refine ⟨hlt, hstays, fun hparted => ?_, (canMeet_iff ht hv).mpr hclash⟩
    rw [(isExclusive_iff_parted ht hv).mpr hparted] at hexclusive
    cases hexclusive

/-- A slot collides with another one exactly if this is the first slot that stands in its way. -/
theorem other_eq_some_iff {before after : List Verdict} {v : Verdict}
    (h : verdictsOn capabilities nodes = before ++ v :: after) {q : Path} :
    (∃ earlier, v.other = some earlier ∧ earlier.path = q) ↔
      Bars capabilities nodes q v.slot.path ∧
        ∀ q', Bars capabilities nodes q' v.slot.path → ¬q' < q := by
  have hother : v.other = v.slot.collision? capabilities (kept before) := verdicts_other h
  have hsorted : (kept before).Pairwise fun s t => s.path < t.path := by
    have hpairs := verdictsOn_increasing capabilities nodes
    rw [h, List.pairwise_append] at hpairs
    exact List.pairwise_map.mpr (hpairs.1.sublist List.filter_sublist)
  rw [hother, SlotSite.collision?]
  constructor
  · rintro ⟨earlier, hfind, rfl⟩
    obtain ⟨hmeet, skipped, rest, hkept, hskipped⟩ := List.find?_eq_some_iff_append.mp hfind
    have hmem : earlier ∈ kept before := List.mem_of_find?_eq_some hfind
    refine ⟨(bars_iff h).mpr ⟨earlier, hmem, rfl, hmeet⟩, fun q' hq' hlt => ?_⟩
    obtain ⟨t, ht, rfl, hmeet'⟩ := (bars_iff h).mp hq'
    rw [hkept] at ht hsorted
    rcases List.mem_append.mp ht with ht | ht
    · have hfalse := hskipped t ht
      rw [hmeet'] at hfalse
      cases hfalse
    · rcases List.mem_cons.mp ht with rfl | ht
      · exact List.lt_irrefl _ hlt
      · have hlater := (List.pairwise_cons.mp (List.pairwise_append.mp hsorted).2.1).1 t ht
        exact List.lt_asymm hlater hlt
  · rintro ⟨hb, hfirst⟩
    obtain ⟨t, ht, rfl, hmeet⟩ := (bars_iff h).mp hb
    obtain ⟨u, hu⟩ := Option.isSome_iff_exists.mp (List.find?_isSome
      (p := fun u => u.clashes capabilities v.slot && !u.isExclusive v.slot).mpr ⟨t, ht, hmeet⟩)
    have hmem : u ∈ kept before := List.mem_of_find?_eq_some hu
    refine ⟨u, hu, ?_⟩
    obtain ⟨hmeet', skipped, rest, hkept, hskipped⟩ := List.find?_eq_some_iff_append.mp hu
    -- The slot that is found stands in the way as well, so it is not before `t`.
    have hnot := hfirst u.path ((bars_iff h).mpr ⟨u, hmem, rfl, hmeet'⟩)
    rw [hkept] at ht hsorted
    rcases List.mem_append.mp ht with ht | ht
    · have hfalse := hskipped t ht
      rw [hmeet] at hfalse
      cases hfalse
    · rcases List.mem_cons.mp ht with rfl | ht
      · rfl
      · exact absurd ((List.pairwise_cons.mp (List.pairwise_append.mp hsorted).2.1).1 t ht) hnot

/-- An outlet is listed as what the slot at its path is resolved to. -/
structure Lists (capabilities : Capabilities) (nodes : List Node) (o : OutletSummary) (info : SlotInfo)
    (fallback : List Node) : Prop where
  reach : Template.reach? nodes o.path = some (.slot info fallback)
  base_eq : o.base = baseOf capabilities info
  iterated_iff : o.iterated = true ↔ 0 < Template.loopsAround nodes o.path
  fallback_eq : o.fallback = policyFor capabilities fallback

theorem exists_lists {o : OutletSummary} (ho : o ∈ (report capabilities nodes).outlets) :
    ∃ info fallback, Lists capabilities nodes o info fallback := by
  obtain ⟨s, hs, rfl⟩ := List.mem_map.mp ho
  obtain ⟨hreach, hloops, -⟩ := Template.slotSites_reach hs
  refine ⟨s.slot, s.fallback, hreach, rfl, ?_, rfl⟩
  show (!s.loops.isEmpty) = true ↔ 0 < Template.loopsAround nodes s.path
  rw [← hloops, List.length_pos_iff]
  simp

theorem outlets_paths : (report capabilities nodes).outlets.map OutletSummary.path =
    (Template.slotSites nodes).map SlotSite.path := by
  show ((Template.slotSites nodes).map (summarize capabilities)).map OutletSummary.path = _
  rw [List.map_map]
  rfl

/-- The collision that the report finds at a slot is with the first one that stands in its way. -/
theorem collision_names_first {d : Diagnostic} (hd : d ∈ (report capabilities nodes).errors)
    (hclass : d.fault.faultClass = .slotCollision) :
    ∃ info fallback q, Template.reach? nodes d.path = some (.slot info fallback) ∧
      d.fault = .collision (shown (baseOf capabilities info)) q ∧ d.location = info.location ∧
      Bars capabilities nodes q d.path ∧ ∀ q', Bars capabilities nodes q' d.path → ¬q' < q := by
  obtain ⟨v, hv, earlier, hother, rfl⟩ := mem_errors_iff.mp ⟨hd, hclass⟩
  obtain ⟨before, after, h⟩ := List.append_of_mem hv
  obtain ⟨hbars, hfirst⟩ := (other_eq_some_iff h).mp ⟨earlier, hother, rfl⟩
  exact ⟨_, _, _, (Template.slotSites_reach (slot_mem_slotSites hv)).1, rfl, rfl, hbars, hfirst⟩

theorem collides_iff_bars {path : Path} :
    Collides capabilities nodes path ↔ ∃ q, Bars capabilities nodes q path := by
  constructor
  · rintro ⟨d, hd, rfl, hclass⟩
    obtain ⟨-, -, q, -, -, -, hbars, -⟩ := collision_names_first hd hclass
    exact ⟨q, hbars⟩
  · rintro ⟨q, hbars⟩
    obtain ⟨-, -, info, fallback, -, hreach, -⟩ := hbars.meets
    obtain ⟨s, hs, rfl⟩ := Template.exists_slotSite hreach
    obtain ⟨v, hv, rfl⟩ := exists_verdict capabilities hs
    obtain ⟨before, after, h⟩ := List.append_of_mem hv
    obtain ⟨t, ht, -, hmeet⟩ := (bars_iff h).mp hbars
    have hother : v.other = v.slot.collision? capabilities (kept before) := verdicts_other h
    rw [collides_iff hv, hother, SlotSite.collision?, List.find?_isSome]
    exact ⟨t, ht, hmeet⟩

end Report

/-- **What the report says.** It lists the slots of the tree in the order of the text, each once,
with what each is resolved to. A slot collides exactly if an earlier one stands in its way: one that
is not reported itself, is in no other branch of a chain with it, and can have the same outlet. The
message names the first such slot. -/
theorem report_exact (capabilities : Capabilities) (nodes : List Node) :
    let r := report capabilities nodes
    (r.outlets.map OutletSummary.path).Pairwise (· < ·) ∧
      (∀ path, path ∈ r.outlets.map OutletSummary.path ↔
        ∃ info fallback, Template.reach? nodes path = some (.slot info fallback)) ∧
      (∀ o ∈ r.outlets, ∃ info fallback, Lists capabilities nodes o info fallback) ∧
      (∀ path, Collides capabilities nodes path ↔ ∃ q, Bars capabilities nodes q path) ∧
      ∀ d ∈ r.errors, d.fault.faultClass = .slotCollision → ∃ info fallback q,
        Template.reach? nodes d.path = some (.slot info fallback) ∧
        d.fault = .collision (shown (baseOf capabilities info)) q ∧ d.location = info.location ∧
        Bars capabilities nodes q d.path ∧ ∀ q', Bars capabilities nodes q' d.path → ¬q' < q := by
  refine ⟨?_, fun path => ?_, fun o ho => exists_lists ho, fun path => collides_iff_bars,
    fun d hd hclass => collision_names_first hd hclass⟩
  · rw [outlets_paths]
    exact List.pairwise_map.mpr (Template.slotSites_increasing nodes)
  · rw [outlets_paths, List.mem_map]
    constructor
    · rintro ⟨s, hs, rfl⟩
      exact ⟨_, _, (Template.slotSites_reach hs).1⟩
    · rintro ⟨info, fallback, h⟩
      exact Template.exists_slotSite h

/-- Slots of two names: one in the fallback of its namesake, one in a loop, two in the branches of a
chain, and a last one after all of them. -/
def namesakes : List Node :=
  let slot (name : String) (fallback : List Node) : Node :=
    .slot ⟨some name, none, [], [], false, none, {}, {}⟩ fallback
  [slot "a" [slot "a" []],
    .loop { source := default, item := "x", index := none, depth := 0 } [slot "a" []],
    .chain
      [.mk { kind := .onlyIf, condition := some default } [slot "b" []],
        .mk { kind := .otherwise, condition := none } [slot "b" []]]
      none {},
    slot "b" []]

/-- A slot of each name is barred by an earlier one, and the slot in the loop is not. -/
theorem report_exact_namesakes :
    Bars Platform.web.capabilities namesakes [0] [0, 0] ∧
      Bars Platform.web.capabilities namesakes [2, 0, 0] [3] ∧
      ∀ q, ¬Bars Platform.web.capabilities namesakes q [1, 0] := by
  obtain ⟨-, -, -, hcollides, hfirst⟩ := report_exact Platform.web.capabilities namesakes
  have herrors : (report Platform.web.capabilities namesakes).errors =
      [⟨.collision "a" [0], [0, 0], {}⟩, ⟨.collision "b" [2, 0, 0], [3], {}⟩] := by decide
  rw [herrors] at hfirst
  refine ⟨?_, ?_, fun q hbars => ?_⟩
  · obtain ⟨info, fallback, q, -, hfault, -, hbars, -⟩ := hfirst _ List.mem_cons_self rfl
    obtain ⟨-, rfl⟩ := CompileFault.collision.inj hfault
    exact hbars
  · obtain ⟨info, fallback, q, -, hfault, -, hbars, -⟩ :=
      hfirst _ (List.mem_cons_of_mem _ List.mem_cons_self) rfl
    obtain ⟨-, rfl⟩ := CompileFault.collision.inj hfault
    exact hbars
  · obtain ⟨d, hd, hpath, -⟩ := (hcollides [1, 0]).mpr ⟨q, hbars⟩
    rw [herrors] at hd
    simp only [List.mem_cons, List.not_mem_nil, or_false] at hd
    obtain rfl | rfl := hd <;> cases hpath

end Outlet

end UiTemplate
