import UiTemplate.Proofs.Compile.Annotate
import UiTemplate.Proofs.Outlet.Sites
import UiTemplate.Proofs.Template.Path
import UiTemplate.Proofs.Template.Shape

/-!
# Where the report on slots points

- `Diagnostic.Blames`: a node is what a fault is about. By `Diagnostic.Blames.located` it has the
  location of the fault, itself or at a directive.
- `Template.slotSites_at`: the path of a slot leads to the slot.
- `Template.outlets_lead`, `Template.slotErrors_lead`: the paths in the report lead to the slots that
  it is about, in the tree that the backends get.
-/

namespace UiTemplate

/-! ## Nodes at fault -/

/-- The directives of an element or of a slot. -/
def Node.directives : Node → List Directive
  | .element info _ => info.directives
  | .slot info _ => info.directives
  | _ => []

/-- A value of the given kind and name is bound by the directive at a location. -/
def BindsAt (directives : List Directive) (kind : BindingKind) (name : String)
    (location : Location) : Prop :=
  ∃ b ∈ bindings directives, b.kind = kind ∧ b.name = name ∧ b.location = location

/-- The node is what the fault is about, and the location is that of the node, or that of the
directive of the node that is at fault. -/
def Diagnostic.Blames (d : Diagnostic) (n : Node) : Prop :=
  match d.fault with
  | .unsupportedDirective name => ∃ value, Directive.unsupported name value d.location ∈ n.directives
  | .unresolvedSlot => ∃ info fallback, n = .slot info fallback ∧ info.location = d.location
  | .handlerNotNamed event =>
    ∃ info children, n = .element info children ∧ BindsAt info.directives .event event d.location
  | .htmlInMarkup =>
    ∃ info children name, n = .element info children ∧ BindsAt info.directives .html name d.location
  | .collision _ _ => ∃ info fallback, n = .slot info fallback ∧ info.location = d.location
  | .emissionMode _ _ => False
  | .htmlAndChildren tag =>
    ∃ info children, n = .element info children ∧ info.tag = tag ∧ info.location = d.location ∧
      (∃ b ∈ bindings info.directives, b.kind = .html) ∧ children ≠ []
  | .eventOnSlot event =>
    ∃ info fallback, n = .slot info fallback ∧ BindsAt info.directives .event event d.location

/-- The paths of a fault lead to the node at fault, and to the slot that it collides with. -/
structure Diagnostic.LeadsIn (nodes : List Node) (d : Diagnostic) : Prop where
  node : ∃ n, Template.at? nodes d.path = some n ∧ d.Blames n
  other : ∀ outlet path, d.fault = .collision outlet path →
    ∃ info fallback, Template.at? nodes path = some (.slot info fallback)

theorem mem_directives_of_mem_bindings {b : Binding} {directives : List Directive}
    (h : b ∈ bindings directives) : .binding b ∈ directives := by
  obtain ⟨directive, hm, hb⟩ := List.mem_filterMap.mp h
  cases directive with
  | binding b' =>
    cases hb
    exact hm
  | structural kind location => cases hb
  | unsupported name value location => cases hb

theorem BindsAt.exists_directive {directives : List Directive} {kind : BindingKind} {name : String}
    {location : Location} (h : BindsAt directives kind name location) :
    ∃ directive ∈ directives, directive.location = location := by
  obtain ⟨b, hb, -, -, hl⟩ := h
  exact ⟨_, mem_directives_of_mem_bindings hb, hl⟩

/-- What a fault blames is an element or a slot that has the location of the fault, or carries the
directive there. -/
theorem Diagnostic.Blames.located {d : Diagnostic} {n : Node} (h : d.Blames n) :
    (∃ info children, n = .element info children ∧
      (info.location = d.location ∨ ∃ directive ∈ info.directives, directive.location = d.location)) ∨
    ∃ info fallback, n = .slot info fallback ∧
      (info.location = d.location ∨ ∃ directive ∈ info.directives, directive.location = d.location) := by
  unfold Diagnostic.Blames at h
  split at h
  · obtain ⟨value, hm⟩ := h
    cases n with
    | element info children => exact .inl ⟨info, children, rfl, .inr ⟨_, hm, rfl⟩⟩
    | slot info fallback => exact .inr ⟨info, fallback, rfl, .inr ⟨_, hm, rfl⟩⟩
    | _ => exact absurd hm List.not_mem_nil
  · obtain ⟨info, fallback, rfl, hl⟩ := h
    exact .inr ⟨info, fallback, rfl, .inl hl⟩
  · obtain ⟨info, children, rfl, hb⟩ := h
    exact .inl ⟨info, children, rfl, .inr hb.exists_directive⟩
  · obtain ⟨info, children, name, rfl, hb⟩ := h
    exact .inl ⟨info, children, rfl, .inr hb.exists_directive⟩
  · obtain ⟨info, fallback, rfl, hl⟩ := h
    exact .inr ⟨info, fallback, rfl, .inl hl⟩
  · exact h.elim
  · obtain ⟨info, children, rfl, -, hl, -⟩ := h
    exact .inl ⟨info, children, rfl, .inl hl⟩
  · obtain ⟨info, fallback, rfl, hb⟩ := h
    exact .inr ⟨info, fallback, rfl, .inr hb.exists_directive⟩

/-! ## Slots -/

section Sites

variable {root : List Node}

mutual

/-- The path of a slot leads to the slot, if that of the node does from which the slots are
collected. -/
theorem Node.slotSites_at {path : Path} (loops : List Nat) (branches : List (Path × Nat)) (n : Node)
    (hn : n.Shaped) (h : Template.at? root path = some n) :
    ∀ s ∈ n.slotSites path loops branches,
      Template.at? root s.path = some (.slot s.slot s.fallback) := by
  match n with
  | .element info children =>
    rw [Node.slotSites]
    exact Node.slotSitesAll_at loops branches children (List.forall_mem_cons.mp hn).2
      (Template.leads_children h)
  | .text .. => exact fun s hs => absurd hs List.not_mem_nil
  | .interpolation .. => exact fun s hs => absurd hs List.not_mem_nil
  | .slot info fallback =>
    rw [Node.slotSites]
    refine List.forall_mem_cons.mpr ⟨h, ?_⟩
    exact Node.slotSitesAll_at loops branches fallback (List.forall_mem_cons.mp hn).2
      (Template.leads_children h)
  | .chain members key location =>
    rw [Node.slotSites]
    obtain ⟨hsingle, hmembers⟩ := List.forall_mem_cons.mp hn
    exact Branch.slotSitesAll_at loops branches members hsingle hmembers
      (Template.leadsInto_branches h)
  | .loop info children =>
    rw [Node.slotSites]
    exact Node.slotSitesAll_at _ branches children (List.forall_mem_cons.mp hn).2
      (Template.leads_children h)
  | .comment .. => exact fun s hs => absurd hs List.not_mem_nil

theorem Node.slotSitesAll_at {parent : Path} {index : Nat} (loops : List Nat)
    (branches : List (Path × Nat)) (ns : List Node) (hns : Node.ShapedAll ns)
    (h : Template.Leads root parent index ns) :
    ∀ s ∈ Node.slotSitesAll parent index loops branches ns,
      Template.at? root s.path = some (.slot s.slot s.fallback) := by
  match ns with
  | [] => exact fun s hs => absurd hs List.not_mem_nil
  | n :: rest =>
    obtain ⟨hn, hrest⟩ := Node.shapedAll_cons.mp hns
    rw [Node.slotSitesAll]
    exact List.forall_mem_append.mpr ⟨Node.slotSites_at loops branches n hn h.head,
      Node.slotSitesAll_at loops branches rest hrest h.tail⟩

theorem Branch.slotSitesAll_at {parent : Path} {index : Nat} (loops : List Nat)
    (branches : List (Path × Nat)) (members : List Branch)
    (hsingle : ∀ b ∈ members, ∃ n, b.children = [n] ∧ n.isComment = false)
    (hmembers : ∀ m ∈ Branch.withinAll members, m.IsSingle)
    (h : Template.LeadsInto root parent index members) :
    ∀ s ∈ Branch.slotSitesAll parent index loops branches members,
      Template.at? root s.path = some (.slot s.slot s.fallback) := by
  match members with
  | [] => exact fun s hs => absurd hs List.not_mem_nil
  | .mk info [] :: rest =>
    obtain ⟨⟨n, hn, -⟩, -⟩ := List.forall_mem_cons.mp hsingle
    cases hn
  | .mk info (n :: more) :: rest =>
    obtain ⟨⟨m, hm, -⟩, hrest⟩ := List.forall_mem_cons.mp hsingle
    cases hm
    obtain ⟨hn, hmore⟩ := List.forall_mem_append.mp hmembers
    rw [Branch.slotSitesAll, Node.slotSitesAll, Node.slotSitesAll, List.append_nil]
    refine List.forall_mem_append.mpr ⟨?_, Branch.slotSitesAll_at loops branches rest hrest hmore
      h.tail⟩
    exact Node.slotSites_at loops _ n (Node.shapedAll_cons.mp hn).1 h.head

end

/-- The path of a slot leads to the slot. -/
theorem Template.slotSites_at {nodes : List Node} (hn : Node.ShapedAll nodes) {s : SlotSite}
    (hs : s ∈ Template.slotSites nodes) :
    Template.at? nodes s.path = some (.slot s.slot s.fallback) :=
  Node.slotSitesAll_at [] [] nodes hn Template.leads_root s hs

end Sites

/-! ## The report -/

section Report

variable {capabilities : Capabilities} {nodes : List Node}

/-- A slot, in the tree that the backends get, with the outlet that it was resolved to. -/
theorem Template.annotate_slotSites_at (hn : Node.ShapedAll nodes) {s : SlotSite}
    (hs : s ∈ Template.slotSites nodes) :
    ∃ info fallback,
      Template.at? (Template.annotate capabilities nodes).nodes s.path = some (.slot info fallback) ∧
      info.unkeyed = (s.resolved capabilities).slot.unkeyed := by
  have hresolved : Node.ShapedAll (Template.resolveSlots capabilities nodes) :=
    (Node.forall_within_of_stripAll_eq SlotInfo.plain (Node.isSingle_strip SlotInfo.plain)
      (Node.resolveSlotsAll_strip capabilities [] none nodes)).mpr hn
  have hmem : s.resolved capabilities ∈
      Template.slotSites (Template.resolveSlots capabilities nodes) := by
    rw [Template.slotSites_resolveSlots]
    exact List.mem_map_of_mem hs
  obtain ⟨n, hat, hstrip⟩ := Template.at?_of_stripAll_eq SlotInfo.unkeyed
    (Template.annotate_strip_unkeyed capabilities nodes).symm
    (Template.slotSites_at hresolved hmem)
  cases n with
  | slot info fallback => exact ⟨info, fallback, hat, (Node.slot.inj hstrip).1⟩
  | _ => cases hstrip

/-- An outlet of the report is that of the slot at its path. -/
theorem Template.outlets_lead (hn : Node.ShapedAll nodes) {o : OutletSummary}
    (ho : o ∈ (Outlet.report capabilities nodes).outlets) :
    ∃ info fallback r,
      Template.at? (Template.annotate capabilities nodes).nodes o.path = some (.slot info fallback) ∧
      info.resolution = some r ∧ o = ⟨o.path, r.base, r.isIterated, r.fallback⟩ := by
  obtain ⟨s, hs, rfl⟩ := List.mem_map.mp ho
  obtain ⟨info, fallback, hat, hinfo⟩ := Template.annotate_slotSites_at hn hs
  exact ⟨info, fallback, _, hat, congrArg SlotInfo.resolution hinfo, rfl⟩

/-- A fault on a slot is about a value that is bound there, or about the slot. -/
def Diagnostic.BlamesSlot (d : Diagnostic) (slot : SlotInfo) : Prop :=
  (∃ event, d.fault = .eventOnSlot event ∧ BindsAt slot.directives .event event d.location) ∨
    ∃ outlet path, d.fault = .collision outlet path ∧ slot.location = d.location

theorem Diagnostic.BlamesSlot.blames {d : Diagnostic} {info : SlotInfo} (h : d.BlamesSlot info)
    (fallback : List Node) : d.Blames (.slot info fallback) := by
  unfold Diagnostic.Blames
  obtain ⟨event, hfault, hbinds⟩ | ⟨outlet, path, hfault, hl⟩ := h
  · rw [hfault]
    exact ⟨info, fallback, rfl, hbinds⟩
  · rw [hfault]
    exact ⟨info, fallback, rfl, hl⟩

theorem SlotSite.eventFault?_blames {s : SlotSite} {d : Diagnostic} (h : s.eventFault? = some d) :
    d.path = s.path ∧ d.BlamesSlot s.slot ∧ ∀ outlet path, d.fault ≠ .collision outlet path := by
  obtain ⟨b, hb, rfl⟩ := Option.map_eq_some_iff.mp h
  have hkind : b.kind = .event := by simpa using List.find?_some hb
  exact ⟨rfl, .inl ⟨b.name, rfl, b, List.mem_of_find?_eq_some hb, hkind, rfl, rfl⟩, nofun⟩

/-- A fault on slots is about one of them, and about another one that it collides with. -/
theorem Outlet.blames_of_mem_faults {seen sites : List SlotSite} {d : Diagnostic}
    (h : d ∈ faults capabilities seen sites) :
    (∃ s ∈ sites, d.path = s.path ∧ d.BlamesSlot s.slot) ∧
      ∀ outlet path, d.fault = .collision outlet path → ∃ s ∈ seen ++ sites, path = s.path := by
  induction sites generalizing seen with
  | nil => exact absurd h List.not_mem_nil
  | cons s rest ih =>
    rw [faults] at h
    rcases List.mem_append.mp h with h | h
    · obtain ⟨hpath, hblames, hfault⟩ := SlotSite.eventFault?_blames (Option.mem_toList.mp h)
      exact ⟨⟨s, List.mem_cons_self, hpath, hblames⟩, fun outlet path hd =>
        absurd hd (hfault outlet path)⟩
    · have hrest {seen' : List SlotSite} (hsub : seen' ++ rest ⊆ seen ++ s :: rest)
          (h : d ∈ faults capabilities seen' rest) :
          (∃ s' ∈ s :: rest, d.path = s'.path ∧ d.BlamesSlot s'.slot) ∧
            ∀ outlet path, d.fault = .collision outlet path →
              ∃ s' ∈ seen ++ s :: rest, path = s'.path := by
        obtain ⟨⟨s', hs', hd⟩, hother⟩ := ih h
        refine ⟨⟨s', List.mem_cons_of_mem _ hs', hd⟩, fun outlet path hfault => ?_⟩
        obtain ⟨t, ht, hpath⟩ := hother outlet path hfault
        exact ⟨t, hsub ht, hpath⟩
      cases hc : s.collision? capabilities seen with
      | some earlier =>
        rw [hc] at h
        rcases List.mem_cons.mp h with rfl | h
        · refine ⟨⟨s, List.mem_cons_self, rfl, .inr ⟨_, _, rfl, rfl⟩⟩, fun outlet path hfault => ?_⟩
          cases hfault
          exact ⟨earlier, List.mem_append_left _ (List.mem_of_find?_eq_some hc), rfl⟩
        · refine hrest (fun t ht => ?_) h
          rcases List.mem_append.mp ht with ht | ht
          · exact List.mem_append_left _ ht
          · exact List.mem_append_right _ (List.mem_cons_of_mem _ ht)
      | none =>
        rw [hc] at h
        refine hrest (fun t ht => ?_) h
        rwa [List.append_assoc] at ht

/-- A fault of the report points at slots. -/
theorem Template.slotErrors_lead (hn : Node.ShapedAll nodes) {d : Diagnostic}
    (hd : d ∈ (Outlet.report capabilities nodes).errors) :
    d.LeadsIn (Template.annotate capabilities nodes).nodes := by
  obtain ⟨⟨s, hs, hpath, hblames⟩, hother⟩ := Outlet.blames_of_mem_faults hd
  constructor
  · obtain ⟨info, fallback, hat, hinfo⟩ := Template.annotate_slotSites_at hn hs
    have hdirectives := congrArg SlotInfo.directives hinfo
    have hlocation := congrArg SlotInfo.location hinfo
    have hd : d.BlamesSlot info := by
      rw [Diagnostic.BlamesSlot, show info.directives = s.slot.directives from hdirectives,
        show info.location = s.slot.location from hlocation]
      exact hblames
    exact ⟨_, hpath ▸ hat, hd.blames fallback⟩
  · intro outlet path hfault
    obtain ⟨t, ht, rfl⟩ := hother outlet path hfault
    obtain ⟨info, fallback, hat, -⟩ := Template.annotate_slotSites_at hn ht
    exact ⟨info, fallback, hat⟩

end Report

end UiTemplate
