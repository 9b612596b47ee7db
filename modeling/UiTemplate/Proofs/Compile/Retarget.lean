import UiTemplate.Proofs.Binding.Leftover
import UiTemplate.Proofs.Template.WellFormed

/-!
# One platform after another

A tree that was annotated for one platform is annotated for another one.

- `Outlet.report_plain`, `Node.resolveSlotsAll_plain`: what slots stand for does not hang on keys and
  outlets that the tree has.
- `Node.hasKeysOf_resolved`: the keys in the tree are those of the first platform.
- `Template.annotate_again`: report and bound values are those of the second platform alone; the tree
  is, exactly if the first platform gives no slot a key that the second does not give it.
-/

namespace UiTemplate

/-! ## Slots do not hang on keys and outlets -/

section Plain

variable (capabilities : Capabilities)

mutual

theorem Node.resolveSlots_plain (loops : List Nat) (branch : Option Nat) (n : Node) :
    (n.strip SlotInfo.plain).resolveSlots capabilities loops branch =
      (n.resolveSlots capabilities loops branch).strip SlotInfo.unkeyed := by
  match n with
  | .element info children =>
    rw [Node.strip, Node.resolveSlots, Node.resolveSlots, Node.strip, Node.resolveSlotsAll_plain]
  | .text .. => rfl
  | .interpolation .. => rfl
  | .slot info fallback =>
    have hpolicy : Outlet.policyFor capabilities (Node.stripAll SlotInfo.plain fallback) =
        Outlet.policyFor capabilities fallback := by
      cases fallback <;> rfl
    rw [Node.strip, Node.resolveSlots, Node.resolveSlots, Node.strip, Node.resolveSlotsAll_plain,
      Outlet.resolve, hpolicy]
    rfl
  | .chain branches key l =>
    rw [Node.strip, Node.resolveSlots, Node.resolveSlots, Node.strip, Branch.resolveSlotsAll_plain]
  | .loop info children =>
    rw [Node.strip, Node.resolveSlots, Node.resolveSlots, Node.strip, Node.resolveSlotsAll_plain]
  | .comment .. => rfl

/-- Slots are resolved alike whatever keys and outlets the tree has. -/
theorem Node.resolveSlotsAll_plain (loops : List Nat) (branch : Option Nat) (ns : List Node) :
    Node.resolveSlotsAll capabilities loops branch (Node.stripAll SlotInfo.plain ns) =
      Node.stripAll SlotInfo.unkeyed (Node.resolveSlotsAll capabilities loops branch ns) := by
  match ns with
  | [] => rfl
  | n :: rest =>
    rw [Node.stripAll, Node.resolveSlotsAll, Node.resolveSlotsAll, Node.stripAll,
      Node.resolveSlots_plain, Node.resolveSlotsAll_plain]

theorem Branch.resolveSlotsAll_plain (loops : List Nat) (index : Nat) (bs : List Branch) :
    Branch.resolveSlotsAll capabilities loops index (Branch.stripAll SlotInfo.plain bs) =
      Branch.stripAll SlotInfo.unkeyed (Branch.resolveSlotsAll capabilities loops index bs) := by
  match bs with
  | [] => rfl
  | .mk info children :: rest =>
    rw [Branch.stripAll, Branch.resolveSlotsAll, Branch.resolveSlotsAll, Branch.stripAll,
      Node.resolveSlotsAll_plain, Branch.resolveSlotsAll_plain]

end

end Plain

/-- The site of a slot in the tree without keys and outlets. -/
def SlotSite.plain (s : SlotSite) : SlotSite :=
  { s with slot := s.slot.plain, fallback := Node.stripAll SlotInfo.plain s.fallback }

mutual

theorem Node.slotSites_plain (path : Path) (loops : List Nat) (branches : List (Path × Nat))
    (n : Node) :
    (n.strip SlotInfo.plain).slotSites path loops branches =
      (n.slotSites path loops branches).map SlotSite.plain := by
  match n with
  | .element info children =>
    rw [Node.strip, Node.slotSites, Node.slotSites, Node.slotSitesAll_plain]
  | .text .. => rfl
  | .interpolation .. => rfl
  | .slot info fallback =>
    rw [Node.strip, Node.slotSites, Node.slotSites, Node.slotSitesAll_plain]
    rfl
  | .chain members key l =>
    rw [Node.strip, Node.slotSites, Node.slotSites, Branch.slotSitesAll_plain]
  | .loop info children =>
    rw [Node.strip, Node.slotSites, Node.slotSites, Node.slotSitesAll_plain]
  | .comment .. => rfl

theorem Node.slotSitesAll_plain (parent : Path) (index : Nat) (loops : List Nat)
    (branches : List (Path × Nat)) (ns : List Node) :
    Node.slotSitesAll parent index loops branches (Node.stripAll SlotInfo.plain ns) =
      (Node.slotSitesAll parent index loops branches ns).map SlotSite.plain := by
  match ns with
  | [] => rfl
  | n :: rest =>
    rw [Node.stripAll, Node.slotSitesAll, Node.slotSitesAll, List.map_append,
      Node.slotSites_plain, Node.slotSitesAll_plain]

theorem Branch.slotSitesAll_plain (parent : Path) (index : Nat) (loops : List Nat)
    (branches : List (Path × Nat)) (bs : List Branch) :
    Branch.slotSitesAll parent index loops branches (Branch.stripAll SlotInfo.plain bs) =
      (Branch.slotSitesAll parent index loops branches bs).map SlotSite.plain := by
  match bs with
  | [] => rfl
  | .mk info children :: rest =>
    rw [Branch.stripAll, Branch.slotSitesAll, Branch.slotSitesAll, List.map_append,
      Node.slotSitesAll_plain, Branch.slotSitesAll_plain]

end

theorem SlotSite.collision?_plain (capabilities : Capabilities) (seen : List SlotSite)
    (s : SlotSite) :
    s.plain.collision? capabilities (seen.map plain) =
      (s.collision? capabilities seen).map plain := by
  rw [collision?, List.find?_map]
  rfl

theorem Outlet.faults_plain (capabilities : Capabilities) (seen sites : List SlotSite) :
    Outlet.faults capabilities (seen.map SlotSite.plain) (sites.map SlotSite.plain) =
      Outlet.faults capabilities seen sites := by
  induction sites generalizing seen with
  | nil => rfl
  | cons s sites ih =>
    rw [List.map_cons, Outlet.faults, Outlet.faults, SlotSite.collision?_plain]
    refine congrArg _ ?_
    cases s.collision? capabilities seen with
    | some earlier => exact congrArg (_ :: ·) (ih seen)
    | none =>
      have hseen := ih (seen ++ [s])
      rw [List.map_append] at hseen
      exact hseen

/-- The report is the same whatever keys and outlets the tree has. -/
theorem Outlet.report_plain (capabilities : Capabilities) (nodes : List Node) :
    Outlet.report capabilities (Node.stripAll SlotInfo.plain nodes) =
      Outlet.report capabilities nodes := by
  have hpolicy (s : SlotSite) : Outlet.summarize capabilities s.plain =
      Outlet.summarize capabilities s := by
    obtain ⟨path, slot, fallback, loops, branches⟩ := s
    cases fallback <;> rfl
  have hfaults := Outlet.faults_plain capabilities [] (Template.slotSites nodes)
  rw [Outlet.report, Template.slotSites, Node.slotSitesAll_plain, List.map_map]
  exact congrArg₂ SlotReport.mk (List.map_congr_left fun s _ => hpolicy s) hfaults

/-! ## Trees that were just read -/

theorem Directive.map_strip_eq_self {ds : List Directive} (h : ∀ b ∈ bindings ds, b.key = none) :
    ds.map Directive.strip = ds := by
  refine (List.map_congr_left fun d hd => ?_).trans (List.map_id ds)
  cases d with
  | binding b =>
    have hkey := h b (List.mem_filterMap.mpr ⟨_, hd, rfl⟩)
    obtain ⟨kind, name, expression, key, location⟩ := b
    cases hkey
    rfl
  | _ => rfl

mutual

theorem Node.WellFormed.strip_plain {depth : Nat} {role : Option ChainRole}
    {loop : Option (Expression × String × Option String)} (n : Node)
    (h : n.WellFormed depth role loop) : n.strip SlotInfo.plain = n := by
  match n, h with
  | .element _ children, .element asks _ below =>
    rw [Node.strip, Directive.map_strip_eq_self asks.unkeyed,
      Node.WellFormedAll.strip_plain children below]
  | .slot info fallback, .slot _ _ unkeyed unresolved below =>
    obtain ⟨static, dynamic, attributes, directives, closing, resolution, keys, location⟩ := info
    cases unkeyed
    cases unresolved
    rw [Node.strip, Node.WellFormedAll.strip_plain fallback below]
    rfl
  | .text .., _ => rfl
  | .comment .., _ => rfl
  | .interpolation .., .interpolation => rfl
  | .chain branches _ _, .chain _ below =>
    rw [Node.strip, Branch.WellFormedAll.strip_plain branches below]
  | .loop info [child], .loop _ unkeyed below =>
    obtain ⟨source, item, index, depth, key, location⟩ := info
    cases unkeyed
    rw [Node.strip, Node.stripAll, Node.stripAll, Node.WellFormed.strip_plain child below]

theorem Node.WellFormedAll.strip_plain {depth : Nat} (ns : List Node)
    (h : Node.WellFormedAll depth ns) : Node.stripAll SlotInfo.plain ns = ns := by
  match ns, h with
  | [], _ => rfl
  | n :: rest, .cons first others =>
    rw [Node.stripAll, Node.WellFormed.strip_plain n first,
      Node.WellFormedAll.strip_plain rest others]

theorem Branch.WellFormedAll.strip_plain {depth : Nat} (bs : List Branch)
    (h : Branch.WellFormedAll depth bs) : Branch.stripAll SlotInfo.plain bs = bs := by
  match bs, h with
  | [], _ => rfl
  | .mk info [child] :: rest, .cons _ unkeyed below others =>
    obtain ⟨kind, condition, key, location⟩ := info
    cases unkeyed
    rw [Branch.stripAll, Node.stripAll, Node.stripAll, Node.WellFormed.strip_plain child below,
      Branch.WellFormedAll.strip_plain rest others]

end

/-- A tree that was just read has neither keys nor outlets. -/
theorem Template.parse_plain {options : ParseOptions} {source : String} {nodes : List Node}
    (h : Template.parse options source = .ok nodes) :
    Node.stripAll SlotInfo.plain nodes = nodes :=
  Node.WellFormedAll.strip_plain nodes (Template.read_wellFormed (Template.parse_eq_ok.mp h))

/-! ## The keys of the first platform -/

/-- Whatever the first family gives a slot a key for, the second one gives it a key for as well. -/
def Node.IsRegiven (first second : Family) : Node → Prop
  | .slot info _ =>
    ((info.identity? first).isSome → (info.identity? second).isSome) ∧
      ((info.outlet? first).isSome → (info.outlet? second).isSome)
  | _ => True

instance (first second : Family) (n : Node) : Decidable (n.IsRegiven first second) := by
  cases n with
  | slot info _ => exact inferInstanceAs (Decidable (_ ∧ _))
  | _ => exact inferInstanceAs (Decidable True)

theorem Node.isRegiven_strip (first second : Family) (n : Node) :
    (n.strip SlotInfo.unkeyed).IsRegiven first second ↔ n.IsRegiven first second := by
  cases n <;> exact Iff.rfl

/-- The node has just the keys that a family gives it. Handlers have none. -/
def Node.HasKeysOf (family : Family) : Node → Prop
  | .element info _ => ∀ b ∈ bindings info.directives, b.kind = .event → b.key = none
  | .slot info _ => info.keys.IsGiven family info
  | _ => True

/-- Whether the name of an outlet is fixed does not hang on the platform. -/
theorem Outlet.baseOf_cases (slot : SlotInfo) :
    (∃ name : Capabilities → String, ∀ c, Outlet.baseOf c slot = .fixed (name c)) ∨
      ∃ e, ∀ c, Outlet.baseOf c slot = .computed e := by
  unfold Outlet.baseOf
  cases slot.dynamicName with
  | none => exact .inl ⟨_, fun _ => rfl⟩
  | some e =>
    dsimp only
    cases e.constant? with
    | none => exact .inr ⟨e, fun _ => rfl⟩
    | some name => exact .inl ⟨_, fun _ => rfl⟩

section Resolved

variable (capabilities capabilities' : Capabilities) (loops : List Nat) (branch : Option Nat)
  (slot : SlotInfo) (fallback fallback' : List Node)

/-- What a family binds of a slot does not hang on the platform that the slot was resolved for. -/
theorem SlotInfo.identity?_resolve (family : Family) :
    (SlotInfo.identity? family { slot with
        resolution := some (Outlet.resolve capabilities loops branch slot fallback) }).isSome =
      (SlotInfo.identity? family { slot with
        resolution := some (Outlet.resolve capabilities' loops branch slot fallback') }).isSome := by
  cases family with
  | calls => rfl
  | markup =>
    rcases Outlet.baseOf_cases slot with ⟨name, hbase⟩ | ⟨e, hbase⟩ <;>
      cases loops <;> simp [SlotInfo.identity?, Outlet.resolve, hbase, Resolution.isIterated]

theorem SlotInfo.outlet?_resolve (family : Family) :
    (SlotInfo.outlet? family { slot with
        resolution := some (Outlet.resolve capabilities loops branch slot fallback) }).isSome =
      (SlotInfo.outlet? family { slot with
        resolution := some (Outlet.resolve capabilities' loops branch slot fallback') }).isSome := by
  refine Bool.eq_iff_iff.mpr ?_
  rw [SlotInfo.outlet?, SlotInfo.outlet?, Option.isSome_ite, Option.isSome_ite]
  exact Iff.rfl

end Resolved

theorem extractDirectives_handlers {ds : List Directive}
    (h : ∀ b ∈ bindings ds, b.kind = .event → b.key = none) (a : Allocation) :
    ∀ b ∈ bindings (extractDirectives ds a).1.1, b.kind = .event → b.key = none := by
  induction ds generalizing a with
  | nil => exact h
  | cons d ds ih =>
    cases d with
    | structural s l => exact ih h a
    | unsupported name value l => exact ih h a
    | binding b =>
      have hrest := ih fun b' hb' => h b' (List.mem_cons_of_mem _ hb')
      by_cases hb : b.kind = .event
      · rw [extractDirectives_event hb]
        exact List.forall_mem_cons.mpr ⟨h b List.mem_cons_self, hrest a⟩
      · rw [extractDirectives_bound hb]
        exact List.forall_mem_cons.mpr ⟨fun hevent => absurd hevent hb, hrest _⟩

section HasKeysOf

variable (first second : Capabilities)

mutual

theorem Node.hasKeysOf (loops : List Nat) (branch : Option Nat) (n : Node) (a : Allocation) :
    ∀ m ∈ ((((n.strip SlotInfo.plain).resolveSlots first loops branch).extract first a).1.1.resolveSlots
      second loops branch).within, m.HasKeysOf first.family := by
  match n with
  | .element info children =>
    rw [Node.strip, Node.resolveSlots, Node.extract]
    refine List.forall_mem_cons.mpr ⟨?_, Node.hasKeysOfAll loops branch children _⟩
    refine extractDirectives_handlers (fun b hb _ => ?_) a
    rw [bindings_strip] at hb
    obtain ⟨b', -, rfl⟩ := List.mem_map.mp hb
    rfl
  | .text .. => exact List.forall_mem_singleton.mpr trivial
  | .interpolation .. => exact List.forall_mem_singleton.mpr trivial
  | .slot info fallback =>
    let resolution := Outlet.resolve first loops branch info (Node.stripAll SlotInfo.plain fallback)
    obtain ⟨given, hgiven, record, after, hover⟩ :=
      extractSlot_over { info with resolution := some resolution } a first
    have hslot : extractSlot first { info.plain with resolution := some resolution } a =
        (({ info with resolution := some resolution, keys := given }, record), after) :=
      (hover {}).trans (by rw [SlotKeys.over_empty])
    show ∀ m ∈ (((Node.slot { info.plain with resolution := some resolution } _).extract first
      a).1.1.resolveSlots second loops branch).within, _
    rw [Node.extract_slot, hslot]
    refine List.forall_mem_cons.mpr ⟨?_, Node.hasKeysOfAll loops branch fallback after⟩
    exact ⟨hgiven.name.trans (SlotInfo.identity?_resolve ..),
      hgiven.outlet.trans (SlotInfo.outlet?_resolve ..)⟩
  | .chain branches key l =>
    rw [Node.strip, Node.resolveSlots, Node.extract]
    exact List.forall_mem_cons.mpr ⟨trivial, Branch.hasKeysOfAll loops 0 branches _⟩
  | .loop info children =>
    rw [Node.strip, Node.resolveSlots]
    by_cases hl : first.localKeys = true
    · rw [Node.extract_loop_local hl]
      exact List.forall_mem_cons.mpr ⟨trivial, Node.hasKeysOfAll _ branch children _⟩
    · rw [Node.extract_loop_shared hl]
      exact List.forall_mem_cons.mpr ⟨trivial, Node.hasKeysOfAll _ branch children _⟩
  | .comment .. => exact List.forall_mem_singleton.mpr trivial

theorem Node.hasKeysOfAll (loops : List Nat) (branch : Option Nat) (ns : List Node)
    (a : Allocation) :
    ∀ m ∈ Node.withinAll (Node.resolveSlotsAll second loops branch (Node.extractAll first
      (Node.resolveSlotsAll first loops branch (Node.stripAll SlotInfo.plain ns)) a).1.1),
      m.HasKeysOf first.family := by
  match ns with
  | [] => exact fun m hm => absurd hm List.not_mem_nil
  | n :: rest =>
    rw [Node.stripAll, Node.resolveSlotsAll, Node.extractAll]
    exact List.forall_mem_append.mpr
      ⟨Node.hasKeysOf loops branch n a, Node.hasKeysOfAll loops branch rest _⟩

theorem Branch.hasKeysOfAll (loops : List Nat) (index : Nat) (bs : List Branch)
    (a : Allocation) :
    ∀ m ∈ Branch.withinAll (Branch.resolveSlotsAll second loops index (Branch.extractAll first
      (Branch.resolveSlotsAll first loops index (Branch.stripAll SlotInfo.plain bs)) a).1.1),
      m.HasKeysOf first.family := by
  match bs with
  | [] => exact fun m hm => absurd hm List.not_mem_nil
  | .mk info children :: rest =>
    rw [Branch.stripAll, Branch.resolveSlotsAll, Branch.extractAll_cons]
    exact List.forall_mem_append.mpr
      ⟨Node.hasKeysOfAll loops (some index) children _, Branch.hasKeysOfAll loops (index + 1) rest _⟩

end

end HasKeysOf

theorem Node.HasKeysOf.isRekeyed_iff {first second : Family} {n : Node} (h : n.HasKeysOf first) :
    n.IsRekeyed second ↔ n.IsRegiven first second := by
  cases n with
  | element info children => exact iff_of_true h trivial
  | slot info fallback =>
    rw [Node.IsRekeyed, h.name, h.outlet]
    exact Iff.rfl
  | _ => exact Iff.rfl

/-! ## Annotating again -/

section Again

variable (first second : Capabilities) {nodes : List Node}

theorem Template.resolveSlots_annotate (h : Node.stripAll SlotInfo.plain nodes = nodes) :
    Node.stripAll SlotInfo.unkeyed
        (Template.resolveSlots second (Template.annotate first nodes).nodes) =
      Template.resolveSlots second nodes := by
  have hagain := Node.resolveSlotsAll_plain second [] none (Template.annotate first nodes).nodes
  rw [Template.annotate_strip, h] at hagain
  exact hagain.symm

/-- The same is bound as in the tree that was not annotated before, and the trees are the same
exactly if no key is left over. -/
theorem Template.extract_annotate (h : Node.stripAll SlotInfo.plain nodes = nodes) :
    Rekeyed
      (Node.extractAll second (Template.resolveSlots second (Template.annotate first nodes).nodes) {})
      (Node.extractAll second (Template.resolveSlots second nodes) {})
      (∀ n ∈ Node.withinAll (Template.annotate second nodes).nodes,
        n.IsRegiven first.family second.family) := by
  have hunkeyed := Template.resolveSlots_annotate first second h
  have hrekeyed := Node.extractAll_unkeyed second
    (Template.resolveSlots second (Template.annotate first nodes).nodes) {}
  rw [hunkeyed] at hrekeyed
  refine hrekeyed.of_iff ?_
  have hkeys := Node.hasKeysOfAll first second [] none nodes {}
  rw [h] at hkeys
  have hsame : Node.stripAll SlotInfo.unkeyed (Template.annotate second nodes).nodes =
      Node.stripAll SlotInfo.unkeyed
        (Template.resolveSlots second (Template.annotate first nodes).nodes) := by
    rw [Template.annotate_strip_unkeyed, ← hunkeyed, Node.stripAll_stripAll]
    rfl
  rw [Node.forall_within_of_stripAll_eq SlotInfo.unkeyed
    (Node.isRegiven_strip first.family second.family) hsame]
  exact (forall₂_congr fun n hn => (hkeys n hn).isRekeyed_iff).symm

end Again

/-- **Annotating for one platform after another.** Both passes change only outlets and keys in a
tree. A tree that was read and annotated for one platform and is annotated for another has the
report and the bound values of the second platform alone. It is the tree of the second platform
alone exactly if the first platform gives no slot a key that the second one does not give it. -/
theorem Template.annotate_again {options : ParseOptions} {source : String} {nodes : List Node}
    (h : Template.parse options source = .ok nodes) (p q : Platform) :
    let once := Template.annotate q.capabilities nodes
    let again := Template.annotate q.capabilities (Template.annotate p.capabilities nodes).nodes
    again.report = once.report ∧ again.context = once.context ∧
      (again.nodes = once.nodes ↔
        ∀ n ∈ Node.withinAll once.nodes, n.IsRegiven p.family q.family) ∧
      ∀ (capabilities : Capabilities) (tree : List Node),
        Node.stripAll SlotInfo.plain (Template.resolveSlots capabilities tree) =
          Node.stripAll SlotInfo.plain tree ∧
        Node.stripAll SlotInfo.plain (Template.extract capabilities tree).1 =
          Node.stripAll SlotInfo.plain tree := by
  have hplain := Template.parse_plain h
  have hextract := Template.extract_annotate p.capabilities q.capabilities hplain
  have hfamily (p : Platform) : p.capabilities.family = p.family := by cases p <;> rfl
  rw [hfamily, hfamily] at hextract
  refine ⟨?_, ?_, hextract.tree, fun capabilities tree =>
    ⟨Node.resolveSlotsAll_strip capabilities [] none tree, Template.extract_strip capabilities tree⟩⟩
  · have hreport := Outlet.report_plain q.capabilities (Template.annotate p.capabilities nodes).nodes
    rw [Template.annotate_strip, hplain] at hreport
    exact hreport.symm
  · exact congrArg₂ (BindingContext.mk · · _) hextract.bound
      (congrArg Allocation.helpers hextract.after)

/-- A slot that is passed something, for a platform where it becomes a call and then for one where
it becomes markup. -/
theorem Template.annotate_again_passedSlot :
    ∃ nodes, Template.parse ⟨.web, .condense⟩ "<slot a=\"b\"/>" = .ok nodes ∧
      (Template.annotate Platform.weixin.capabilities
          (Template.annotate Platform.web.capabilities nodes).nodes).nodes =
        (Template.annotate Platform.weixin.capabilities nodes).nodes := by
  have hfacts : ∃ nodes ∈ (Template.parse ⟨.web, .condense⟩ "<slot a=\"b\"/>").toOption,
      ∀ n ∈ Node.withinAll (Template.annotate Platform.weixin.capabilities nodes).nodes,
        n.IsRegiven Platform.web.family Platform.weixin.family := by
    decide +kernel
  obtain ⟨nodes, hparse, hgiven⟩ := hfacts
  have hparse := Except.toOption_eq_some.mp hparse
  exact ⟨nodes, hparse, (Template.annotate_again hparse .web .weixin).2.2.1.mpr hgiven⟩

/-- A slot that nothing is passed to keeps the key that it got where it becomes a call. Markup
refers to it by this key, which nothing is bound under. -/
theorem Template.annotate_again_leftover :
    ∃ nodes, Template.parse ⟨.web, .condense⟩ "<slot>x</slot>" = .ok nodes ∧
      let once := Template.annotate Platform.weixin.capabilities nodes
      let again := Template.annotate Platform.weixin.capabilities
        (Template.annotate Platform.web.capabilities nodes).nodes
      again.nodes ≠ once.nodes ∧
        (Template.slotSites again.nodes).map (·.slot.keys.outlet) = [some "a"] ∧
        (again.context.thunk? "a").isNone := by
  have hfacts : ∃ nodes ∈ (Template.parse ⟨.web, .condense⟩ "<slot>x</slot>").toOption,
      let once := Template.annotate Platform.weixin.capabilities nodes
      let again := Template.annotate Platform.weixin.capabilities
        (Template.annotate Platform.web.capabilities nodes).nodes
      (Template.slotSites once.nodes).map (·.slot.keys.outlet) = [none] ∧
        (Template.slotSites again.nodes).map (·.slot.keys.outlet) = [some "a"] ∧
        (again.context.thunk? "a").isNone := by
    decide +kernel
  obtain ⟨nodes, hparse, honce, hagain, hunbound⟩ := hfacts
  refine ⟨nodes, Except.toOption_eq_some.mp hparse, fun heq => ?_, hagain, hunbound⟩
  rw [heq, honce] at hagain
  cases hagain

end UiTemplate
