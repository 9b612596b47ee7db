import UiTemplate.Json.Fields
import UiTemplate.Proofs.Binding.Instances
import UiTemplate.Proofs.Outlet.Identity
import UiTemplate.Proofs.Template.WellFormed

/-!
# Outlets inside loops

The outlet of a slot inside loops is called by its name and the positions in these loops. The
positions are looked up like any other name, under the variables of the loops, so that a loop can
hide the position in a loop around it by naming its items so.

- `Node.NestedAll`: loops count the loops around them, and slots are resolved with these.
- `Scope.lookup_inside`: the position in a loop is found unless a loop inside it names something so.
- `Template.outlet_name`: then an outlet is called by its name and the positions.
- `Template.outlet_name_hidden`: otherwise it need not be.
-/

namespace UiTemplate

/-! ## Slots and the loops around them -/

/-- The slot is resolved with its own name, and with `depth` loops around it. -/
def SlotInfo.IsWithin (capabilities : Capabilities) (depth : Nat) (slot : SlotInfo) : Prop :=
  ∃ r, slot.resolution = some r ∧ r.base = Outlet.baseOf capabilities slot ∧
    r.loopPath = List.range depth

mutual

/-- A node inside `depth` loops: every loop in it has the number of loops around it as its depth,
and every slot is resolved with the loops around it. -/
def Node.Nested (capabilities : Capabilities) (depth : Nat) : Node → Prop
  | .element _ children => Node.NestedAll capabilities depth children
  | .text .. => True
  | .interpolation .. => True
  | .slot info fallback =>
    info.IsWithin capabilities depth ∧ Node.NestedAll capabilities depth fallback
  | .chain branches _ _ => Branch.NestedAll capabilities depth branches
  | .loop info children => info.depth = depth ∧ Node.NestedAll capabilities (depth + 1) children
  | .comment .. => True

/-- Nodes inside `depth` loops. -/
def Node.NestedAll (capabilities : Capabilities) (depth : Nat) : List Node → Prop
  | [] => True
  | n :: rest => n.Nested capabilities depth ∧ Node.NestedAll capabilities depth rest

/-- Branches inside `depth` loops. -/
def Branch.NestedAll (capabilities : Capabilities) (depth : Nat) : List Branch → Prop
  | [] => True
  | .mk _ children :: rest =>
    Node.NestedAll capabilities depth children ∧ Branch.NestedAll capabilities depth rest

end

section Nested

variable {capabilities : Capabilities}

theorem Node.NestedAll.mem {depth : Nat} {n : Node} {ns : List Node}
    (h : Node.NestedAll capabilities depth ns) (hn : n ∈ ns) : n.Nested capabilities depth := by
  induction ns with
  | nil => exact absurd hn List.not_mem_nil
  | cons m ns ih =>
    rcases List.mem_cons.mp hn with rfl | hn
    · exact h.1
    · exact ih h.2 hn

theorem Branch.NestedAll.mem {depth : Nat} {b : Branch} {bs : List Branch}
    (h : Branch.NestedAll capabilities depth bs) (hb : b ∈ bs) :
    Node.NestedAll capabilities depth b.children := by
  induction bs with
  | nil => exact absurd hb List.not_mem_nil
  | cons b' bs ih =>
    obtain ⟨info, children⟩ := b'
    rcases List.mem_cons.mp hb with rfl | hb
    · exact h.1
    · exact ih h.2 hb

/-- A slot is resolved with its own name, and with some loops around it. -/
def Node.IsPlaced (capabilities : Capabilities) : Node → Prop
  | .slot info _ => ∃ depth, info.IsWithin capabilities depth
  | _ => True

mutual

theorem Node.Nested.isPlaced {depth : Nat} (n : Node) (h : n.Nested capabilities depth) :
    ∀ m ∈ n.within, m.IsPlaced capabilities := by
  match n with
  | .element _ children => exact List.forall_mem_cons.mpr ⟨trivial, Node.NestedAll.isPlaced _ h⟩
  | .text .. => exact List.forall_mem_singleton.mpr trivial
  | .interpolation .. => exact List.forall_mem_singleton.mpr trivial
  | .slot _ fallback =>
    exact List.forall_mem_cons.mpr ⟨⟨depth, h.1⟩, Node.NestedAll.isPlaced _ h.2⟩
  | .chain branches _ _ => exact List.forall_mem_cons.mpr ⟨trivial, Branch.NestedAll.isPlaced _ h⟩
  | .loop _ children => exact List.forall_mem_cons.mpr ⟨trivial, Node.NestedAll.isPlaced _ h.2⟩
  | .comment .. => exact List.forall_mem_singleton.mpr trivial

theorem Node.NestedAll.isPlaced {depth : Nat} (ns : List Node)
    (h : Node.NestedAll capabilities depth ns) :
    ∀ m ∈ Node.withinAll ns, m.IsPlaced capabilities := by
  match ns with
  | [] => exact fun m hm => absurd hm List.not_mem_nil
  | n :: rest =>
    exact List.forall_mem_append.mpr ⟨Node.Nested.isPlaced n h.1, Node.NestedAll.isPlaced rest h.2⟩

theorem Branch.NestedAll.isPlaced {depth : Nat} (bs : List Branch)
    (h : Branch.NestedAll capabilities depth bs) :
    ∀ m ∈ Branch.withinAll bs, m.IsPlaced capabilities := by
  match bs with
  | [] => exact fun m hm => absurd hm List.not_mem_nil
  | .mk _ children :: rest =>
    exact List.forall_mem_append.mpr
      ⟨Node.NestedAll.isPlaced children h.1, Branch.NestedAll.isPlaced rest h.2⟩

end

mutual

/-- Resolving the slots of a node that was read. -/
theorem Node.WellFormed.nested {depth : Nat} {role : Option ChainRole}
    {loop : Option (Expression × String × Option String)} (n : Node)
    (h : n.WellFormed depth role loop) (branch : Option Nat) :
    (n.resolveSlots capabilities (List.range depth) branch).Nested capabilities depth := by
  match n, h with
  | .element _ children, .element _ _ below =>
    exact Node.WellFormedAll.nested children below branch
  | .slot _ fallback, .slot _ _ _ _ below =>
    exact ⟨⟨_, rfl, rfl, rfl⟩, Node.WellFormedAll.nested fallback below branch⟩
  | .text .., _ => trivial
  | .comment .., _ => trivial
  | .interpolation .., _ => trivial
  | .chain branches _ _, .chain _ below => exact Branch.WellFormedAll.nested branches below 0
  | .loop info [child], .loop nesting _ below =>
    refine ⟨nesting, ?_, trivial⟩
    rw [nesting, ← List.range_succ]
    exact Node.WellFormed.nested child below branch

theorem Node.WellFormedAll.nested {depth : Nat} (ns : List Node)
    (h : Node.WellFormedAll depth ns) (branch : Option Nat) :
    Node.NestedAll capabilities depth
      (Node.resolveSlotsAll capabilities (List.range depth) branch ns) := by
  match ns, h with
  | [], _ => trivial
  | n :: rest, .cons first others =>
    exact ⟨Node.WellFormed.nested n first branch, Node.WellFormedAll.nested rest others branch⟩

theorem Branch.WellFormedAll.nested {depth : Nat} (bs : List Branch)
    (h : Branch.WellFormedAll depth bs) (index : Nat) :
    Branch.NestedAll capabilities depth
      (Branch.resolveSlotsAll capabilities (List.range depth) index bs) := by
  match bs, h with
  | [], _ => trivial
  | .mk _ [child] :: rest, .cons _ _ below others =>
    exact ⟨⟨Node.WellFormed.nested child below (some index), trivial⟩,
      Branch.WellFormedAll.nested rest others (index + 1)⟩

end

mutual

theorem Node.nested_strip {depth : Nat} (n : Node) :
    (n.strip SlotInfo.unkeyed).Nested capabilities depth ↔ n.Nested capabilities depth := by
  match n with
  | .element _ children => exact Node.nestedAll_strip children
  | .slot _ fallback => exact and_congr_right fun _ => Node.nestedAll_strip fallback
  | .chain branches _ _ => exact Branch.nestedAll_strip branches
  | .loop _ children => exact and_congr_right fun _ => Node.nestedAll_strip children
  | .text .. => exact Iff.rfl
  | .interpolation .. => exact Iff.rfl
  | .comment .. => exact Iff.rfl

theorem Node.nestedAll_strip {depth : Nat} (ns : List Node) :
    Node.NestedAll capabilities depth (Node.stripAll SlotInfo.unkeyed ns) ↔
      Node.NestedAll capabilities depth ns := by
  match ns with
  | [] => exact Iff.rfl
  | n :: rest => exact and_congr (Node.nested_strip n) (Node.nestedAll_strip rest)

theorem Branch.nestedAll_strip {depth : Nat} (bs : List Branch) :
    Branch.NestedAll capabilities depth (Branch.stripAll SlotInfo.unkeyed bs) ↔
      Branch.NestedAll capabilities depth bs := by
  match bs with
  | [] => exact Iff.rfl
  | .mk _ children :: rest =>
    exact and_congr (Node.nestedAll_strip children) (Branch.nestedAll_strip rest)

end

/-- The tree of a template with slots resolved and keys given out. -/
theorem Template.annotate_nested {options : ParseOptions} {source : String} {nodes : List Node}
    (h : Template.parse options source = .ok nodes) :
    Node.NestedAll capabilities 0 (Template.annotate capabilities nodes).nodes := by
  have hread := Template.read_wellFormed (Template.parse_eq_ok.mp h)
  rw [← Node.nestedAll_strip, Template.annotate_strip_unkeyed, Node.nestedAll_strip]
  show Node.NestedAll capabilities 0 (Node.resolveSlotsAll capabilities (List.range 0) none nodes)
  exact Node.WellFormedAll.nested nodes hread none

/-- The passes through loops that nodes render in are those through the loops around them, from the
outermost in. -/
theorem Occurs.nested {context : Json} {tree ns : List Node} {accesses : List Access}
    {passes : List Pass} (h : Occurs context tree ns accesses passes)
    (ht : Node.NestedAll capabilities 0 tree) :
    passes.map (·.loop.depth) = List.range passes.length ∧
      Node.NestedAll capabilities passes.length ns := by
  induction h with
  | root => exact ⟨rfl, ht⟩
  | element _ hn ih => exact ⟨ih.1, ih.2.mem hn⟩
  | fallback _ hn ih => exact ⟨ih.1, (ih.2.mem hn).2⟩
  | branch _ hn _ _ ih =>
    refine ⟨ih.1, Branch.NestedAll.mem (ih.2.mem hn) ?_⟩
    exact List.mem_append_right _ List.mem_cons_self
  | step _ hn _ _ ih =>
    obtain ⟨hdepth, hchildren⟩ := ih.2.mem hn
    rw [List.map_append, ih.1, List.length_append, List.length_singleton, List.range_succ]
    exact ⟨by rw [List.map_singleton, hdepth], hchildren⟩

end Nested

/-! ## Looking up positions -/

theorem Code.pathVariable_injective {d d' : Nat} (h : pathVariable d = pathVariable d') :
    d = d' := by
  have hchars := congrArg String.toList h
  simp only [pathVariable, Decimal.natText, String.toList_append, String.toList_ofList] at hchars
  exact Helper.toDigits_injective (List.append_cancel_left hchars)

/-- The inner loop gives neither its items nor their indices the name of the variable that holds the
position in the outer one. -/
def Pass.Spares (outer inner : Pass) : Prop :=
  inner.loop.item ≠ outer.loop.pathVariable ∧ inner.loop.index ≠ some outer.loop.pathVariable

namespace Scope

theorem lookup_withLocals_append (scope : Scope) (locals : List (String × Json)) (name : String)
    (v : Json) : (scope.withLocals (locals ++ [(name, v)])).lookup name = v := by
  have hlocal : Json.lookup name ((locals ++ [(name, v)]).reverse ++ scope.locals) = some v := by
    rw [List.reverse_append]
    exact if_pos rfl
  rw [lookup, withLocals, hlocal]

theorem lookup_withLocals_of_notMem {scope : Scope} {locals : List (String × Json)} {name : String}
    (h : name ∉ locals.map Prod.fst) :
    (scope.withLocals locals).lookup name = scope.lookup name := by
  have hlocals : Json.lookup name (locals.reverse ++ scope.locals) =
      Json.lookup name scope.locals := by
    rw [← List.mem_reverse, ← List.map_reverse] at h
    generalize locals.reverse = locals at h
    induction locals with
    | nil => rfl
    | cons l locals ih =>
      rw [List.map_cons, List.mem_cons, not_or] at h
      rw [List.cons_append, Json.lookup, if_neg (Ne.symm h.1), ih h.2]
  rw [lookup, lookup, withLocals, hlocals]

/-- The position in a loop is found under its variable, unless a loop inside it names something
so. -/
theorem lookup_inside (context : Json) {passes : List Pass}
    (hd : (passes.map (·.loop.depth)).Nodup) (hs : passes.Pairwise Pass.Spares) :
    ∀ p ∈ passes, (inside context passes).lookup p.loop.pathVariable = .nat p.step.position := by
  induction passes using List.reverseRecOn with
  | nil => exact fun p hp => absurd hp List.not_mem_nil
  | append_singleton passes last ih =>
    rw [List.map_append, List.nodup_append] at hd
    rw [List.pairwise_append] at hs
    intro p hp
    rw [inside_append, atStep]
    rcases List.mem_append.mp hp with hp | hp
    · obtain ⟨hitem, hindex⟩ := hs.2.2 p hp last List.mem_cons_self
      rw [lookup_withLocals_of_notMem, ih hd.1 hs.1 p hp]
      have hdepth : p.loop.depth ≠ last.loop.depth :=
        hd.2.2 _ (List.mem_map_of_mem hp) _ List.mem_cons_self
      have hvariable : p.loop.pathVariable ≠ Code.pathVariable last.loop.depth :=
        fun h => hdepth (Code.pathVariable_injective h)
      simp only [List.map_append, List.map_cons, List.map_map, List.mem_append, List.mem_cons,
        List.mem_map, Option.mem_toList, Function.comp_apply]
      rintro ((hp | ⟨name, hname, rfl⟩) | hp)
      · exact hitem hp.symm
      · exact hindex hname
      · simp_all
    · obtain rfl := List.mem_singleton.mp hp
      exact lookup_withLocals_append ..

end Scope

/-! ## Names of outlets -/

theorem Json.toText_nat {n : Nat} (h : n < 0x20000000000000) :
    (Json.nat n).toText = Decimal.natText n := by
  show integerText n = _
  rw [integerText, if_pos (by simpa using h)]
  rfl

/-- The identity of an outlet is its name, a dash, and the positions joined by dashes. -/
theorem Helper.outletIdentity_eq_intercalate (base : String) {path : List Nat} (h : path ≠ []) :
    outletIdentity base path = base ++ "-" ++ "-".intercalate (path.map Decimal.natText) := by
  cases path with
  | nil => exact absurd rfl h
  | cons i path =>
    induction path generalizing base i with
    | nil => simp [outletIdentity]
    | cons j path ih =>
      have hstep : outletIdentity base (i :: j :: path) =
          outletIdentity (base ++ "-" ++ Decimal.natText i) (j :: path) := rfl
      rw [hstep, ih _ _ (by simp), List.map_cons, List.map_cons, List.map_cons,
        String.intercalate_cons_cons]
      simp only [String.append_assoc]

theorem Helper.intercalate_natText_ne_empty {path : List Nat} (h : path ≠ []) :
    "-".intercalate (path.map Decimal.natText) ≠ "" := by
  intro hempty
  have hidentity := outletIdentity_eq_intercalate "" h
  obtain ⟨i, path, rfl⟩ := List.exists_cons_of_ne_nil h
  have hchars := congrArg String.toList hidentity
  rw [hempty, outletIdentity_toList, positionsText_cons] at hchars
  simp [Nat.toDigits_ne_nil] at hchars

/-- The positions in the loops around a slot, as they are found inside passes through them. -/
theorem Scope.loopPath_inside (context : Json) {passes : List Pass}
    (hd : passes.map (·.loop.depth) = List.range passes.length) (hp : passes ≠ [])
    (hs : passes.Pairwise Pass.Spares)
    (hw : ∀ p ∈ passes, p.step.position < 0x20000000000000) :
    (inside context passes).loopPath (List.range passes.length) =
      some ("-".intercalate ((passes.map (·.step.position)).map Decimal.natText)) := by
  have hne : ¬(List.range passes.length).isEmpty = true := by simpa using hp
  have hfound := lookup_inside context (hd ▸ List.nodup_range) hs
  rw [loopPath, if_neg hne, ← hd, List.map_map, List.map_map]
  refine congrArg (fun texts => some ("-".intercalate texts)) (List.map_congr_left fun p hp => ?_)
  have hlookup : (inside context passes).lookup (Code.pathVariable p.loop.depth) =
      .nat p.step.position := hfound p hp
  rw [Function.comp_apply, Function.comp_apply, hlookup, Json.toText_nat (hw p hp)]

section Iterated

variable {scope : Scope} {path : String}

theorem evalOutletName_ok {base : OutletBase} {loops : List Nat} {v : Json}
    (hl : scope.loopPath loops = some path) (h : evalOutletName scope base loops = .ok v) :
    ∃ name, base.eval scope = .ok name ∧ v = .str (name ++ "-" ++ path) := by
  obtain ⟨name, hname, h⟩ := Except.bind_eq_ok.mp h
  rw [hl] at h
  cases h
  exact ⟨name, hname, rfl⟩

/-- The outlet that is asked for is called by the name and the positions. -/
theorem OutletCall.eval_ok {call : OutletCall} {v : Json}
    (hl : scope.loopPath call.loopPath = some path) (hp : path ≠ "")
    (h : call.eval scope = .ok v) :
    ∃ name, call.base.eval scope = .ok name ∧
      (v = .null ∨ v.get? "name" = some (.str (name ++ "-" ++ path))) := by
  obtain ⟨name, hname, h⟩ := Except.bind_eq_ok.mp h
  obtain ⟨props, -, h⟩ := Except.bind_eq_ok.mp h
  rw [hl] at h
  cases h
  refine ⟨name, hname, ?_⟩
  unfold Helper.outletFor
  dsimp only
  rw [if_neg hp]
  split
  · exact .inr (Json.ofFields_get?_of_mem (f := ("name", _)) (by simp) List.mem_cons_self)
  · exact .inl rfl

variable {slot : SlotInfo} {r : Resolution}

theorem SlotInfo.identity?_of_isIterated (hr : slot.resolution = some r)
    (hi : r.isIterated = true) : slot.identity? .markup = some (.outletName r.base r.loopPath) := by
  unfold identity?
  rw [hr]
  dsimp only
  rw [hi]
  cases r.base <;> rfl

theorem SlotInfo.outlet?_of_isIterated (hr : slot.resolution = some r) (hi : r.isIterated = true) :
    slot.outlet? .markup = some (.outlet ⟨r.base, slot.props, r.loopPath⟩) := by
  unfold outlet?
  rw [hr]
  dsimp only
  rw [hi, Bool.or_true, Bool.true_or, if_pos rfl]

end Iterated

/-- The outlet of a slot inside loops is called by its name and the positions in the loops, and both
the identity and the outlet that are bound have that name: if no loop names something as the
variable that holds the position in a loop around it, and positions are exact as numbers of the run
time. -/
theorem Template.outlet_name {options : ParseOptions} {source : String}
    {nodes ns fallback : List Node} {context mapping : Json} {accesses : List Access}
    {passes : List Pass} {slot : SlotInfo}
    (hparse : Template.parse options source = .ok nodes)
    (hfamily : options.platform.family = .markup)
    (heval : (Template.annotate options.platform.capabilities nodes).context.eval context =
      .ok mapping)
    (hoccurs : Occurs context (Template.annotate options.platform.capabilities nodes).nodes ns
      accesses passes)
    (hslot : .slot slot fallback ∈ ns) (hloops : passes ≠ [])
    (hspares : passes.Pairwise Pass.Spares)
    (hexact : ∀ p ∈ passes, p.step.position < 0x20000000000000) :
    ∃ record base outlet, mapping.at? accesses = some record ∧
      (Outlet.baseOf options.platform.capabilities slot).eval (.inside context passes) = .ok base ∧
      slot.keys.name.bind record.get? =
        some (.str (Helper.outletIdentity base (passes.map (·.step.position)))) ∧
      slot.keys.outlet.bind record.get? = some outlet ∧
      (outlet = .null ∨ outlet.get? "name" =
        some (.str (Helper.outletIdentity base (passes.map (·.step.position))))) := by
  have hcapabilities : options.platform.capabilities = Family.markup.capabilities := by
    rw [Platform.capabilities, hfamily]
  rw [hcapabilities] at heval hoccurs ⊢
  obtain ⟨hdepths, hnested⟩ := hoccurs.nested (Template.annotate_nested hparse)
  obtain ⟨⟨r, hr, hbase, hpath⟩, -⟩ := hnested.mem hslot
  have hiterated : r.isIterated = true := by
    rw [Resolution.isIterated, hpath]
    simpa using hloops
  have hlook := Scope.loopPath_inside context hdepths hloops hspares hexact
  rw [← hpath] at hlook
  have hpositions : passes.map (·.step.position) ≠ [] := by simpa using hloops
  obtain ⟨record, hat, hparts⟩ := Template.occurs_holds heval hoccurs
  have hown : ∀ p ∈ slot.parts .markup, Holds (.inside context passes) record p :=
    fun p hp => hparts p (Node.parts_subset hslot (List.mem_append_left _ hp))
  rw [SlotInfo.parts, SlotInfo.identity?_of_isIterated hr hiterated,
    SlotInfo.outlet?_of_isIterated hr hiterated, List.forall_mem_append] at hown
  -- Identity and outlet are two values in the record, from thunks that look up the same positions.
  obtain ⟨nameKey, name, hnameKey, hname, hnameGet⟩ := hown.1 _ List.mem_cons_self
  obtain ⟨outletKey, outlet, houtletKey, houtlet, houtletGet⟩ := hown.2 _ List.mem_cons_self
  simp only [Thunk.eval] at hname houtlet
  obtain ⟨base, hb, rfl⟩ := evalOutletName_ok hlook hname
  obtain ⟨base', hb', houtlet⟩ :=
    OutletCall.eval_ok hlook (Helper.intercalate_natText_ne_empty hpositions) houtlet
  have hsame : base' = base := Except.ok.inj (hb'.symm.trans hb)
  rw [hsame, ← Helper.outletIdentity_eq_intercalate base hpositions] at houtlet
  rw [← Helper.outletIdentity_eq_intercalate base hpositions] at hnameGet
  refine ⟨record, base, outlet, hat, hbase ▸ hb, ?_, ?_, houtlet⟩
  · rw [show slot.keys.name = some nameKey from hnameKey, Option.bind_some, hnameGet]
  · rw [show slot.keys.outlet = some outletKey from houtletKey, Option.bind_some, houtletGet]

/-! ## Loops in loops -/

/-- A slot in two loops, which give their items these names. -/
def slotInLoops (outer inner : String) : String :=
  "<view v-for=\"" ++ outer ++ " in xs\"><view v-for=\"" ++ inner ++
    " in ys\"><slot/></view></view>"

/-- What the loops go through, and the outlet that has content. -/
def slotInLoopsContext : Json :=
  .obj [("$slots", .obj [("d", .bool true)]), ("xs", .arr [.int 1]), ("ys", .arr [.str "q"])]

/-- The first instance of the slot in such a template: the passes it renders in, the accesses to its
record, and the slot. -/
def Template.firstInstance? (context : Json) :
    List Node → Option (List Pass × List Access × SlotInfo)
  | [.loop outer [.element _ [.loop inner [.element _ [.slot slot _]]]]] => do
    let items ← (outer.source.tree.eval (.ofContext context)).toOption
    let step ← (Helper.iteration items).head?
    let items' ← (inner.source.tree.eval (.inside context [⟨outer, step⟩])).toOption
    let step' ← (Helper.iteration items').head?
    some ([⟨outer, step⟩, ⟨inner, step'⟩],
      [.item outer.key step.position, .item inner.key step'.position], slot)
  | _ => none

theorem Occurs.of_firstInstance? {context : Json} {tree : List Node} {passes : List Pass}
    {accesses : List Access} {slot : SlotInfo}
    (h : Template.firstInstance? context tree = some (passes, accesses, slot)) :
    ∃ ns fallback, Occurs context tree ns accesses passes ∧ .slot slot fallback ∈ ns := by
  unfold Template.firstInstance? at h
  split at h
  · rename_i outer _ inner _ slot' fallback
    simp only [Option.bind_eq_bind, Option.bind_eq_some_iff, Option.some.injEq, Prod.mk.injEq] at h
    obtain ⟨items, hitems, step, hstep, items', hitems', step', hstep', rfl, rfl, rfl⟩ := h
    have houter := Except.toOption_eq_some.mp hitems
    have hinner := Except.toOption_eq_some.mp hitems'
    refine ⟨_, fallback, .element (.step (.element (.step .root List.mem_cons_self houter ?_)
      List.mem_cons_self) List.mem_cons_self hinner ?_) List.mem_cons_self, List.mem_cons_self⟩
    · exact List.mem_of_head? hstep
    · exact List.mem_of_head? hstep'
  · cases h

instance (outer inner : Pass) : Decidable (outer.Spares inner) :=
  inferInstanceAs (Decidable (_ ∧ _))

/-- A slot in two loops, in the first pass of each. -/
theorem Template.outlet_name_slotInLoops :
    ∃ nodes mapping ns fallback accesses passes slot record outlet,
      Template.parse ⟨.weixin, .condense⟩ (slotInLoops "a" "b") = .ok nodes ∧
      (Template.annotate Platform.weixin.capabilities nodes).context.eval slotInLoopsContext =
        .ok mapping ∧
      Occurs slotInLoopsContext (Template.annotate Platform.weixin.capabilities nodes).nodes ns
        accesses passes ∧ .slot slot fallback ∈ ns ∧
      mapping.at? accesses = some record ∧
      slot.keys.name.bind record.get? = some (.str "d-0-0") ∧
      slot.keys.outlet.bind record.get? = some outlet ∧
      (outlet = .null ∨ outlet.get? "name" = some (.str "d-0-0")) := by
  have hfacts : ∃ nodes ∈ (Template.parse ⟨.weixin, .condense⟩ (slotInLoops "a" "b")).toOption,
      ∃ mapping ∈ ((Template.annotate Platform.weixin.capabilities nodes).context.eval
        slotInLoopsContext).toOption,
      ∃ i ∈ Template.firstInstance? slotInLoopsContext
        (Template.annotate Platform.weixin.capabilities nodes).nodes,
      i.1.Pairwise Pass.Spares ∧ i.1.map (·.step.position) = [0, 0] ∧
      ((Outlet.baseOf Platform.weixin.capabilities i.2.2).eval
        (.inside slotInLoopsContext i.1)).toOption = some "d" := by
    decide +kernel
  obtain ⟨nodes, hparse, mapping, heval, ⟨passes, accesses, slot⟩, hi, hspares, hpositions,
    hbase⟩ := hfacts
  obtain ⟨ns, fallback, hoccurs, hslot⟩ := Occurs.of_firstInstance? hi
  have hparse := Except.toOption_eq_some.mp hparse
  have heval := Except.toOption_eq_some.mp heval
  have hloops : passes ≠ [] := by
    rintro rfl
    cases hpositions
  have hexact : ∀ p ∈ passes, p.step.position < 0x20000000000000 := by
    intro p hp
    have hmem : p.step.position ∈ passes.map (·.step.position) := List.mem_map_of_mem hp
    rw [hpositions] at hmem
    simp_all
  obtain ⟨record, base, outlet, hat, hb, hname, houtlet, hsame⟩ :=
    Template.outlet_name hparse rfl heval hoccurs hslot hloops hspares hexact
  obtain rfl : base = "d" :=
    Except.ok.inj (hb.symm.trans (Except.toOption_eq_some.mp hbase))
  rw [hpositions] at hname hsame
  exact ⟨nodes, mapping, ns, fallback, accesses, passes, slot, record, outlet, hparse, heval,
    hoccurs, hslot, hat, hname, houtlet, hsame⟩

/-- An inner loop that gives its items the name of the variable of the outer one hides the position
in it: the item stands in the name of the outlet. -/
theorem Template.outlet_name_hidden :
    ∃ nodes mapping ns fallback accesses passes slot record,
      Template.parse ⟨.weixin, .condense⟩ (slotInLoops "a" "i0") = .ok nodes ∧
      (Template.annotate Platform.weixin.capabilities nodes).context.eval slotInLoopsContext =
        .ok mapping ∧
      Occurs slotInLoopsContext (Template.annotate Platform.weixin.capabilities nodes).nodes ns
        accesses passes ∧ .slot slot fallback ∈ ns ∧
      mapping.at? accesses = some record ∧
      (Outlet.baseOf Platform.weixin.capabilities slot).eval (.inside slotInLoopsContext passes) =
        .ok "d" ∧
      passes.map (·.step.position) = [0, 0] ∧
      slot.keys.name.bind record.get? = some (.str "d-q-0") ∧
      Helper.outletIdentity "d" [0, 0] ≠ "d-q-0" := by
  have hfacts : ∃ nodes ∈ (Template.parse ⟨.weixin, .condense⟩ (slotInLoops "a" "i0")).toOption,
      ∃ mapping ∈ ((Template.annotate Platform.weixin.capabilities nodes).context.eval
        slotInLoopsContext).toOption,
      ∃ i ∈ Template.firstInstance? slotInLoopsContext
        (Template.annotate Platform.weixin.capabilities nodes).nodes,
      ∃ record ∈ mapping.at? i.2.1,
      ((Outlet.baseOf Platform.weixin.capabilities i.2.2).eval
        (.inside slotInLoopsContext i.1)).toOption = some "d" ∧
      i.1.map (·.step.position) = [0, 0] ∧
      (i.2.2.keys.name.bind record.get?).bind Json.str? = some "d-q-0" := by
    decide +kernel
  obtain ⟨nodes, hparse, mapping, heval, ⟨passes, accesses, slot⟩, hi, record, hat, hbase,
    hpositions, hname⟩ := hfacts
  obtain ⟨ns, fallback, hoccurs, hslot⟩ := Occurs.of_firstInstance? hi
  refine ⟨nodes, mapping, ns, fallback, accesses, passes, slot, record,
    Except.toOption_eq_some.mp hparse, Except.toOption_eq_some.mp heval, hoccurs, hslot, hat,
    Except.toOption_eq_some.mp hbase, hpositions, ?_, by decide⟩
  obtain ⟨v, hv, hstr⟩ := Option.bind_eq_some_iff.mp hname
  cases v with
  | str s =>
    cases hstr
    exact hv
  | _ => cases hstr

end UiTemplate
