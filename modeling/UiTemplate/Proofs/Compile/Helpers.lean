import UiTemplate.Proofs.Backend.Helpers
import UiTemplate.Proofs.Backend.Names
import UiTemplate.Proofs.Binding.Helpers
import UiTemplate.Proofs.Compile.Scopes
import UiTemplate.Proofs.Outlet.Iterated

/-!
# Imported helpers are called

- `Template.annotate_serves`: a template that was read has all that its code takes over.
- `importsCalled`: emitted code imports just the helpers that it calls.
-/

namespace UiTemplate

/-! ## Trees that were read -/

/-- What asks for the outlet of a slot has no expression but those of the slot. -/
theorem SlotInfo.outlet_expressions (capabilities : Capabilities) (slot : SlotInfo)
    (fallback : List Node) (loopPath : List Nat) :
    (OutletCall.mk (Outlet.baseOf capabilities slot) slot.props loopPath).expressions ⊆
      (Node.slot slot fallback).expressions := by
  have hbase : (Outlet.baseOf capabilities slot).expressions ⊆ slot.dynamicName.toList := by
    unfold Outlet.baseOf
    cases slot.dynamicName with
    | none => exact List.nil_subset _
    | some e =>
      dsimp only
      cases e.constant? with
      | none => exact List.Subset.refl _
      | some name => exact List.nil_subset _
  have hprops : slot.props.flatMap OutletProp.expressions =
      (bindings slot.directives).map Binding.expression := by
    have hattributes : (slot.attributes.map fun a =>
        OutletProp.fixed a.name (a.value.getD "")).flatMap OutletProp.expressions = [] := by
      rw [List.flatMap_map]
      exact List.flatMap_eq_nil_iff.mpr fun _ _ => rfl
    rw [SlotInfo.props, List.flatMap_append, hattributes, List.nil_append, List.flatMap_map,
      List.map_eq_flatMap]
    rfl
  rw [OutletCall.expressions, hprops]
  exact List.append_subset.mpr ⟨List.subset_append_of_subset_left _ hbase,
    List.subset_append_right _ _⟩

/-- A node needs no helper if it is static. -/
def Node.IsIdle (n : Node) : Prop :=
  n.isStatic = true → Node.helpers n.within = []

theorem Node.IsPlain.helper?_eq_none {n : Node} (h : n.IsPlain) : n.helper? = none := by
  cases n with
  | interpolation => exact h.elim
  | slot => exact h.elim
  | loop => exact h.elim
  | _ => rfl

theorem Node.WellFormed.isIdle {depth : Nat} {role : Option ChainRole}
    {loop : Option (Expression × String × Option String)} {n : Node}
    (h : n.WellFormed depth role loop) : n.IsIdle :=
  fun hs => List.filterMap_eq_nil_iff.mpr fun m hm => (h.isStatic_iff.mp hs m hm).helper?_eq_none

theorem Node.isIdle_strip (n : Node) : (n.strip SlotInfo.plain).IsIdle ↔ n.IsIdle := by
  have hstatic : (n.strip SlotInfo.plain).isStatic = n.isStatic := by cases n <;> rfl
  have hhelpers : Node.helpers (n.strip SlotInfo.plain).within = Node.helpers n.within := by
    rw [Node.within_strip, Node.helpers, List.filterMap_map]
    exact List.filterMap_congr fun m _ => Node.helper?_strip m
  rw [Node.IsIdle, Node.IsIdle, hstatic, hhelpers]

section Read

variable {options : ParseOptions} {source : String} {nodes : List Node}

/-- A template that was read has all that its code takes over. -/
theorem Template.annotate_serves (h : Template.parse options source = .ok nodes) :
    ∀ n ∈ Node.withinAll (Template.annotate Family.calls.capabilities nodes).nodes,
      Calls.Serves (Template.sources nodes)
        (Template.annotate Family.calls.capabilities nodes).context n := by
  have hstrip := Template.annotate_strip Family.calls.capabilities nodes
  intro n hn
  have hexpressions : n.expressions ⊆ (Template.sources nodes).expressions := by
    rw [← Template.sources_of_strip_eq hstrip]
    exact fun e he => List.mem_flatMap.mpr ⟨n, hn, he⟩
  refine ⟨Template.annotate_sound h n hn, ?_, hexpressions, ?_, ?_⟩
  · rintro info fallback rfl
    obtain ⟨depth, r, hr, hbase, -⟩ :=
      Node.NestedAll.isPlaced _ (Template.annotate_nested h) _ hn
    refine ⟨_, List.Subset.trans ?_ hexpressions, Template.annotate_resolved nodes hn hr⟩
    rw [hbase]
    exact info.outlet_expressions _ fallback _
  · rw [← Template.sources_of_strip_eq hstrip]
    exact fun names hnames => List.mem_flatMap.mpr ⟨n, hn, hnames⟩
  · exact (Node.forall_within_of_stripAll_eq SlotInfo.plain Node.isIdle_strip hstrip).mpr
      (Template.parse_forall_within Node.WellFormed.isIdle h) n hn

end Read

/-! ## What is imported -/

/-- What is imported with the function of bound values are the helpers that the code of some of them
calls. -/
structure BindingContext.ImportsCalled (c : BindingContext) : Prop where
  /-- The module is the import of the helpers under the names that they are called by, and the
  function. -/
  source : ∀ runtime, c.functionSource runtime =
    String.join ((Helper.imports c.helpers.toList runtime).map (·.text ++ "\n")) ++
      ("export default function bindings(_ctx) \x7b\n  return " ++ c.root.render [] 1 ++ ";\n\x7d\n")
  helpers : ∀ h, c.helpers.contains h = true ↔
    ∃ e ∈ Record.reachable c.root, e.2.helper? = some h
  /-- A bound value calls its own helper, and those of the bound values inside it. -/
  entries : ∀ e ∈ Record.reachable c.root, ∀ locals level,
    (Record.sources c.root).Calls (e.2.render locals level)
      (e.2.helper?.toList ++ helpersOf e.2.reachable)
  root : ∀ locals level,
    (Record.sources c.root).Calls (c.root.render locals level) (helpersOf (Record.reachable c.root))

/-- What is imported with a unit of calls are the helpers that the nodes of the template need, which
are those that its code calls. -/
structure RenderUnit.ImportsCalled (unit : RenderUnit) (nodes : List Node) : Prop where
  /-- The import of the helpers under the names that they are called by is among the lines that
  import, behind the constructors and before the components. -/
  lines : ∀ o, unit.importLines o =
    (unit.constructorImports o ++ Helper.imports unit.helpers.toList o.runtimeModule ++
      unit.componentImports o).map Statement.text
  helpers : ∀ h, h ∈ unit.helpers.toList ↔ ∃ n ∈ Node.withinAll nodes, n.helper? = some h
  root : (Template.sources nodes).Calls unit.root (Node.helpers (Node.withinAll nodes))
  hoisted : ∀ line ∈ unit.hoisted, (Template.sources nodes).Calls line []

theorem BindingContext.functionSource_eq (c : BindingContext) (runtime : String) :
    c.functionSource runtime =
      String.join ((Helper.imports c.helpers.toList runtime).map (·.text ++ "\n")) ++
        ("export default function bindings(_ctx) \x7b\n  return " ++ c.root.render [] 1 ++
          ";\n\x7d\n") := by
  have himports := Helper.importStatement_eq c.helpers.toList runtime
  have hlines : ((Helper.imports c.helpers.toList runtime).map (·.text ++ "\n")) =
      (Helper.importStatement c.helpers.toList runtime).toList.map (· ++ "\n") := by
    rw [himports, List.map_map]
    rfl
  rw [functionSource, hlines]
  cases Helper.importStatement c.helpers.toList runtime with
  | none =>
    simp only [Option.toList_none, List.map_nil, String.join_nil, String.append_assoc]
  | some statement =>
    simp only [Option.toList_some, List.map_cons, List.map_nil, String.join_cons, String.join_nil,
      String.append_empty, String.append_assoc]

theorem Template.extract_importsCalled (capabilities : Capabilities) (nodes : List Node) :
    (Template.extract capabilities nodes).2.ImportsCalled := by
  obtain ⟨hhelpers, hkeys⟩ := Template.extract_notes capabilities nodes
  refine ⟨fun runtime => BindingContext.functionSource_eq _ runtime, fun h => ?_,
    fun e he => Record.render_entry_calls hkeys he, Record.render_calls hkeys⟩
  rw [hhelpers h, helpersOf, List.mem_filterMap]
  refine or_iff_right ?_
  cases h <;> decide

/-- A strict compilation to calls. -/
theorem compile_unit_importsCalled {resolver : Resolver} {o : CompileOptions} {source : String}
    {r : CompileResult} (hf : o.platform.family = .calls) (hs : o.partialOutput = false)
    (h : compile resolver o source = .ok r) :
    ∃ (nodes : List Node) (unit : RenderUnit), Template.parse o.parseOptions source = .ok nodes ∧
      r.output = .function (unit.code o) ∧ r.helpers = unit.helpers.toList ∧
      unit.ImportsCalled nodes := by
  obtain ⟨nodes, unit, errors, hparse, hgenerate, houtput, hhelpers, -⟩ := compile_unit hf h
  obtain ⟨hroot, hhoisted, hnoted⟩ :=
    Calls.generate_adds _ hs (Template.annotate_serves hparse) hgenerate
  rw [Node.helpers_of_strip_eq (Template.annotate_strip Family.calls.capabilities nodes)]
    at hroot hnoted
  exact ⟨nodes, unit, hparse, houtput, hhelpers, unit.importLines_eq,
    fun k => (hnoted k).trans List.mem_filterMap, hroot, hhoisted⟩

/-- Just the helpers that are called are imported: with the function of bound values those that the
bound values call which are reachable from the root, whatever the tree and the family; and with the
unit of a strict compilation to calls those that the nodes of the template need. -/
theorem importsCalled :
    (∀ capabilities nodes, (Template.extract capabilities nodes).2.ImportsCalled) ∧
    ∀ {resolver : Resolver} {o : CompileOptions} {source : String} {r : CompileResult},
      o.platform.family = .calls → o.partialOutput = false → compile resolver o source = .ok r →
      ∃ (nodes : List Node) (unit : RenderUnit), Template.parse o.parseOptions source = .ok nodes ∧
        r.output = .function (unit.code o) ∧ r.helpers = unit.helpers.toList ∧
        unit.ImportsCalled nodes :=
  ⟨Template.extract_importsCalled, compile_unit_importsCalled⟩

/-- A slot inside a loop, with an interpolation in its fallback. -/
def slotWithFallback : String :=
  "<view v-for=\"x in xs\"><slot :name=\"x\">\x7b\x7b x \x7d\x7d</slot></view>"

/-- The loop, its outlet and the interpolation call one helper each, and just these are imported. -/
theorem importsCalled_slotWithFallback :
    ∃ (r : CompileResult) (nodes : List Node) (unit : RenderUnit),
      compile Resolver.none {} slotWithFallback = .ok r ∧
      r.helpers = [.display, .forEach, .resolveOutlet] ∧ r.helpers = unit.helpers.toList ∧
      r.output = .function (unit.code {}) ∧ unit.ImportsCalled nodes ∧
      Node.helpers (Node.withinAll nodes) = [.forEach, .resolveOutlet, .display] := by
  have hfacts : ∃ r ∈ (compile Resolver.none {} slotWithFallback).toOption,
      ∃ nodes ∈ (Template.parse ({} : CompileOptions).parseOptions slotWithFallback).toOption,
      r.helpers = [.display, .forEach, .resolveOutlet] ∧
      Node.helpers (Node.withinAll nodes) = [.forEach, .resolveOutlet, .display] := by
    decide +kernel
  obtain ⟨r, hr, nodes, hnodes, hhelpers, hneeded⟩ := hfacts
  have hr := Except.toOption_eq_some.mp hr
  have hfamily : ({} : CompileOptions).platform.family = .calls := rfl
  obtain ⟨nodes', unit, hparse, houtput, hunit, himports⟩ := importsCalled.2 hfamily rfl hr
  obtain rfl : nodes = nodes' :=
    Except.ok.inj ((Except.toOption_eq_some.mp hnodes).symm.trans hparse)
  exact ⟨r, nodes, unit, hr, hhelpers, hunit, houtput, himports, hneeded⟩

end UiTemplate
