import UiTemplate.Proofs.Backend.Components
import UiTemplate.Proofs.Compile.Scopes

/-!
# The names that compiled code binds

Constructors, helpers and hoisted nodes get names that are different. The names of components are
made of their tags, or are what the resolver says.

- `RenderUnit.BindsNames`: where the names of a unit stand, and when they are all different.
- `compile_bindsNames`: this holds of the unit of every strict compilation to calls.
-/

namespace UiTemplate

open Statement (namesOf)

namespace RenderUnit

/-- The names in the code of a unit, whose components have the tags `tags`. -/
structure BindsNames (u : RenderUnit) (resolver : Resolver) (o : CompileOptions)
    (tags values : List String) : Prop where
  imports : u.importLines o = (u.runtimeImports o ++ u.componentImports o).map Statement.text
  hoisted : u.hoisted = (hoistedConstants values).map Statement.text
  declarations : (u.components.map fun c => c.declaration o.platform) =
    (u.constants o).map Statement.text
  /-- Every tag has one component. -/
  nodup : (u.components.map ComponentRef.tag).Nodup
  components : ∀ c, c ∈ u.components ↔ c.tag ∈ tags ∧ c.source = resolver c.tag
  /-- The names that come neither from a tag nor from the resolver are all different. -/
  own : (u.ownNames o values).Nodup
  /-- When the names outside the render function are all different. -/
  outside : (namesOf (u.moduleStatements o values)).Nodup ↔
    resolver.KeepsApart o.platform tags (u.ownNames o values)
  /-- When the constants inside the render function are all different. -/
  inside : (namesOf (u.constants o)).Nodup ↔
    ∀ t ∈ tags, ∀ t' ∈ tags, Code.identifier t = Code.identifier t' → t = t'

/-- A unit that is well named has the names that its tags and the resolver give it. -/
theorem WellNamed.bindsNames {resolver : Resolver} {u : RenderUnit} (h : u.WellNamed resolver)
    (o : CompileOptions) {tags : List String}
    (htags : ∀ t, t ∈ u.components.map ComponentRef.tag ↔ t ∈ tags) :
    ∃ values, u.BindsNames resolver o tags values := by
  obtain ⟨values, hvalues⟩ := h.hoisted
  have hcomponents (c : ComponentRef) :
      c ∈ u.components ↔ c.tag ∈ tags ∧ c.source = resolver c.tag := by
    constructor
    · exact fun hc => ⟨(htags _).mp (List.mem_map_of_mem hc), h.sources c hc⟩
    · rintro ⟨ht, hsource⟩
      obtain ⟨c', hc', htag⟩ := List.mem_map.mp ((htags _).mpr ht)
      obtain ⟨tag, source⟩ := c
      obtain ⟨tag', source'⟩ := c'
      obtain rfl : tag' = tag := htag
      obtain rfl : source' = source := (h.sources _ hc').trans hsource.symm
      exact hc'
  have houtside : resolver.KeepsApart o.platform (u.components.map ComponentRef.tag)
      (u.ownNames o values) ↔ resolver.KeepsApart o.platform tags (u.ownNames o values) :=
    ⟨fun hapart => hapart.mono fun t ht => (htags t).mpr ht,
      fun hapart => hapart.mono fun t ht => (htags t).mp ht⟩
  have hinside := h.constants_nodup_iff o
  simp only [htags] at hinside
  exact ⟨values, u.importLines_eq o, hvalues, (u.constants_text o).symm, h.tags, hcomponents,
    h.ownNames_nodup o values, (h.module_nodup_iff o values).trans houtside, hinside⟩

end RenderUnit

/-- Where a strict compilation to calls binds a name twice, and where not. Constructors, helpers and
hoisted nodes always have different names, and every component tag of the template has one
component. The constants of components are all different exactly if the tags are different
identifiers; the names outside the render function exactly if the resolver keeps the components
apart. -/
theorem compile_bindsNames {resolver : Resolver} {o : CompileOptions} {source : String}
    {r : CompileResult} (hf : o.platform.family = .calls) (hs : o.partialOutput = false)
    (h : compile resolver o source = .ok r) :
    ∃ nodes unit errors values, Template.parse o.parseOptions source = .ok nodes ∧
      Calls.generate (o.callSettings resolver
          (Template.annotate Family.calls.capabilities nodes).context)
        (Template.annotate Family.calls.capabilities nodes).nodes = .ok (unit, errors) ∧
      r.output = .function (unit.code o) ∧
      unit.BindsNames resolver o (Node.componentTags (Node.withinAll nodes)) values := by
  obtain ⟨nodes, unit, errors, hparse, hgenerate, houtput, -⟩ := compile_unit hf h
  have hsingle := Template.annotate_isSingle (Template.parse_isSingle hparse) Family.calls.capabilities
  obtain ⟨hnamed, htags⟩ := Calls.generate_wellNamed _ hs hsingle hgenerate
  have hsame : Node.componentTags
        (Node.withinAll (Template.annotate Family.calls.capabilities nodes).nodes) =
      Node.componentTags (Node.withinAll nodes) :=
    Node.filterMap_within_of_stripAll_eq SlotInfo.plain Node.componentTag?_strip
      (Template.annotate_strip Family.calls.capabilities nodes)
  rw [hsame] at htags
  obtain ⟨values, hnames⟩ := hnamed.bindsNames o htags
  exact ⟨nodes, unit, errors, values, hparse, hgenerate, houtput, hnames⟩

/-- A component that the resolver names, one that is a file of its own, and one that is left to the
runtime. -/
def threeComponents : String :=
  "<my-card/><uni-icons/><my-list/>"

/-- Where two of them come from. -/
def threeOptions : CompileOptions :=
  { components := .ofList
      [("my-card", .resolved ⟨"MyCard", "@/card", none⟩), ("uni-icons", .file "@/icons")] }

/-- A component that is imported, one that is found by its file and one that is resolved at run
time. -/
theorem compile_bindsNames_threeComponents :
    ∃ (r : CompileResult) (nodes : List Node) (unit : RenderUnit),
      compileWithTable threeOptions threeComponents = .ok r ∧
      r.output = .function (unit.code threeOptions) ∧
      Node.componentTags (Node.withinAll nodes) = ["my-card", "uni-icons", "my-list"] ∧
      namesOf (unit.moduleStatements threeOptions []) =
        ["Fragment", "createElementVNode", "createVNode", "resolveComponent",
          "resolveEasyComponent", "MyCard", "_easycom_uni_icons"] ∧
      (Resolver.ofTable threeOptions.components).KeepsApart .web
        ["my-card", "uni-icons", "my-list"] (unit.ownNames threeOptions []) ∧
      (namesOf (unit.constants threeOptions)).Nodup := by
  have hfacts : ∃ r ∈ (compileWithTable threeOptions threeComponents).toOption,
      ∃ nodes ∈ (Template.parse threeOptions.parseOptions threeComponents).toOption,
      ∃ p ∈ (Calls.generate (threeOptions.callSettings (.ofTable threeOptions.components)
          (Template.annotate Family.calls.capabilities nodes).context)
        (Template.annotate Family.calls.capabilities nodes).nodes).toOption,
      Node.componentTags (Node.withinAll nodes) = ["my-card", "uni-icons", "my-list"] ∧
      p.1.hoisted = [] ∧
      namesOf (p.1.moduleStatements threeOptions []) =
        ["Fragment", "createElementVNode", "createVNode", "resolveComponent",
          "resolveEasyComponent", "MyCard", "_easycom_uni_icons"] := by
    decide +kernel
  obtain ⟨r, hr, nodes, hnodes, ⟨unit, errors⟩, hunit, htags, hhoisted, hnames⟩ := hfacts
  have hr := Except.toOption_eq_some.mp hr
  have hfamily : threeOptions.platform.family = .calls := rfl
  obtain ⟨nodes', unit', errors', values, hparse, hgenerate, houtput, hbinds⟩ :=
    compile_bindsNames hfamily rfl hr
  obtain rfl : nodes = nodes' :=
    Except.ok.inj ((Except.toOption_eq_some.mp hnodes).symm.trans hparse)
  obtain ⟨rfl, rfl⟩ := Prod.mk.inj
    (Except.ok.inj ((Except.toOption_eq_some.mp hunit).symm.trans hgenerate))
  obtain rfl : values = [] := by
    have hlength := congrArg List.length hbinds.hoisted
    rw [hhoisted] at hlength
    simpa [hoistedConstants, eq_comm] using hlength
  rw [htags] at hbinds
  refine ⟨r, nodes, unit, hr, houtput, htags, hnames, hbinds.outside.mp ?_, hbinds.inside.mpr ?_⟩
  · rw [hnames]
    decide
  · decide

/-- Two tags that are one identifier. -/
def clashingTags : String :=
  "<my-card/><my_card/>"

/-- Two files for them. -/
def clashingOptions : CompileOptions :=
  { components := .ofList [("my-card", .file "@/a"), ("my_card", .file "@/b")] }

/-- The code for these tags. -/
def clashingCode : String :=
  "import \x7b Fragment, createElementVNode, createVNode, resolveEasyComponent \x7d from \"vue\";\n" ++
    "import _easycom_my_card from '@/a'\nimport _easycom_my_card from '@/b'\n\n" ++
    "export function render(_ctx) \x7b\n" ++
    "  const _component_my_card = resolveEasyComponent(\"my-card\",_easycom_my_card)\n" ++
    "  const _component_my_card = resolveEasyComponent(\"my_card\",_easycom_my_card)\n\n" ++
    "  return createElementVNode(Fragment, null, [\n    createVNode(_component_my_card),\n" ++
    "    createVNode(_component_my_card)\n  ], 64 /* STABLE_FRAGMENT */)\n\x7d\n"

/-- For different tags that are one identifier both a file is imported and a constant is declared
twice under one name. -/
theorem compile_bindsNames_clashingTags :
    clashingOptions.platform.family = .calls ∧ clashingOptions.partialOutput = false ∧
    ∃ (r : CompileResult) (nodes : List Node) (unit : RenderUnit) (errors : List Diagnostic),
      compileWithTable clashingOptions clashingTags = .ok r ∧
      Template.parse clashingOptions.parseOptions clashingTags = .ok nodes ∧
      Calls.generate (clashingOptions.callSettings (.ofTable clashingOptions.components)
          (Template.annotate Family.calls.capabilities nodes).context)
        (Template.annotate Family.calls.capabilities nodes).nodes = .ok (unit, errors) ∧
      r.output = .function (unit.code clashingOptions) ∧ r.output = .function clashingCode ∧
      unit.components.map ComponentRef.tag = ["my-card", "my_card"] ∧
      namesOf (unit.constants clashingOptions) = ["_component_my_card", "_component_my_card"] ∧
      ¬(namesOf (unit.constants clashingOptions)).Nodup ∧ unit.hoisted = [] ∧
      ¬(namesOf (unit.moduleStatements clashingOptions [])).Nodup := by
  have hfacts : ∃ r ∈ (compileWithTable clashingOptions clashingTags).toOption,
      ∃ nodes ∈ (Template.parse clashingOptions.parseOptions clashingTags).toOption,
      ∃ p ∈ (Calls.generate (clashingOptions.callSettings (.ofTable clashingOptions.components)
          (Template.annotate Family.calls.capabilities nodes).context)
        (Template.annotate Family.calls.capabilities nodes).nodes).toOption,
      r.output = .function (p.1.code clashingOptions) ∧ r.output = .function clashingCode ∧
      p.1.components.map ComponentRef.tag = ["my-card", "my_card"] ∧
      namesOf (p.1.constants clashingOptions) = ["_component_my_card", "_component_my_card"] ∧
      ¬(namesOf (p.1.constants clashingOptions)).Nodup ∧ p.1.hoisted = [] ∧
      ¬(namesOf (p.1.moduleStatements clashingOptions [])).Nodup := by
    decide +kernel
  obtain ⟨r, hr, nodes, hnodes, ⟨unit, errors⟩, hunit, hclash⟩ := hfacts
  exact ⟨rfl, rfl, r, nodes, unit, errors, Except.toOption_eq_some.mp hr,
    Except.toOption_eq_some.mp hnodes, Except.toOption_eq_some.mp hunit, hclash⟩

end UiTemplate
