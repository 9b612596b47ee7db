import UiTemplate.Proofs.Backend.Placeholders
import UiTemplate.Proofs.Compile.Scopes

/-!
# Placeholders in emitted markup

Whoever runs emitted markup takes what stands between double braces for a reference to a bound value.
So no such thing may stand there that is not one, whatever stood in the template.

- `compile_placeholders`: every placeholder in emitted markup, outside comments, was made by the
  compiler, if what markup takes over as it stands holds none.
- `compile_placeholders_literal`: the value of an attribute that holds one, which is taken over.
-/

namespace UiTemplate

/-! ## Keys and outlets do not matter -/

theorem Node.edge_strip (f : SlotInfo → SlotInfo) (n : Node) : (n.strip f).edge = n.edge := by
  cases n <;> rfl

theorem Node.joined_stripAll (f : SlotInfo → SlotInfo) (ns : List Node) :
    Node.Joined (Node.stripAll f ns) ↔ Node.Joined ns := by
  have hedges : (Node.stripAll f ns).map Node.edge = ns.map Node.edge := by
    induction ns with
    | nil => rfl
    | cons n ns ih => rw [Node.stripAll, List.map_cons, List.map_cons, ih, Node.edge_strip]
  rw [Node.Joined, Node.Joined, hedges]

theorem forall_bindings_strip {P : Binding → Prop} (hP : ∀ b, P { b with key := none } ↔ P b)
    (ds : List Directive) :
    (∀ b ∈ bindings (ds.map Directive.strip), P b) ↔ ∀ b ∈ bindings ds, P b := by
  rw [bindings_strip, List.forall_mem_map]
  exact forall₂_congr fun b _ => hP b

theorem Node.written_strip (f : SlotInfo → SlotInfo) (n : Node) :
    (n.strip f).Written ↔ n.Written := by
  cases n with
  | element info children =>
    have hbindings :=
      forall_bindings_strip (P := fun b => IsAttributeName b.name) (fun _ => Iff.rfl) info.directives
    constructor
    · intro h
      exact ⟨h.tag, h.attributes, hbindings.mp h.bindings,
        fun hc => Node.stripAll_eq_nil.mp (h.closed hc), h.void,
        (Node.joined_stripAll f children).mp h.joined⟩
    · intro h
      exact ⟨h.tag, h.attributes, hbindings.mpr h.bindings,
        fun hc => Node.stripAll_eq_nil.mpr (h.closed hc), h.void,
        (Node.joined_stripAll f children).mpr h.joined⟩
  | slot info fallback => exact Node.joined_stripAll f fallback
  | _ => exact Iff.rfl

theorem Node.namesHandlers_strip (f : SlotInfo → SlotInfo) (n : Node) :
    (n.strip f).NamesHandlers ↔ n.NamesHandlers := by
  cases n with
  | element info children => exact forall_bindings_strip (fun _ => Iff.rfl) info.directives
  | _ => exact Iff.rfl

/-! ## Templates that were read -/

section Read

variable {options : ParseOptions} {source : String} {nodes : List Node}
  (h : Template.parse options source = .ok nodes)

include h

/-- Handlers that are names were read as expressions. -/
theorem Template.parse_namesHandlers : ∀ n ∈ Node.withinAll nodes, n.NamesHandlers := by
  let read : Demand :=
    ⟨fun e => ∃ text, Expression.parse text = .ok e, fun _ => True, fun _ => True⟩
  have hmeets : Node.MeetAll read nodes :=
    Template.read_meets (fun text e he => ⟨text, he⟩) (fun _ _ => trivial) (fun _ _ => trivial)
      (Template.parse_eq_ok.mp h)
  intro n hn
  cases n with
  | element info children =>
    intro b hb handler htree
    obtain ⟨text, htext⟩ := bindings_meet (hmeets _ hn).directives b hb
    exact Expression.isWord_of_ident htext htree
  | _ => trivial

/-- All is known of the nodes of a template that was read and annotated, if no placeholder stands in
what markup takes over from them. -/
theorem Template.annotate_prepared (settings : MarkupSettings)
    (hfree : ∀ n ∈ Node.withinAll (Template.annotate Family.markup.capabilities nodes).nodes,
      n.BraceFree settings.dialect) :
    Markup.PreparedAll settings (Template.annotate Family.markup.capabilities nodes).nodes
      (Template.annotate Family.markup.capabilities nodes).nodes := by
  have hstrip := Template.annotate_strip Family.markup.capabilities nodes
  have hwritten := (Node.forall_within_of_stripAll_eq SlotInfo.plain
    (Node.written_strip SlotInfo.plain) hstrip).mpr (Template.parse_written h).1
  have hhandlers := (Node.forall_within_of_stripAll_eq SlotInfo.plain
    (Node.namesHandlers_strip SlotInfo.plain) hstrip).mpr (Template.parse_namesHandlers h)
  exact fun n hn => ⟨hn, hwritten n hn,
    Template.annotate_isSingle (Template.parse_isSingle h) _ n hn,
    Template.annotate_isAnnotated h _ n hn, Template.annotate_governs h _ n hn, hfree n hn,
    hhandlers n hn⟩

theorem Template.annotate_joined (capabilities : Capabilities) :
    Node.Joined (Template.annotate capabilities nodes).nodes := by
  have hjoined := (Template.parse_written h).2
  rw [← Node.joined_stripAll SlotInfo.plain] at hjoined ⊢
  rwa [Template.annotate_strip]

end Read

/-! ## Compilations -/

/-- The markup of an output. -/
def CompileOutput.markup? : CompileOutput → Option String
  | function _ => none
  | pair markup _ => some markup

/-- **Placeholders are made by the compiler.** Markup that is emitted without tolerating faults is
read again as a tree. If no placeholder stands in what it takes over from the template as it stands,
every placeholder outside its comments is one of the following: a reference that leads to a value of
the record in scope, the source of a loop that the loop is repeated over, what is passed to an
outlet, the test whether the outlet of a slot with a fallback has content, or the outlets for which a
component with content has it. Texts hold none. -/
theorem compile_placeholders {resolver : Resolver} {o : CompileOptions} {source : String}
    {r : CompileResult} {nodes : List Node} (hmarkup : o.platform.family = .markup)
    (hstrict : o.partialOutput = false) (h : compile resolver o source = .ok r)
    (hparse : Template.parse o.parseOptions source = .ok nodes)
    (hfree : ∀ n ∈ Node.withinAll (Template.annotate o.platform.capabilities nodes).nodes,
      n.BraceFree o.markupSettings.dialect) :
    ∃ markup rs, r.output = .pair markup
        ((Template.annotate o.platform.capabilities nodes).context.functionSource
          o.runtimeModule) ∧
      Raw.read markup.toList = .ok rs ∧
      Raw.ResolveAll o.markupSettings (Template.annotate o.platform.capabilities nodes).nodes
        (View.root (Template.annotate o.platform.capabilities nodes).context) rs := by
  have hc : o.platform.capabilities = Family.markup.capabilities := by
    rw [Platform.capabilities, hmarkup]
  obtain ⟨nodes', helpers, errors, hparse', hemit, -, -⟩ := compile_eq_ok h
  obtain rfl : nodes' = nodes := Except.ok.inj (hparse'.symm.trans hparse)
  rw [hc] at hemit hfree ⊢
  unfold emitOutput at hemit
  rw [hmarkup] at hemit
  obtain ⟨⟨markup, errors⟩, hgenerate, hemit⟩ := Except.bind_eq_ok.mp hemit
  obtain ⟨houtput, -⟩ := Prod.mk.inj (Except.ok.inj hemit)
  have hsetup : Markup.Setup o.markupSettings
      (Template.annotate Family.markup.capabilities nodes').context := by
    refine ⟨hstrict, ?_, rfl⟩
    rw [CompileOptions.markupSettings, hc]
    show '\x7d' ∉ Family.markup.capabilities.defaultOutlet.toList
    decide
  obtain ⟨rs, hread, hresolve⟩ := Markup.generate_emits hsetup hgenerate
    (Template.annotate_prepared hparse o.markupSettings hfree) (Template.annotate_joined hparse _)
    (Template.extract_leadsBackAll Family.markup.capabilities _)
    (.root (Template.extract_inOrder Family.markup.capabilities _))
  exact ⟨markup, rs, houtput.symm, hread, hresolve⟩

/-- A component with content under a condition, in it a loop with a key, a slot and a handler, and a
slot with a fallback in all other cases. -/
def placeholderKinds : String :=
  "<card v-if=\"ok\" title='a \"b\"'><view v-for=\"x in xs\" :key=\"x.id\" :id=\"x.id\">" ++
    "<slot name=\"row\" :item=\"x\">none</slot><text @tap=\"open\">\x7b\x7b x.name \x7d\x7d" ++
    "</text></view></card><slot v-else>fallback</slot>"

/-- The markup of this template. -/
def placeholderKindsMarkup : String :=
  "<card wx:if=\"\x7b\x7ba.b\x7d\x7d\" title=\"a &quot;b&quot;\" " ++
    "u-s=\"\x7b\x7b['d']\x7d\x7d\"><view wx:for=\"\x7b\x7ba.c\x7d\x7d\" " ++
    "wx:for-item=\"x\" wx:key=\"a\" id=\"\x7b\x7bx.b\x7d\x7d\">" ++
    "<block wx:if=\"\x7b\x7bx.d\x7d\x7d\"><slot name=\"\x7b\x7bx.c\x7d\x7d\" " ++
    "props=\"\x7b\x7bx.d.props\x7d\x7d\"/></block><block wx:else>none</block>" ++
    "<text bindtap=\"open\">\x7b\x7bx.e\x7d\x7d</text></view></card><block wx:else>" ++
    "<block wx:if=\"\x7b\x7b$slots.d\x7d\x7d\"><slot/></block><block wx:else>fallback</block>" ++
    "</block>"

/-- Every placeholder of the markup is resolved in the record around it. -/
theorem compile_placeholders_kinds :
    ∃ r nodes rs, compile Resolver.none toMarkup placeholderKinds = .ok r ∧
      Template.parse toMarkup.parseOptions placeholderKinds = .ok nodes ∧
      (∀ n ∈ Node.withinAll (Template.annotate toMarkup.platform.capabilities nodes).nodes,
        n.BraceFree toMarkup.markupSettings.dialect) ∧
      r.output.markup? = some placeholderKindsMarkup ∧
      Raw.read placeholderKindsMarkup.toList = .ok rs ∧
      Raw.ResolveAll toMarkup.markupSettings
        (Template.annotate toMarkup.platform.capabilities nodes).nodes
        (View.root (Template.annotate toMarkup.platform.capabilities nodes).context) rs := by
  have hfacts : ∃ r ∈ (compile Resolver.none toMarkup placeholderKinds).toOption,
      ∃ nodes ∈ (Template.parse toMarkup.parseOptions placeholderKinds).toOption,
      (∀ n ∈ Node.withinAll (Template.annotate toMarkup.platform.capabilities nodes).nodes,
        n.BraceFree toMarkup.markupSettings.dialect) ∧
      r.output.markup? = some placeholderKindsMarkup := by
    decide +kernel
  obtain ⟨r, hr, nodes, hnodes, hfree, houtput⟩ := hfacts
  have hr := Except.toOption_eq_some.mp hr
  have hnodes := Except.toOption_eq_some.mp hnodes
  obtain ⟨markup, rs, hmarkup, hread, hresolve⟩ :=
    compile_placeholders (by decide) (by decide) hr hnodes hfree
  obtain rfl : placeholderKindsMarkup = markup := by
    rw [hmarkup] at houtput
    exact (Option.some.inj houtput).symm
  exact ⟨r, nodes, rs, hr, hnodes, hfree, houtput, hread, hresolve⟩

/-- A static attribute whose value holds double braces. -/
def bracedLiteral : String :=
  "<view title=\"\x7b\x7bx\x7d\x7d\"/>"

/-- The value is taken over, so that its braces make a placeholder to which no bound value belongs.
In calls the same value is a text. -/
theorem compile_placeholders_literal :
    ∃ r r' nodes rs, compile Resolver.none toMarkup bracedLiteral = .ok r ∧
      compile Resolver.none {} bracedLiteral = .ok r' ∧
      Template.parse toMarkup.parseOptions bracedLiteral = .ok nodes ∧
      r.output = .pair bracedLiteral
        "export default function bindings(_ctx) \x7b\n  return \x7b\x7d;\n\x7d\n" ∧
      r'.output = .function
        ("import \x7b createElementVNode \x7d from \"vue\";\n\n" ++
          "export function render(_ctx) \x7b\n  return createElementVNode(\"view\", " ++
          "\x7b title: \"\x7b\x7bx\x7d\x7d\" \x7d)\n\x7d\n") ∧
      Raw.read bracedLiteral.toList = .ok rs ∧
      ¬Raw.ResolveAll toMarkup.markupSettings
        (Template.annotate toMarkup.platform.capabilities nodes).nodes
        (View.root (Template.annotate toMarkup.platform.capabilities nodes).context) rs := by
  have hfacts : ∃ r ∈ (compile Resolver.none toMarkup bracedLiteral).toOption,
      ∃ r' ∈ (compile Resolver.none {} bracedLiteral).toOption,
      ∃ nodes ∈ (Template.parse toMarkup.parseOptions bracedLiteral).toOption,
      r.output = .pair bracedLiteral
        "export default function bindings(_ctx) \x7b\n  return \x7b\x7d;\n\x7d\n" ∧
      r'.output = .function
        ("import \x7b createElementVNode \x7d from \"vue\";\n\n" ++
          "export function render(_ctx) \x7b\n  return createElementVNode(\"view\", " ++
          "\x7b title: \"\x7b\x7bx\x7d\x7d\" \x7d)\n\x7d\n") ∧
      (Template.annotate toMarkup.platform.capabilities nodes).context.root.map Prod.fst = [] := by
    decide +kernel
  obtain ⟨r, hr, r', hr', nodes, hnodes, houtput, houtput', hroot⟩ := hfacts
  have hread : Raw.read bracedLiteral.toList =
      .ok [.element "view" [⟨"title", some "\x7b\x7bx\x7d\x7d", 6, 13⟩] true 0 []] := by
    have hpieces : pieces ⟨0, bracedLiteral.toList⟩ =
        ([.openTag "view" [⟨"title", some "\x7b\x7bx\x7d\x7d", 6, 13⟩] true 0], none) := by
      decide +kernel
    rw [Raw.read, hpieces]
    rfl
  refine ⟨r, r', nodes, _, Except.toOption_eq_some.mp hr, Except.toOption_eq_some.mp hr',
    Except.toOption_eq_some.mp hnodes, houtput, houtput', hread, ?_⟩
  generalize hcontext : (Template.annotate toMarkup.platform.capabilities nodes).context = c
  rw [hcontext, List.map_eq_nil_iff] at hroot
  have hnone (key : Key) : (View.root c).record.get? key = none := by
    rw [View.root, hroot]
    rfl
  rintro ⟨⟨-, inner, henters, hresolves, -⟩, -⟩
  -- No value is bound in the whole template, so that neither the element nor its title can be one.
  have hinner : inner = View.root c := by
    cases henters with
    | stays => rfl
    | branch hkey => exact absurd ((hnone _).symm.trans hkey) (Option.some_ne_none _).symm
    | otherwise hkey => exact absurd ((hnone _).symm.trans hkey) (Option.some_ne_none _).symm
    | loop hkey => exact absurd ((hnone _).symm.trans hkey) (Option.some_ne_none _).symm
  subst hinner
  obtain ⟨-, hbodies⟩ := hresolves _ List.mem_cons_self
  have hbody : ['x'] ∈ placeholders "\x7b\x7bx\x7d\x7d".toList := by decide +kernel
  obtain ⟨made, -, hmade⟩ := hbodies _ rfl _ hbody
  cases hmade with
  | reference h =>
    obtain ⟨key, -, hkey⟩ := h
    exact absurd ((hnone key).symm.trans hkey) (Option.some_ne_none _).symm
  | source hname => exact absurd hname (by decide)
  | props hname => exact absurd hname (by decide)
  | presence hname => exact absurd hname (by decide)
  | content hname => exact absurd hname (by decide)

end UiTemplate
