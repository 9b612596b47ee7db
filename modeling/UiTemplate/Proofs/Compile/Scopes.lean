import UiTemplate.Proofs.Backend.Quoted
import UiTemplate.Proofs.Binding.Instances
import UiTemplate.Proofs.Binding.Quoted
import UiTemplate.Proofs.Compile.Success
import UiTemplate.Proofs.Expression.Names

/-!
# The names of loops in emitted code

- `Scope.names_inside`, `Occurs.sites_subset`: the names that are local where nodes render are those
  of the loops around the expressions in them.
- `Site.agrees`: an expression is written alike as a bound value and in calls, unless it takes the
  placeholder of a loop without an index for a name.
- `compile_loopScopes`: what follows for two compilations of one text.
-/

namespace UiTemplate

/-! ## Where nodes render -/

/-- The names that are local inside passes through loops. -/
theorem Scope.names_inside (context : Json) (passes : List Pass) :
    (Scope.inside context passes).locals.map Prod.fst =
      ((passes.map (·.loop.unkeyed)).flatMap LoopInfo.locals).reverse := by
  induction passes using List.reverseRecOn with
  | nil => rfl
  | append_singleton passes p ih =>
    rw [Scope.inside_append, List.map_append, List.flatMap_append, List.reverse_append, ← ih]
    refine List.map_append.trans (congrArg (· ++ _) ?_)
    cases hi : p.loop.index with
    | none => simp [hi, LoopInfo.locals, LoopInfo.unkeyed, LoopInfo.pathVariable]
    | some index => simp [hi, LoopInfo.locals, LoopInfo.unkeyed, LoopInfo.pathVariable]

/-- The expressions in nodes that render are some of the template, inside the loops that are under
way. -/
theorem Occurs.sites_subset {context : Json} {tree ns : List Node} {accesses : List Access}
    {passes : List Pass} (h : Occurs context tree ns accesses passes) :
    Node.sitesAll (passes.map (·.loop.unkeyed)) ns ⊆ Template.sites tree := by
  induction h with
  | root => exact List.Subset.refl _
  | element _ hn ih =>
    exact List.Subset.trans (List.subset_append_right _ _)
      (List.Subset.trans (Node.sites_subset hn) ih)
  | fallback _ hn ih =>
    exact List.Subset.trans (List.subset_append_right _ _)
      (List.Subset.trans (Node.sites_subset hn) ih)
  | @branch ns _ passes before after b key location _ hn _ _ ih =>
    have hb : Node.sitesAll (passes.map (·.loop.unkeyed)) b.children ⊆
        (Node.chain (before ++ b :: after) key location).sites (passes.map (·.loop.unkeyed)) :=
      Branch.sites_subset (List.mem_append_right _ List.mem_cons_self)
    exact List.Subset.trans hb (List.Subset.trans (Node.sites_subset hn) ih)
  | step _ hn _ _ ih =>
    rw [List.map_append]
    exact List.Subset.trans (List.subset_cons_self _ _)
      (List.Subset.trans (Node.sites_subset hn) ih)

/-! ## Texts of expressions -/

/-- The text of an expression where exactly the names of the loops around it are local. -/
def Site.text (s : Site) : String :=
  s.expression.render s.names

/-- The expression refers to `_` while a loop around it has no index, and none names anything so. -/
def Site.TakesPlaceholder (s : Site) : Prop :=
  "_" ∈ s.expression.refs.map Reference.name ∧ (∃ loop ∈ s.loops, loop.index = none) ∧
    "_" ∉ s.names

instance (s : Site) : Decidable s.TakesPlaceholder :=
  inferInstanceAs (Decidable (_ ∧ _ ∧ _))

/-- An expression is written alike as a bound value and in calls. -/
structure Site.Agrees (s : Site) : Prop where
  /-- The names are read off the context that no arrow function binds and that are neither global
  nor of a loop. -/
  reads : s.expression.ReadsContextBut s.names s.text
  /-- A condition may be in parentheses. -/
  calls : s.callText = s.text ∨ s.isCondition = true ∧ s.callText = "(" ++ s.text ++ ")"
  binding : ¬s.TakesPlaceholder → s.bindingText = s.text

theorem LoopInfo.mem_params {loop : LoopInfo} {name : String} :
    name ∈ loop.params ↔ name ∈ loop.locals ∨ name = "_" ∧ loop.index = none := by
  rw [params, locals]
  cases hi : loop.index with
  | none => simp [or_left_comm, or_comm]
  | some index => simp

/-- The parameters of the producers of loops are the names that the loops bind, and the
placeholder. -/
theorem LoopInfo.mem_flatMap_params {loops : List LoopInfo} {name : String} :
    name ∈ loops.flatMap params ↔
      name ∈ loops.flatMap locals ∨ name = "_" ∧ ∃ loop ∈ loops, loop.index = none := by
  simp only [List.mem_flatMap, mem_params]
  constructor
  · rintro ⟨loop, hloop, hname | ⟨hname, hi⟩⟩
    · exact .inl ⟨loop, hloop, hname⟩
    · exact .inr ⟨hname, loop, hloop, hi⟩
  · rintro (⟨loop, hloop, hname⟩ | ⟨hname, loop, hloop, hi⟩)
    · exact ⟨loop, hloop, .inl hname⟩
    · exact ⟨loop, hloop, .inr ⟨hname, hi⟩⟩

/-- Every expression that was read is written alike. -/
theorem Site.agrees {s : Site} {text : String} (h : Expression.parse text = .ok s.expression) :
    s.Agrees where
  reads := Expression.render_readsContextBut h s.names
  calls := by
    rw [callText, Expression.renderOperand]
    split
    · rename_i hcondition
      split
      · exact .inl rfl
      · exact .inr ⟨hcondition, rfl⟩
    · exact .inl rfl
  binding hplaceholder := by
    refine Expression.render_congr fun r hr => LoopInfo.mem_flatMap_params.trans ?_
    refine or_iff_left_of_imp fun ⟨hname, hloop⟩ => ?_
    rw [hname]
    refine Classical.byContradiction fun hnone => hplaceholder ⟨?_, hloop, hnone⟩
    rw [← hname]
    exact List.mem_map_of_mem hr

/-! ## The tree that becomes calls -/

/-- The nodes of a template that becomes calls have all that their code takes. -/
theorem Template.annotate_sound {options : ParseOptions} {source : String} {nodes : List Node}
    (h : Template.parse options source = .ok nodes) :
    ∀ n ∈ Node.withinAll (Template.annotate Family.calls.capabilities nodes).nodes,
      Calls.Sound (Template.annotate Family.calls.capabilities nodes).context n := by
  refine fun n hn => ⟨?_, Template.annotate_isSingle (Template.parse_isSingle h) _ n hn, ?_,
    Template.parse_still h _ n hn⟩
  · cases n with
    | interpolation e key l => exact Template.annotate_thunk? nodes hn List.mem_cons_self
    | slot info fallback => exact Template.annotate_outlet nodes hn
    | _ => trivial
  · exact (Node.forall_within_of_stripAll_eq SlotInfo.plain (Node.isOrdered_strip SlotInfo.plain)
      (Template.annotate_strip _ nodes)).mpr (Template.parse_isOrdered h) n hn

/-! ## Compilations -/

section Compile

variable {resolver : Resolver} {o : CompileOptions} {source : String} {r : CompileResult}

/-- What a compilation is made of. -/
theorem compile_eq_ok (h : compile resolver o source = .ok r) :
    ∃ nodes helpers errors, Template.parse o.parseOptions source = .ok nodes ∧
      emitOutput resolver o (Template.annotate o.platform.capabilities nodes) =
        .ok (r.output, helpers, errors) ∧
      r.helpers = helpers.toList ∧ (r.errors = [] → errors = []) := by
  unfold compile at h
  split at h
  · cases h
  · split at h
    · cases h
    · rename_i nodes hparse
      dsimp only at h
      split at h
      · cases h
      · split at h
        · cases h
        · rename_i output helpers errors hemit
          cases h
          exact ⟨nodes, helpers, errors, hparse, hemit, rfl,
            fun he => (List.append_eq_nil_iff.mp he).2⟩

/-- The unit of a compilation to calls. -/
theorem compile_unit (hf : o.platform.family = .calls) (h : compile resolver o source = .ok r) :
    ∃ nodes unit errors, Template.parse o.parseOptions source = .ok nodes ∧
      Calls.generate (o.callSettings resolver
          (Template.annotate Family.calls.capabilities nodes).context)
        (Template.annotate Family.calls.capabilities nodes).nodes = .ok (unit, errors) ∧
      r.output = .function (unit.code o) ∧ r.helpers = unit.helpers.toList ∧
      (r.errors = [] → errors = []) := by
  obtain ⟨nodes, helpers, errors, hparse, hemit, hhelpers, herrors⟩ := compile_eq_ok h
  unfold emitOutput Platform.capabilities at hemit
  rw [hf] at hemit
  obtain ⟨⟨unit, errors⟩, hgenerate, hemit⟩ := Except.bind_eq_ok.mp hemit
  obtain ⟨houtput, rfl, rfl⟩ := Prod.mk.inj (Except.ok.inj hemit) |>.imp id Prod.mk.inj
  exact ⟨nodes, unit, errors, hparse, hgenerate, houtput.symm, hhelpers, herrors⟩

/-- What a compilation to calls is made of. -/
theorem compile_calls (hf : o.platform.family = .calls) (h : compile resolver o source = .ok r) :
    ∃ nodes unit errors, Template.parse o.parseOptions source = .ok nodes ∧
      Calls.generate (o.callSettings resolver
          (Template.annotate Family.calls.capabilities nodes).context)
        (Template.annotate Family.calls.capabilities nodes).nodes = .ok (unit, errors) ∧
      r.output = .function (unit.code o) ∧ (r.errors = [] → errors = []) := by
  obtain ⟨nodes, unit, errors, hparse, hgenerate, houtput, -, herrors⟩ := compile_unit hf h
  exact ⟨nodes, unit, errors, hparse, hgenerate, houtput, herrors⟩

/-- What a compilation to markup is made of. -/
theorem compile_markup (hf : o.platform.family = .markup) (h : compile resolver o source = .ok r) :
    ∃ nodes markup, Template.parse o.parseOptions source = .ok nodes ∧
      r.output = .pair markup
        ((Template.annotate Family.markup.capabilities nodes).context.functionSource
          o.runtimeModule) := by
  obtain ⟨nodes, helpers, errors, hparse, hemit, -, -⟩ := compile_eq_ok h
  unfold emitOutput Platform.capabilities at hemit
  rw [hf] at hemit
  obtain ⟨⟨markup, errors⟩, -, hemit⟩ := Except.bind_eq_ok.mp hemit
  obtain ⟨houtput, -⟩ := Prod.mk.inj (Except.ok.inj hemit)
  exact ⟨nodes, markup, hparse, houtput.symm⟩

end Compile

/-- Two compilations of one text, one to calls and one to markup. The code of calls has the texts of
the expressions of the template, of all of them if no fault was tolerated, and the function that
computes bound values has the texts of all. An expression is written alike in both, but for
parentheses around a condition, unless it refers to `_` where a loop around it has no index and none
names anything so. In this text the names are read off the context that no arrow function binds and
that are neither global nor of a loop around the expression; these are the names that are local
where the expression is evaluated. -/
theorem compile_loopScopes {resolver resolver' : Resolver} {o o' : CompileOptions} {source : String}
    {r r' : CompileResult} (hcalls : o.platform.family = .calls)
    (hmarkup : o'.platform.family = .markup) (hwhitespace : o'.whitespace = o.whitespace)
    (h : compile resolver o source = .ok r) (h' : compile resolver' o' source = .ok r') :
    ∃ nodes code markup binding, Template.parse o'.parseOptions source = .ok nodes ∧
      r.output = .function code ∧ r'.output = .pair markup binding ∧
      (Quoting.calls (r.errors = [])).Has code (Template.sites nodes) ∧
      Quoting.binding.Has binding (Template.sites nodes) ∧
      (∀ s ∈ Template.sites nodes, s.Agrees) ∧
      ∀ {context mapping ns accesses passes},
        (Template.annotate o'.platform.capabilities nodes).context.eval context = .ok mapping →
        Occurs context (Template.annotate o'.platform.capabilities nodes).nodes ns accesses passes →
        Node.sitesAll (passes.map (·.loop.unkeyed)) ns ⊆ Template.sites nodes ∧
        (∀ name, name ∈ (Scope.inside context passes).locals.map Prod.fst ↔
          name ∈ (passes.map (·.loop.unkeyed)).flatMap LoopInfo.locals) ∧
        ∃ record, mapping.at? accesses = some record ∧
          ∀ p ∈ Node.partsAll .markup ns, Holds (.inside context passes) record p := by
  have hc : o'.platform.capabilities = Family.markup.capabilities := by
    rw [Platform.capabilities, hmarkup]
  obtain ⟨nodes, unit, errors, hparse, hgenerate, houtput, herrors⟩ := compile_calls hcalls h
  obtain ⟨nodes', markup, hparse', houtput'⟩ := compile_markup hmarkup h'
  have hsites : Template.sites nodes = Template.sites nodes' := by
    refine Template.sites_parse hparse (q := o'.platform) ?_
    rw [← hwhitespace]
    exact hparse'
  rw [hc]
  refine ⟨nodes', _, markup, _, hparse', houtput, houtput', ?_,
    Template.functionSource_quotes nodes' o'.runtimeModule, ?_, ?_⟩
  · have hroot := Calls.generate_quotes _ (Template.annotate_sound hparse) hgenerate
    rw [Template.sites_annotate, hsites] at hroot
    refine ((hroot.of_complete herrors).prepend _ ?_).follow _ (.of_opens _ (by decide))
    exact .of_closes (Code.closes_append _ (by decide)) _
  · intro s hs
    obtain ⟨text, htext⟩ := Template.parse_sites hparse' s hs
    exact Site.agrees htext
  · intro context mapping ns accesses passes heval hoccurs
    refine ⟨?_, fun name => ?_, Template.occurs_holds heval hoccurs⟩
    · rw [← Template.sites_annotate Family.markup.capabilities nodes']
      exact hoccurs.sites_subset
    · rw [Scope.names_inside, List.mem_reverse]

/-- How a template is compiled to markup. -/
def toMarkup : CompileOptions :=
  { platform := .weixin, emissionMode := .standalonePair }

/-- A loop that names its index, around a condition, a bound attribute and an interpolation. -/
def namedIndex : String :=
  "<view v-for=\"(x, k) in xs\"><text v-if=\"x > k\" :id=\"k\">\x7b\x7b x \x7d\x7d</text></view>"

/-- Inside the loop its item and its index are read without the context, in both kinds of code.
Around its source they are not. -/
theorem compile_loopScopes_namedIndex :
    ∃ r r' nodes code markup binding, compile Resolver.none {} namedIndex = .ok r ∧
      compile Resolver.none toMarkup namedIndex = .ok r' ∧
      Template.parse toMarkup.parseOptions namedIndex = .ok nodes ∧
      r.output = .function code ∧ r'.output = .pair markup binding ∧
      (Template.sites nodes).map Site.callText = ["_ctx.xs", "(x > k)", "k", "x"] ∧
      (Quoting.calls True).Has code (Template.sites nodes) ∧
      (Template.sites nodes).map Site.bindingText = ["_ctx.xs", "x > k", "k", "x"] ∧
      Quoting.binding.Has binding (Template.sites nodes) := by
  have hfacts : ∃ r ∈ (compile Resolver.none {} namedIndex).toOption, r.errors = [] ∧
      ∃ r' ∈ (compile Resolver.none toMarkup namedIndex).toOption,
      ∃ nodes ∈ (Template.parse toMarkup.parseOptions namedIndex).toOption,
      (Template.sites nodes).map Site.callText = ["_ctx.xs", "(x > k)", "k", "x"] ∧
      (Template.sites nodes).map Site.bindingText = ["_ctx.xs", "x > k", "k", "x"] := by
    decide +kernel
  obtain ⟨r, hr, herrors, r', hr', nodes, hnodes, hcalls, hbinding⟩ := hfacts
  have hr := Except.toOption_eq_some.mp hr
  have hr' := Except.toOption_eq_some.mp hr'
  have hfamily : ({} : CompileOptions).platform.family = .calls := rfl
  have hfamily' : toMarkup.platform.family = .markup := rfl
  obtain ⟨nodes', code, markup, binding, hparse, houtput, houtput', hquotes, hquotes', -⟩ :=
    compile_loopScopes hfamily hfamily' rfl hr hr'
  obtain rfl : nodes = nodes' :=
    Except.ok.inj ((Except.toOption_eq_some.mp hnodes).symm.trans hparse)
  exact ⟨r, r', nodes, code, markup, binding, hr, hr', hparse, houtput, houtput', hcalls,
    hquotes.of_complete fun _ => herrors, hbinding, hquotes'⟩

/-- A loop without an index around a reference to `_`. -/
def unnamedIndex : String :=
  "<view v-for=\"x in xs\">\x7b\x7b _ \x7d\x7d</view>"

/-- The calls of this template: `_` is read off the context. -/
def unnamedIndexCalls : String :=
  "import \x7b Fragment, createElementVNode \x7d from \"vue\";\n" ++
    "import \x7b display as _d, forEach as _f \x7d from \"@dcloudio/uni-runtime\";\n\n" ++
    "export function render(_ctx) \x7b\n  return createElementVNode(Fragment, null, " ++
    "_f(_ctx.xs, (x, _, i0) => createElementVNode(\"view\", null, _d(_ctx._), 1 /* TEXT */)), " ++
    "256 /* UNKEYED_FRAGMENT */)\n\x7d\n"

/-- The bound values of this template: `_` is the placeholder. -/
def unnamedIndexBinding : String :=
  "import \x7b display as _d, forEach as _f \x7d from \"@dcloudio/uni-runtime\";\n" ++
    "export default function bindings(_ctx) \x7b\n  return \x7b\n    a: _f(_ctx.xs, " ++
    "(x, _, i0) => \x7b\n      return \x7b\n        a: _d(_)\n      \x7d;\n    \x7d)\n" ++
    "  \x7d;\n\x7d\n"

/-- A reference to `_` is not written alike where a loop around it has no index: as a bound value it
is the index that the run time passes, neither a global nor a name that is local where the
expression is evaluated. -/
theorem compile_loopScopes_unnamedIndex :
    ∃ r r' nodes markup, compile Resolver.none {} unnamedIndex = .ok r ∧
      compile Resolver.none toMarkup unnamedIndex = .ok r' ∧
      Template.parse toMarkup.parseOptions unnamedIndex = .ok nodes ∧
      r.output = .function unnamedIndexCalls ∧ r'.output = .pair markup unnamedIndexBinding ∧
      (Template.sites nodes).map Site.isCondition = [false, false] ∧
      (Template.sites nodes).map Site.callText = ["_ctx.xs", "_ctx._"] ∧
      (Template.sites nodes).map Site.bindingText = ["_ctx.xs", "_"] ∧
      (Template.sites nodes).map Site.names = [[], ["x", "i0"]] ∧ "_" ∉ Expression.globals := by
  have hfacts : ∃ r ∈ (compile Resolver.none {} unnamedIndex).toOption,
      ∃ r' ∈ (compile Resolver.none toMarkup unnamedIndex).toOption,
      ∃ nodes ∈ (Template.parse toMarkup.parseOptions unnamedIndex).toOption,
      r.output = .function unnamedIndexCalls ∧
      r'.output =
        .pair "<view wx:for=\"\x7b\x7ba\x7d\x7d\" wx:for-item=\"x\">\x7b\x7bx.a\x7d\x7d</view>"
          unnamedIndexBinding ∧
      (Template.sites nodes).map Site.isCondition = [false, false] ∧
      (Template.sites nodes).map Site.callText = ["_ctx.xs", "_ctx._"] ∧
      (Template.sites nodes).map Site.bindingText = ["_ctx.xs", "_"] ∧
      (Template.sites nodes).map Site.names = [[], ["x", "i0"]] ∧ "_" ∉ Expression.globals := by
    decide +kernel
  obtain ⟨r, hr, r', hr', nodes, hnodes, hcalls, hbinding, hsite⟩ := hfacts
  exact ⟨r, r', nodes, _, Except.toOption_eq_some.mp hr, Except.toOption_eq_some.mp hr',
    Except.toOption_eq_some.mp hnodes, hcalls, hbinding, hsite⟩

end UiTemplate
