import UiTemplate.Proofs.Backend.Growth
import UiTemplate.Proofs.Backend.Quoted
import UiTemplate.Proofs.Rendering.Aliases

/-!
# The helpers that calls need

- `Node.helpers`: the helpers that nodes need where they become calls.
- `Calls.Adds`: what a step that succeeds gives, and what it adds to the unit.
- `Calls.emitAll_adds`: the code of nodes calls the helpers that these need, in the order of the
  text, and just these are noted.
- `Calls.generate_adds`: what follows for a template.
-/

namespace UiTemplate

/-! ## What nodes need -/

/-- The helper that a node itself needs where nodes become calls. -/
def Node.helper? : Node → Option Helper
  | .interpolation .. => some .display
  | .slot .. => some .resolveOutlet
  | .loop .. => some .forEach
  | _ => none

/-- The helpers that nodes themselves need. -/
def Node.helpers (ns : List Node) : List Helper :=
  ns.filterMap Node.helper?

theorem Node.helpers_append (ns ns' : List Node) :
    Node.helpers (ns ++ ns') = Node.helpers ns ++ Node.helpers ns' :=
  List.filterMap_append

/-- The expressions that a node itself has. -/
def Node.expressions : Node → List Expression
  | .element info _ => (bindings info.directives).map Binding.expression
  | .interpolation e _ _ => [e]
  | .slot info _ => info.dynamicName.toList ++ (bindings info.directives).map Binding.expression
  | .chain branches _ _ => branches.filterMap fun b => b.info.condition
  | .loop info _ => [info.source]
  | _ => []

/-- The parameters of the producer of a loop. -/
def Node.parameters : Node → List (List String)
  | .loop info _ => [info.params]
  | _ => []

/-- What the code of a template takes over. -/
def Template.sources (nodes : List Node) : Sources where
  expressions := (Node.withinAll nodes).flatMap Node.expressions
  parameters := (Node.withinAll nodes).flatMap Node.parameters

/-! ## What does not matter -/

theorem Branch.conditions_strip (change : SlotInfo → SlotInfo) (bs : List Branch) :
    (Branch.stripAll change bs).filterMap (fun b => b.info.condition) =
      bs.filterMap fun b => b.info.condition := by
  induction bs with
  | nil => rfl
  | cons b bs ih =>
    obtain ⟨info, children⟩ := b
    rw [Branch.stripAll, List.filterMap_cons, List.filterMap_cons, ih]
    rfl

theorem bindings_expressions_strip (ds : List Directive) :
    (bindings (ds.map Directive.strip)).map Binding.expression =
      (bindings ds).map Binding.expression := by
  rw [bindings_strip, List.map_map]
  rfl

/-- Outlets and keys are no part of the expressions of a node. -/
theorem Node.expressions_strip (n : Node) :
    (n.strip SlotInfo.plain).expressions = n.expressions := by
  cases n with
  | element info children => exact bindings_expressions_strip info.directives
  | chain branches key l => exact Branch.conditions_strip SlotInfo.plain branches
  | _ => rfl

theorem Node.parameters_strip (n : Node) :
    (n.strip SlotInfo.plain).parameters = n.parameters := by
  cases n <;> rfl

theorem Node.helper?_strip (n : Node) : (n.strip SlotInfo.plain).helper? = n.helper? := by
  cases n <;> rfl

section Strip

variable {ns ns' : List Node}
  (h : Node.stripAll SlotInfo.plain ns = Node.stripAll SlotInfo.plain ns')
include h

/-- Outlets and keys do not matter for what code takes over. -/
theorem Template.sources_of_strip_eq : Template.sources ns = Template.sources ns' := by
  have he := Node.map_within_of_stripAll_eq SlotInfo.plain Node.expressions_strip h
  have hp := Node.map_within_of_stripAll_eq SlotInfo.plain Node.parameters_strip h
  unfold Template.sources
  rw [List.flatMap_def, List.flatMap_def, he, hp, ← List.flatMap_def, ← List.flatMap_def]

/-- Outlets and keys do not matter for the helpers that nodes need. -/
theorem Node.helpers_of_strip_eq :
    Node.helpers (Node.withinAll ns) = Node.helpers (Node.withinAll ns') :=
  Node.filterMap_within_of_stripAll_eq SlotInfo.plain Node.helper?_strip h

end Strip

namespace Calls

/-! ## Arguments and literals -/

section Literals

variable {src : Sources} {hs : List Helper}

/-- Arguments that are left out are filled with code that calls nothing. -/
theorem callsEach_fill {args : List (Option String)}
    (h : src.CallsEach (args.flatMap Option.toList) hs) :
    src.CallsEach (args.map fun a => a.getD "null") hs := by
  induction args generalizing hs with
  | nil => exact h
  | cons a args ih =>
    cases a with
    | none => exact .cons (.plain "null" (by decide)) (ih h)
    | some code =>
      cases h with
      | cons first rest => exact .cons first (ih rest)

theorem arguments_calls {args : List (Option String)}
    (h : src.CallsEach (args.flatMap Option.toList) hs) : src.CallsEach (arguments args) hs := by
  obtain ⟨kept, missing, rfl, hkept, hmissing⟩ := arguments_split args
  rw [List.flatMap_append, hmissing, List.append_nil] at h
  rw [hkept]
  exact callsEach_fill h

/-- An array calls what its items call. -/
theorem arrayLiteral_calls (level : Nat) {items : List String} (h : src.CallsEach items hs) :
    src.Calls (arrayLiteral level items) hs := by
  unfold arrayLiteral
  split
  · rename_i hempty
    rw [List.isEmpty_iff.mp hempty] at h
    exact h.of_nil (.plain "[]" (by decide))
  · have hlines := ((h.lines (level + 1)).prepend "[\n" (by decide)).follow "\n" (by decide)
    exact (hlines.indent level).follow "]" (by decide)

/-- An expression of the sources calls no helper. -/
theorem renderOperand_calls {e : Expression} (h : e ∈ src.expressions) (locals : List String) :
    src.Calls (e.renderOperand locals) [] := by
  have he : src.Calls (e.render locals) [] := .text (.expression h locals)
  unfold Expression.renderOperand
  split
  · exact he
  · exact (he.prepend "(" (by decide)).follow ")" (by decide)

/-- The code of bound properties calls no helper. -/
theorem boundProp_calls {b : Binding} (h : b.expression ∈ src.expressions) (locals : List String) :
    src.Calls (boundProp locals b).2 [] := by
  have he (locals : List String) : src.Calls (b.expression.render locals) [] :=
    .text (.expression h locals)
  unfold boundProp
  cases b.kind with
  | prop => exact he locals
  | html => exact he locals
  | event =>
    show src.Calls (handler locals b.expression) []
    unfold handler
    split
    · exact he locals
    · exact ((he _).prepend "$event => (" (by decide)).follow ")" (by decide)

/-- The properties of an element call no helper. -/
theorem elementProps_calls (platform : Platform) (locals : List String) {info : ElementInfo}
    (h : (bindings info.directives).map Binding.expression ⊆ src.expressions) :
    src.CallsEach (elementProps platform locals info).literal.toList [] := by
  have hentries : ∀ entry ∈ inTextOrder
      ((info.attributes.map fun a =>
          (a.location.offset, a.name, (a.value.map Code.literal).getD "true")) ++
        (bindings info.directives).map fun b => (b.location.offset, boundProp locals b)),
      src.Calls entry.2 [] := by
    intro entry hentry
    obtain ⟨placed, hplaced, rfl⟩ := List.mem_map.mp hentry
    rcases List.mem_append.mp (List.mem_mergeSort.mp hplaced) with ha | hb
    · obtain ⟨a, -, rfl⟩ := List.mem_map.mp ha
      cases a.value with
      | none => exact .plain "true" (by decide)
      | some value => exact .text (.literal value)
    · obtain ⟨b, hmem, rfl⟩ := List.mem_map.mp hb
      exact boundProp_calls (h (List.mem_map_of_mem hmem)) locals
  unfold elementProps
  dsimp only
  split
  · exact .nil
  · split
    · refine .singleton ((((Sources.CallsEach.none fun code hcode => ?_).intercalate ", "
        (by decide)).prepend "new Map<string, any | null>([" (by decide)).follow "])" (by decide))
      obtain ⟨entry, hentry, rfl⟩ := List.mem_map.mp hcode
      have hname : src.Calls (Code.literal entry.1) [] := .text (.literal entry.1)
      have hkey := (hname.prepend "[" (by decide)).follow ", " (by decide)
      exact (hkey.append (hentries entry hentry)).follow "]" (by decide)
    · refine .singleton (.inlineObject (.none fun code hcode => ?_))
      obtain ⟨entry, hentry, rfl⟩ := List.mem_map.mp hcode
      exact .field entry.1 (hentries entry hentry)

end Literals

/-! ## Steps -/

/-- Helpers are noted, and nothing is declared that calls one. -/
structure Grows (src : Sources) (hs : List Helper) (u u' : RenderUnit) : Prop where
  helpers : u.helpers.Gains hs u'.helpers
  hoisted : ∀ line ∈ u'.hoisted, line ∈ u.hoisted ∨ src.Calls line []

/-- What two steps add is added one after the other. -/
theorem Grows.append {src : Sources} {hs hs' : List Helper} {u u' u'' : RenderUnit}
    (h : Grows src hs u u') (h' : Grows src hs' u' u'') : Grows src (hs ++ hs') u u'' := by
  refine ⟨h.helpers.append h'.helpers, fun line hline => ?_⟩
  rcases h'.hoisted line hline with hline | hline
  · exact h.hoisted line hline
  · exact .inr hline

/-- The unit gains the helpers that are noted. -/
def noted (src : Sources) : Growth Helper where
  By := Grows src
  refl _ := ⟨.refl _, fun _ h => .inl h⟩
  append h h' := h.append h'
  perm h hp := ⟨h.helpers.congr fun _ => hp.mem_iff, h.hoisted⟩

/-- What a step that succeeds gives, and the helpers it notes. -/
abbrev Adds {α : Type} (src : Sources) (hs : List Helper) (step : EmitCall α) (post : α → Prop) :
    Prop :=
  (noted src).Adds hs step post

section Steps

variable {src : Sources} {hs : List Helper}

/-- A helper is noted first. -/
theorem Adds.uses {α : Type} {post : α → Prop} (h : Helper) {f : Unit → EmitCall α}
    (hf : Adds src hs (f ()) post) : Adds src (h :: hs) (uses h >>= f) post := by
  have hh : Adds src [h] (Calls.uses h) fun _ => True := by
    refine .modify (f := fun u => { u with helpers := u.helpers.insert h }) fun u => ?_
    exact ⟨.insert u.helpers h, fun _ hline => .inl hline⟩
  exact hh.bind fun _ _ => hf

theorem imports_adds (name : String) : Adds src [] (imports name) fun _ => True := by
  refine .modify (f := fun u => { u with imports := insertName name u.imports }) fun u => ?_
  exact ⟨.refl u.helpers, fun _ h => .inl h⟩

/-- A call calls what its arguments call. -/
theorem call_adds (callee : String) {args : List (Option String)}
    (h : src.CallsEach (args.flatMap Option.toList) hs)
    (hcallee : '_' ∉ callee.toList) :
    Adds src [] (call callee args) (src.Calls · hs) := by
  refine (imports_adds _).after fun _ _ => .pure ?_
  have hcall : src.Calls (callee ++ "(") [] :=
    (Sources.Calls.plain callee hcallee).follow "(" (by decide)
  exact (hcall.append ((arguments_calls h).intercalate ", " (by decide))).follow ")" (by decide)

theorem fragment_adds : Adds src [] fragment (src.Calls · []) :=
  (imports_adds _).after fun _ _ => .pure (.plain "Fragment" (by decide))

/-- So does the call that makes a fragment. -/
theorem fragmentCall_adds {children : String} (h : src.Calls children hs) (flag : PatchFlag) :
    Adds src [] (fragmentCall children flag) (src.Calls · hs) := by
  refine fragment_adds.after fun tag htag => call_adds _ ?_ (by decide)
  have hflag : src.Calls flag.render [] := .text (.flag flag)
  have hargs := Sources.CallsEach.cons htag (.cons h (.singleton hflag))
  rwa [List.nil_append, List.append_nil] at hargs

theorem component_adds (settings : CallSettings) (tag : String) :
    Adds src [] (component settings tag) (src.Calls · []) := by
  have hnamed (c : ComponentRef) : src.Calls c.variableName [] := .text (.component c)
  refine .get fun s => ?_
  split
  · rename_i c _
    exact .pure (hnamed c)
  · have rest (c : ComponentRef) : Adds src [] (do
        modify fun s => { s with unit := { s.unit with components := s.unit.components ++ [c] } }
        return c.variableName : EmitCall String) (src.Calls · []) := by
      refine Growth.Adds.after (.modify (f := fun u => { u with components := u.components ++ [c] })
        fun u => ?_) fun _ _ => .pure (hnamed c)
      exact ⟨.refl u.helpers, fun _ h => .inl h⟩
    dsimp only
    split
    · exact (imports_adds _).after fun _ _ => rest _
    · exact (imports_adds _).after fun _ _ => rest _
    · exact rest _

/-- The call that makes an element calls what its properties and its children call. -/
theorem constructElement_adds (settings : CallSettings) (info : ElementInfo) {props : ElementProps}
    {children : Option String} (hp : src.CallsEach props.literal.toList [])
    (hc : src.CallsEach children.toList hs) (flag : PatchFlag) (hoisted : Bool) :
    Adds src [] (constructElement settings info props children flag hoisted)
      (src.Calls · hs) := by
  have hflags : src.CallsEach
      (if hoisted then some PatchFlag.hoisted.render
        else if flag != 0 then some flag.render else none : Option String).toList [] := by
    have hflag (flag : PatchFlag) : src.CallsEach [flag.render] [] :=
      .singleton (.text (.flag flag))
    split
    · exact hflag _
    · split
      · exact hflag flag
      · exact .nil
  have hdynamic : src.CallsEach
      (if !hoisted && !props.dynamic.isEmpty then
          some ("[" ++ ", ".intercalate (props.dynamic.map Code.literal) ++ "]")
        else none : Option String).toList [] := by
    split
    · refine .singleton ((((Sources.CallsEach.none fun code hcode => ?_).intercalate ", "
        (by decide)).prepend "[" (by decide)).follow "]" (by decide))
      obtain ⟨name, -, rfl⟩ := List.mem_map.mp hcode
      exact .text (.literal name)
    · exact .nil
  -- The three kinds differ in what is called and in the tag only.
  have construct (callee : String) {tag : String} (htag : src.Calls tag [])
      {flag dynamic : Option String} (hflag : src.CallsEach flag.toList [])
      (hdynamic : src.CallsEach dynamic.toList []) (hcallee : '_' ∉ callee.toList) :
      Adds src [] (call callee [some tag, props.literal, children, flag, dynamic])
        (src.Calls · hs) := by
    refine call_adds callee ?_ hcallee
    have hflags : src.CallsEach (flag.toList ++ (dynamic.toList ++ [])) [] :=
      hflag.append (hdynamic.append .nil)
    have hargs := (Sources.CallsEach.singleton htag).append (hp.append (hc.append hflags))
    rw [List.append_nil hs] at hargs
    exact hargs
  unfold constructElement
  cases info.kind with
  | native =>
    exact .given (construct "createElementVNode" (.text (.literal _)) hflags hdynamic (by decide))
  | component =>
    exact (component_adds settings _).after fun _ htag =>
      .given (construct "createVNode" htag hflags hdynamic (by decide))
  | fragment =>
    exact fragment_adds.after fun _ htag =>
      .given (construct "createElementVNode" htag hflags hdynamic (by decide))

/-- A constant can be declared for code that calls nothing. -/
theorem declare_adds {code : String} (h : src.Calls code []) :
    Adds src [] (declare code) (src.Calls · []) := by
  refine .get fun s => ?_
  have hname : src.Calls ("_hoisted_" ++ Decimal.natText (s.unit.hoisted.length + 1)) [] :=
    .text (.hoisted _)
  have hline := ((hname.prepend "const " (by decide)).follow " = " (by decide)).append h
  refine (Growth.Adds.modify (f := fun u => { u with hoisted := u.hoisted ++ [_] }) fun u => ?_).after
    fun _ _ => .pure hname
  refine ⟨.refl u.helpers, fun line hmem => ?_⟩
  rcases List.mem_append.mp hmem with hmem | hmem
  · exact .inl hmem
  · rw [List.mem_singleton.mp hmem]
    exact .inr hline

/-- A loop calls the helper that iterates and what its child calls. -/
theorem constructLoop_adds {source child : String} {info : LoopInfo} (hsource : src.Calls source [])
    (hparams : info.params ∈ src.parameters) (hchild : src.Calls child hs) (keyed : Bool) :
    Adds src [.forEach] (constructLoop source info child keyed)
      (src.Calls · (.forEach :: hs)) := by
  have hparameters : src.Calls (", ".intercalate info.params) [] := .text (.parameters hparams)
  have hproducer :=
    ((hparameters.prepend "(" (by decide)).follow ") => " (by decide)).append hchild
  refine .uses _ (fragmentCall_adds ?_ _)
  exact .call _ (.cons hsource (.singleton hproducer))

/-- The nodes of branches call helpers, and their conditions call none. Only the last may have no
condition. -/
inductive ArmsCall (src : Sources) : List (Option String × String) → List Helper → Prop where
  | nil : ArmsCall src [] []
  | otherwise {node : String} {hs : List Helper} (h : src.Calls node hs) :
      ArmsCall src [(none, node)] hs
  | test {condition node : String} {arms : List (Option String × String)} {hs hs' : List Helper}
      (hc : src.Calls condition []) (h : src.Calls node hs) (rest : ArmsCall src arms hs') :
      ArmsCall src ((some condition, node) :: arms) (hs ++ hs')

/-- The tests of a chain, and what is constructed if all fail. -/
theorem ArmsCall.split {arms : List (Option String × String)} (h : ArmsCall src arms hs) :
    ∃ tested others, hs = tested ++ others ∧
      src.CallsEach (arms.filterMap fun arm => arm.1.map fun c => c ++ " ? " ++ arm.2 ++ " : ")
        tested ∧
      match (arms.filter fun arm => arm.1.isNone).getLast? with
      | some (_, node) => src.Calls node others
      | none => others = [] := by
  induction h with
  | nil => exact ⟨[], [], rfl, .nil, rfl⟩
  | otherwise h => exact ⟨[], _, rfl, .nil, h⟩
  | test hc h _ ih =>
    obtain ⟨tested, others, rfl, htests, hothers⟩ := ih
    refine ⟨_, others, (List.append_assoc _ tested others).symm, ?_, hothers⟩
    exact .cons (((hc.follow " ? " (by decide)).append h).follow " : " (by decide)) htests

/-- A conditional calls what its arms call. -/
theorem conditional_adds {arms : List (Option String × String)} (h : ArmsCall src arms hs) :
    Adds src [] (conditional arms) (src.Calls · hs) := by
  obtain ⟨tested, others, rfl, htests, hothers⟩ := h.split
  unfold conditional
  dsimp only
  split
  · rename_i node hlast
    rw [hlast] at hothers
    exact .pure (htests.join.append hothers)
  · rename_i hlast
    rw [hlast] at hothers
    obtain rfl : others = [] := hothers
    have hargs : src.CallsEach ["\"v-if\"", "true"] [] :=
      .cons (.plain "\"v-if\"" (by decide)) (.singleton (.plain "true" (by decide)))
    exact Growth.Adds.after (call_adds "createCommentVNode" hargs (by decide)) fun _ halternate =>
      .pure (htests.join.append halternate)

end Steps

/-! ## Nodes -/

/-- What makes the code of a node call just the helpers that the node needs, and take over what it
may. -/
structure Serves (src : Sources) (context : BindingContext) (n : Node) : Prop where
  sound : Sound context n
  outlet : ∀ info fallback, n = .slot info fallback → ∃ outlet : OutletCall,
    outlet.expressions ⊆ src.expressions ∧
      info.keys.outlet.bind context.thunk? = some (.outlet outlet)
  expressions : n.expressions ⊆ src.expressions
  parameters : n.parameters ⊆ src.parameters
  /-- What is static needs no helper. -/
  still : n.isStatic = true → Node.helpers n.within = []

section Nodes

variable (settings : CallSettings) {src : Sources} {hs : List Helper}

theorem display_adds {e : Expression} {key : Option Key} (he : e ∈ src.expressions)
    (h : key.bind settings.context.thunk? = some (.display e)) :
    Adds src [.display] (display settings e key) (src.Calls · [.display]) := by
  refine .uses _ (.get fun s => ?_)
  rw [h]
  exact .pure (.call _ (.singleton (.text (.expression he s.locals))))

/-- Text calls the helper that displays, once for each interpolation. -/
theorem textParts_adds {ns : List Node} (ht : ns.all Node.isTextLike)
    (h : ∀ m ∈ Node.withinAll ns, Serves src settings.context m) :
    Adds src (Node.helpers (Node.withinAll ns)) (textParts settings ns) fun parts =>
      src.CallsEach parts.1 (Node.helpers (Node.withinAll ns)) := by
  induction ns with
  | nil => exact .pure .nil
  | cons n ns ih =>
    rw [List.all_cons, Bool.and_eq_true] at ht
    obtain ⟨hn, hrest⟩ := List.forall_mem_append.mp h
    cases n with
    | interpolation e key l =>
      have hserves := List.forall_mem_singleton.mp hn
      refine (display_adds settings (hserves.expressions List.mem_cons_self)
        hserves.sound.leads).bind fun code hcode => ?_
      exact (ih ht.2 hrest).andThen fun more hmore => .pure (.cons hcode hmore)
    | text value l =>
      exact (ih ht.2 hrest).andThen fun more hmore => .pure (.cons (.text (.literal value)) hmore)
    | _ => cases ht.1

/-- The outlet of a slot takes its dynamic name over from the sources. -/
theorem outletOf_adds {info : SlotInfo} {fallback : List Node}
    (h : Serves src settings.context (.slot info fallback)) (path : Path) :
    Adds src [] (outletOf settings info path) fun outlet =>
      outlet.expressions ⊆ src.expressions := by
  obtain ⟨outlet, he, hkey⟩ := h.outlet info fallback rfl
  unfold outletOf
  rw [hkey]
  exact .pure he

/-- The code of an element calls what its children call. -/
theorem elementCode_adds (path : Path) {info : ElementInfo} {children : List Node}
    (h : ∀ m ∈ (Node.element info children).within, Serves src settings.context m)
    {c : EmitCall (List String)}
    (hc : Adds src (Node.helpers (Node.withinAll children)) c
      (src.CallsEach · (Node.helpers (Node.withinAll children)))) (hoisted : Bool) :
    Adds src (Node.helpers (Node.withinAll children))
      (elementCode settings path info children c hoisted)
      (src.Calls · (Node.helpers (Node.withinAll children))) := by
  obtain ⟨hn, hbelow⟩ := List.forall_mem_cons.mp h
  unfold elementCode
  by_cases hh : (hasHtml info && !children.isEmpty) = true
  · rw [if_pos hh]
    exact .throw _
  · rw [if_neg hh]
    refine .get fun s => ?_
    have construct {items : Option String} {hs : List Helper} (flag : PatchFlag)
        (hi : src.CallsEach items.toList hs) :
        Adds src [] (constructElement settings info (elementProps settings.platform s.locals info)
          items flag hoisted) (src.Calls · hs) :=
      constructElement_adds settings info (elementProps_calls settings.platform s.locals
        hn.expressions) hi flag hoisted
    have hitems (f : String → String) (flag : PatchFlag)
        (hf : ∀ {code hs}, src.Calls code hs → src.Calls (f code) hs) :
        Adds src (Node.helpers (Node.withinAll children)) (deeper c >>= fun items =>
            constructElement settings info (elementProps settings.platform s.locals info)
              (some (f (arrayLiteral s.level items))) flag hoisted)
          (src.Calls · (Node.helpers (Node.withinAll children))) :=
      hc.deeper.andThen fun items h =>
        construct flag (.singleton (hf (arrayLiteral_calls s.level h)))
    cases info.kind with
    | native =>
      dsimp only
      split
      · rename_i htext
        have hall := (Bool.and_eq_true_iff.mp htext).2
        refine (textParts_adds settings hall hbelow).andThen fun parts hparts => ?_
        exact construct _ (.singleton (hparts.intercalate " + " (by decide)))
      · split
        · rename_i he
          rw [List.isEmpty_iff.mp he]
          exact construct _ .nil
        · exact hitems (fun code => code) _ fun h => h
    | component =>
      dsimp only
      split
      · rename_i he
        rw [List.isEmpty_iff.mp he]
        exact construct _ .nil
      · exact hitems (fun code => "\x7b default: () => " ++ code ++ " \x7d") _
          fun h => (h.prepend "\x7b default: () => " (by decide)).follow " \x7d" (by decide)
    | fragment => exact hitems (fun code => code) _ fun h => h

/-- Hoisted code calls nothing, as static code does not. -/
theorem elementOrHoisted_adds (path : Path) {info : ElementInfo} {children : List Node}
    (h : ∀ m ∈ (Node.element info children).within, Serves src settings.context m)
    {c : EmitCall (List String)}
    (hc : Adds src (Node.helpers (Node.withinAll children)) c
      (src.CallsEach · (Node.helpers (Node.withinAll children)))) :
    Adds src (Node.helpers (Node.withinAll children))
      (elementOrHoisted settings path info children c)
      (src.Calls · (Node.helpers (Node.withinAll children))) := by
  have hcode (hoisted : Bool) := elementCode_adds settings path h hc hoisted
  refine Growth.Adds.after (.of_keeps (Emit.checkDirectives_keeps _ _)) fun _ _ => .get fun s => ?_
  split
  · -- What is hoisted is static, so that it needs no helper.
    rename_i hcond
    simp only [Bool.and_eq_true] at hcond
    have hstill : Node.helpers (Node.withinAll children) = [] :=
      (List.forall_mem_cons.mp h).1.still hcond.1.2
    rw [hstill] at hcode ⊢
    exact (hcode true).aside.after fun code hc => declare_adds hc
  · exact hcode false

/-- The code of a slot calls the helper that resolves outlets and what the fallback calls. -/
theorem slotCode_adds (path : Path) {info : SlotInfo} {fallback : List Node}
    (h : Serves src settings.context (.slot info fallback)) {f : EmitCall String}
    {c : EmitCall (List String)}
    (hf : fallback.length = 1 → Adds src (Node.helpers (Node.withinAll fallback)) f
      (src.Calls · (Node.helpers (Node.withinAll fallback))))
    (hc : Adds src (Node.helpers (Node.withinAll fallback)) c
      (src.CallsEach · (Node.helpers (Node.withinAll fallback)))) :
    Adds src (.resolveOutlet :: Node.helpers (Node.withinAll fallback))
      (slotCode settings path info fallback.length f c)
      (src.Calls · (.resolveOutlet :: Node.helpers (Node.withinAll fallback))) := by
  refine Growth.Adds.after (.of_keeps (Emit.checkDirectives_keeps _ _)) fun _ _ =>
    (outletOf_adds settings h path).after fun outlet houtlet => Adds.uses _ (.get fun s => ?_)
  have hcode := outlet.render_calls houtlet s.locals
  dsimp only
  split
  · rename_i hnone
    rw [List.eq_nil_of_length_eq_zero hnone]
    exact .pure hcode
  · split
    · rename_i hone
      exact (hf hone).andThen fun fallback hfallback =>
        .pure ((hcode.follow " ?? " (by decide)).append hfallback)
    · refine hc.deeper.andThen fun items hitems => ?_
      refine (fragmentCall_adds (arrayLiteral_calls s.level hitems) _).after
        fun fallback hfallback => .pure ?_
      exact (hcode.follow " ?? " (by decide)).append hfallback

mutual

/-- The code of a node calls the helpers that are needed in it, and just these are noted. -/
theorem emit_adds (ht : settings.tolerant = false) (path : Path) (n : Node)
    (h : ∀ m ∈ n.within, Serves src settings.context m) :
    Adds src (Node.helpers n.within) (emit settings path n)
      (src.Calls · (Node.helpers n.within)) := by
  match n with
  | .element info children =>
    rw [emit]
    exact elementOrHoisted_adds settings path h
      (emitAll_adds ht path 0 children (List.forall_mem_cons.mp h).2)
  | .text value l =>
    rw [emit]
    exact call_adds "createTextVNode" (.singleton (.text (.literal value))) (by decide)
  | .interpolation e key l =>
    have hn := List.forall_mem_singleton.mp h
    rw [emit]
    refine (display_adds settings (hn.expressions List.mem_cons_self) hn.sound.leads).andThen
      fun code hcode => call_adds "createTextVNode" ?_ (by decide)
    exact .cons hcode (.singleton (.text (.flag _)))
  | .slot info fallback =>
    obtain ⟨hn, hbelow⟩ := List.forall_mem_cons.mp h
    rw [emit]
    exact slotCode_adds settings path hn (fun hone => emitFirst_adds ht path fallback hone hbelow)
      (emitAll_adds ht path 0 fallback hbelow)
  | .chain branches key l =>
    obtain ⟨hn, hbelow⟩ := List.forall_mem_cons.mp h
    rw [emit]
    refine (emitBranches_adds ht path 0 branches hn.sound.single hn.sound.ordered
      (fun b hb e hc => hn.expressions (List.mem_filterMap.mpr ⟨b, hb, hc⟩)) hbelow).andThen
      fun arms harms => conditional_adds harms
  | .loop info children =>
    obtain ⟨hn, hbelow⟩ := List.forall_mem_cons.mp h
    obtain ⟨child, hchild⟩ := hn.sound.single
    have hone : children.length = 1 := congrArg List.length hchild
    rw [emit]
    refine .get fun s => ?_
    have hsource : src.Calls (info.source.render s.locals) [] :=
      .text (.expression (hn.expressions List.mem_cons_self) s.locals)
    -- The helper of the loop is noted behind those of its child.
    refine Growth.Adds.congr ?_ (List.perm_append_singleton Helper.forEach _).symm
    exact ((emitFirst_adds ht path children hone hbelow).withLocals info.locals).bind
      fun code hcode => constructLoop_adds hsource (hn.parameters List.mem_cons_self) hcode _
  | .comment value l =>
    rw [emit]
    exact call_adds "createCommentVNode" (.singleton (.text (.literal value))) (by decide)

/-- What a single child calls, if it becomes the whole code. -/
theorem emitFirst_adds (ht : settings.tolerant = false) (path : Path) (ns : List Node)
    (hone : ns.length = 1) (h : ∀ m ∈ Node.withinAll ns, Serves src settings.context m) :
    Adds src (Node.helpers (Node.withinAll ns)) (emitFirst settings path ns)
      (src.Calls · (Node.helpers (Node.withinAll ns))) := by
  match ns with
  | [n] =>
    rw [emitFirst, Node.withinAll, Node.withinAll, List.append_nil]
    exact emit_adds ht _ n (List.forall_mem_append.mp h).1

/-- The code of nodes calls the helpers that are needed in them, and just these are noted. -/
theorem emitAll_adds (ht : settings.tolerant = false) (parent : Path) (index : Nat)
    (ns : List Node) (h : ∀ m ∈ Node.withinAll ns, Serves src settings.context m) :
    Adds src (Node.helpers (Node.withinAll ns)) (emitAll settings parent index ns)
      (src.CallsEach · (Node.helpers (Node.withinAll ns))) := by
  match ns with
  | [] =>
    rw [emitAll]
    exact .pure .nil
  | n :: rest =>
    obtain ⟨hn, hrest⟩ := List.forall_mem_append.mp h
    rw [emitAll_cons, Node.withinAll, Node.helpers_append]
    refine (emit_adds ht (parent.child index) n hn).handle ht |>.bind fun r hr => ?_
    obtain ⟨code, rfl, hcode⟩ := hr
    exact (emitAll_adds ht parent (index + 1) rest hrest).andThen fun more hmore =>
      .pure (.cons hcode hmore)

/-- The arms of a chain call what their branches need. -/
theorem emitBranches_adds (ht : settings.tolerant = false) (parent : Path) (index : Nat)
    (bs : List Branch)
    (hs : ∀ b ∈ bs, ∃ n, b.children = [n] ∧ n.isComment = false)
    (ho : ∀ c ∈ (bs.map fun b => b.info.condition).dropLast, c ≠ none)
    (he : ∀ b ∈ bs, ∀ e, b.info.condition = some e → e ∈ src.expressions)
    (h : ∀ m ∈ Branch.withinAll bs, Serves src settings.context m) :
    Adds src (Node.helpers (Branch.withinAll bs)) (emitBranches settings parent index bs)
      (ArmsCall src · (Node.helpers (Branch.withinAll bs))) := by
  match bs with
  | [] =>
    rw [emitBranches]
    exact .pure .nil
  | .mk info [] :: rest =>
    obtain ⟨⟨n, hn, -⟩, -⟩ := List.forall_mem_cons.mp hs
    cases hn
  | .mk info (n :: more) :: rest =>
    obtain ⟨⟨m, hm, -⟩, hsingle⟩ := List.forall_mem_cons.mp hs
    obtain rfl : more = [] := (List.cons.inj hm).2
    obtain ⟨hfirst, hbelow⟩ := List.forall_mem_append.mp h
    obtain ⟨hcondition, hconditions⟩ := List.forall_mem_cons.mp he
    have hnode := emit_adds ht ((parent.child index).child 0) n (List.forall_mem_append.mp hfirst).1
    rw [emitBranches, Branch.withinAll, Node.withinAll, Node.withinAll, List.append_nil,
      Node.helpers_append]
    refine hnode.bind fun code hcode => .get fun s => ?_
    cases hc : info.condition with
    | none =>
      -- A branch without a condition is the last one.
      obtain rfl : rest = [] := by
        cases rest with
        | nil => rfl
        | cons b rest => exact absurd hc (ho _ List.mem_cons_self)
      have hrest : Node.helpers (Branch.withinAll []) = [] := rfl
      rw [emitBranches, hrest, List.append_nil]
      exact .given (.pure (.otherwise hcode))
    | some e =>
      have hordered : ∀ c ∈ (rest.map fun b => b.info.condition).dropLast, c ≠ none := by
        cases rest with
        | nil => exact fun c hc => absurd hc List.not_mem_nil
        | cons b rest => exact fun c hc => ho c (List.mem_cons_of_mem _ hc)
      have hmore :=
        emitBranches_adds ht parent (index + 1) rest hsingle hordered hconditions hbelow
      refine hmore.andThen fun more hmore => .pure ?_
      exact .test (renderOperand_calls (hcondition e hc) s.locals) hcode hmore

end

/-- The root calls what all nodes need. -/
theorem emitRoots_adds (ht : settings.tolerant = false) (nodes : List Node)
    (h : ∀ n ∈ Node.withinAll nodes, Serves src settings.context n) :
    Adds src (Node.helpers (Node.withinAll nodes)) (emitRoots settings nodes)
      (src.Calls · (Node.helpers (Node.withinAll nodes))) := by
  unfold emitRoots
  split
  · exact .get fun s => (emitAll_adds settings ht [] 0 nodes h).deeper.andThen fun items hitems =>
      fragmentCall_adds (arrayLiteral_calls s.level hitems) _
  · rename_i hfew
    match nodes with
    | [] =>
      rw [emitAll]
      exact .given (.pure (.plain "null" (by decide)))
    | [n] =>
      have hn := emit_adds settings ht (Path.child [] 0) n (List.forall_mem_append.mp h).1
      rw [emitAll_cons, emitAll, bind_assoc, Node.withinAll, Node.withinAll, List.append_nil]
      refine (hn.handle ht).andThen fun r hr => .given (.given ?_)
      obtain ⟨code, rfl, hcode⟩ := hr
      exact .pure hcode
    | _ :: _ :: _ => exact absurd (by simp) hfew

/-- The code of a template calls the helpers that its nodes need, in the order of the text. Just
these are noted, and nothing that is hoisted calls one. -/
theorem generate_adds (ht : settings.tolerant = false) {nodes : List Node} {unit : RenderUnit}
    {errors : List Diagnostic} (h : ∀ n ∈ Node.withinAll nodes, Serves src settings.context n)
    (hg : generate settings nodes = .ok (unit, errors)) :
    src.Calls unit.root (Node.helpers (Node.withinAll nodes)) ∧
      (∀ line ∈ unit.hoisted, src.Calls line []) ∧
      ∀ k, k ∈ unit.helpers.toList ↔ k ∈ Node.helpers (Node.withinAll nodes) := by
  rcases hr : (emitRoots settings nodes).run {} with ⟨r, s⟩
  unfold generate at hg
  rw [hr] at hg
  cases r with
  | error d => cases hg
  | ok root =>
    cases hg
    obtain ⟨hroot, hgrows⟩ := emitRoots_adds settings ht nodes h {} s root hr
    refine ⟨hroot, fun line hline => ?_, fun k => ?_⟩
    · exact (hgrows.hoisted line hline).resolve_left List.not_mem_nil
    · rw [HelperSet.mem_toList, hgrows.helpers k]
      refine or_iff_right ?_
      cases k <;> decide

end Nodes

end Calls

end UiTemplate
