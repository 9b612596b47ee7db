import UiTemplate.Proofs.Backend.Ends
import UiTemplate.Proofs.Rendering.Indent
import UiTemplate.Proofs.Template.WellFormed
import UiTemplate.Proofs.Tolerance.Step

/-!
# The code of static nodes

The code of a static node is a function of the node, the platform and the level of indentation
alone.

- `Node.staticCode`, `Node.hoistedCode`: the code, where the node stands and where it is hoisted.
- `Calls.Constant`: code without anything that a template computes or looks up.
- `Calls.emit_static`: this code is what a static node becomes, whatever was emitted before.
-/

namespace UiTemplate

/-! ## Calls of constructors -/

namespace Calls

/-- The code of a call. -/
def callText (callee : String) (args : List (Option String)) : String :=
  callee ++ "(" ++ ", ".intercalate (arguments args) ++ ")"

/-- A missing argument at the end is left out. -/
theorem arguments_append_none (args : List (Option String)) :
    arguments (args ++ [none]) = arguments args := by
  simp [arguments]

theorem callText_append_none (callee : String) (args : List (Option String)) :
    callText callee (args ++ [none]) = callText callee args := by
  rw [callText, arguments_append_none, callText]

theorem arguments_map {f : String → String} (hf : f "null" = "null")
    (args : List (Option String)) :
    arguments (args.map (Option.map f)) = (arguments args).map f := by
  have hnone : Option.isNone ∘ Option.map f = Option.isNone := by
    funext a
    cases a <;> rfl
  unfold arguments
  rw [← List.map_reverse, List.dropWhile_map, hnone, ← List.map_reverse, List.map_map,
    List.map_map]
  refine List.map_congr_left fun a _ => ?_
  cases a with
  | none => exact hf.symm
  | some code => rfl

/-- A call moved further in is the call with its arguments moved further in. -/
theorem reindent_callText (more : Nat) {callee : String} (h : Code.OneLine callee)
    (args : List (Option String)) :
    Code.reindent more (callText callee args) =
      callText callee (args.map (Option.map (Code.reindent more))) := by
  have hopen : Code.reindent more "(" = "(" := Code.OneLine.reindent (by decide) more
  have hcomma : Code.reindent more ", " = ", " := Code.OneLine.reindent (by decide) more
  have hclose : Code.reindent more ")" = ")" := Code.OneLine.reindent (by decide) more
  have hnull : Code.reindent more "null" = "null" := Code.OneLine.reindent (by decide) more
  unfold callText
  rw [Code.reindent_append, Code.reindent_append, Code.reindent_append, h.reindent, hopen,
    Code.reindent_intercalate, hcomma, hclose, arguments_map hnull]

end Calls

/-! ## The code -/

namespace Node

/-- The literal of a text. -/
def textLiteral? : Node → Option String
  | text value _ => some (Code.literal value)
  | _ => none

/-- The children of a static element as an argument, given their code at the next level. -/
def staticChildren (level : Nat) (children : List Node) (codes : List String) : Option String :=
  if Calls.isText children then some (" + ".intercalate (children.filterMap textLiteral?))
  else if children.isEmpty then none
  else some (Calls.arrayLiteral level codes)

/-- The arguments that construct a static element. -/
def staticArguments (platform : Platform) (info : ElementInfo) (children : Option String) :
    List (Option String) :=
  [some (Code.literal info.tag), (Calls.elementProps platform [] info).literal, children]

mutual

/-- The code of a static node. -/
def staticCode (platform : Platform) (level : Nat) : Node → String
  | element info children =>
    Calls.callText "createElementVNode" (staticArguments platform info
      (staticChildren level children (staticCodes platform (level + 1) children)))
  | text value _ => Calls.callText "createTextVNode" [some (Code.literal value)]
  | comment value _ => Calls.callText "createCommentVNode" [some (Code.literal value)]
  | _ => "null"

/-- The code of static nodes. -/
def staticCodes (platform : Platform) (level : Nat) : List Node → List String
  | [] => []
  | n :: rest => n.staticCode platform level :: staticCodes platform level rest

end

/-- The code of a static element where it is hoisted: behind its arguments, with `null` for those
that are missing, stands the flag that says so. -/
def hoistedCode (platform : Platform) : Node → String
  | element info children =>
    Calls.callText "createElementVNode" (staticArguments platform info
      (staticChildren 0 children (staticCodes platform 1 children)) ++
        [some PatchFlag.hoisted.render])
  | n => n.staticCode platform 0

end Node

/-! ## The attributes of a static element -/

namespace Calls

/-- An object literal with the given fields. -/
def objectLiteral (fields : List (String × String)) : String :=
  Code.inlineObject (fields.map fun f => Code.fieldKey f.1 ++ ": " ++ f.2)

/-- The literal of a map with the given entries. -/
def mapLiteral (fields : List (String × String)) : String :=
  "new Map<string, any | null>([" ++
    ", ".intercalate (fields.map fun f => "[" ++ Code.literal f.1 ++ ", " ++ f.2 ++ "]") ++ "])"

section Attributes

variable {platform : Platform} {info : ElementInfo} (h : info.directives = [])
include h

/-- No property of an element without directives changes or hangs on local names. -/
theorem elementProps_static (locals : List String) :
    elementProps platform locals info = ⟨(elementProps platform [] info).literal, 0, []⟩ := by
  unfold elementProps
  rw [h]
  rfl

/-- The properties of an element without directives are fields with a literal or `true` each. -/
theorem elementProps_fields {code : String}
    (hcode : (elementProps platform [] info).literal = some code) :
    ∃ fields : List (String × String),
      (∀ f ∈ fields, f.2 = "true" ∨ ∃ value, f.2 = Code.literal value) ∧
      (code = mapLiteral fields ∨ code = objectLiteral fields) := by
  unfold elementProps at hcode
  rw [h] at hcode
  dsimp only at hcode
  refine ⟨inTextOrder ((info.attributes.map fun a =>
    (a.location.offset, a.name, (a.value.map Code.literal).getD "true")) ++ []), ?_, ?_⟩
  · intro f hf
    obtain ⟨placed, hplaced, rfl⟩ := List.mem_map.mp hf
    rw [List.append_nil] at hplaced
    obtain ⟨a, -, rfl⟩ := List.mem_map.mp (List.mem_mergeSort.mp hplaced)
    cases hvalue : a.value with
    | none => exact .inl (by simp)
    | some value => exact .inr ⟨value, by simp⟩
  · split at hcode
    · cases hcode
    · split at hcode
      · exact .inl (Option.some.inj hcode).symm
      · exact .inr (Option.some.inj hcode).symm

theorem oneLine_elementProps {code : String}
    (hcode : (elementProps platform [] info).literal = some code) : Code.OneLine code := by
  obtain ⟨fields, hfields, hform⟩ := elementProps_fields h hcode
  have hvalue : ∀ f ∈ fields, Code.OneLine f.2 := by
    intro f hf
    rcases hfields f hf with he | ⟨value, he⟩
    · rw [he]
      decide
    · rw [he]
      exact .literal value
  rcases hform with rfl | rfl
  · refine .append (.append (by decide) (.intercalate (by decide) fun code hcode => ?_)) (by decide)
    obtain ⟨f, hf, rfl⟩ := List.mem_map.mp hcode
    have hkey := Code.OneLine.append (show Code.OneLine "[" by decide) (.literal f.1)
    exact .append (.append (.append hkey (by decide)) (hvalue f hf)) (by decide)
  · refine .append (.append (by decide) (.intercalate (by decide) fun code hcode => ?_)) (by decide)
    obtain ⟨f, hf, rfl⟩ := List.mem_map.mp hcode
    exact .append (.append (.fieldKey f.1) (by decide)) (hvalue f hf)

end Attributes

end Calls

namespace Node

/-! ## Indentation -/

section Indentation

variable {platform : Platform}

theorem oneLine_textLiterals (children : List Node) :
    Code.OneLine (" + ".intercalate (children.filterMap textLiteral?)) := by
  refine .intercalate (by decide) fun code hcode => ?_
  obtain ⟨n, -, hn⟩ := List.mem_filterMap.mp hcode
  cases n with
  | text value l =>
    cases hn
    exact .literal value
  | _ => cases hn

theorem reindent_staticChildren (level more : Nat) (children : List Node) (codes : List String) :
    (staticChildren level children codes).map (Code.reindent more) =
      staticChildren (more + level) children (codes.map (Code.reindent more)) := by
  unfold staticChildren
  split
  · exact congrArg some ((oneLine_textLiterals children).reindent more)
  · split
    · rfl
    · exact congrArg some (Calls.reindent_arrayLiteral level more codes)

theorem reindent_staticArguments {info : ElementInfo} (h : info.directives = []) (more : Nat)
    (children : Option String) :
    (staticArguments platform info children).map (Option.map (Code.reindent more)) =
      staticArguments platform info (children.map (Code.reindent more)) := by
  have htag : Code.reindent more (Code.literal info.tag) = Code.literal info.tag :=
    (Code.OneLine.literal info.tag).reindent more
  have hprops : (Calls.elementProps platform [] info).literal.map (Code.reindent more) =
      (Calls.elementProps platform [] info).literal := by
    cases hliteral : (Calls.elementProps platform [] info).literal with
    | none => rfl
    | some code => exact congrArg some ((Calls.oneLine_elementProps h hliteral).reindent more)
  unfold staticArguments
  rw [List.map_cons, List.map_cons, List.map_cons, List.map_nil, Option.map_some, htag, hprops]

mutual

/-- The level of static code is its indentation. -/
theorem reindent_staticCode (level more : Nat) (n : Node) (hn : ∀ m ∈ n.within, m.IsPlain) :
    Code.reindent more (n.staticCode platform level) = n.staticCode platform (more + level) := by
  match n with
  | .element info children =>
    obtain ⟨⟨-, hdirectives⟩, hbelow⟩ := List.forall_mem_cons.mp hn
    rw [staticCode, staticCode, Calls.reindent_callText more (by decide),
      reindent_staticArguments hdirectives, reindent_staticChildren,
      reindent_staticCodes (level + 1) more children hbelow, Nat.add_assoc]
  | .text value _ =>
    rw [staticCode, staticCode, Calls.reindent_callText more (by decide)]
    exact congrArg (fun code => Calls.callText "createTextVNode" [some code])
      ((Code.OneLine.literal value).reindent more)
  | .comment value _ =>
    rw [staticCode, staticCode, Calls.reindent_callText more (by decide)]
    exact congrArg (fun code => Calls.callText "createCommentVNode" [some code])
      ((Code.OneLine.literal value).reindent more)
  | .interpolation .. => exact (hn _ List.mem_cons_self).elim
  | .slot .. => exact (hn _ List.mem_cons_self).elim
  | .chain .. => exact (hn _ List.mem_cons_self).elim
  | .loop .. => exact (hn _ List.mem_cons_self).elim

theorem reindent_staticCodes (level more : Nat) (ns : List Node)
    (hn : ∀ m ∈ withinAll ns, m.IsPlain) :
    (staticCodes platform level ns).map (Code.reindent more) =
      staticCodes platform (more + level) ns := by
  match ns with
  | [] => rfl
  | n :: rest =>
    obtain ⟨hfirst, hrest⟩ := List.forall_mem_append.mp hn
    rw [staticCodes, staticCodes, List.map_cons, reindent_staticCode level more n hfirst,
      reindent_staticCodes level more rest hrest]

end

end Indentation

end Node

/-! ## What the code refers to -/

/-- Code of constants: literals, and what constructors of nodes, arrays and objects make of them. No
expression of a template stands in it, no helper and no component. -/
inductive Calls.Constant : String → Prop where
  | null : Constant "null"
  | true : Constant "true"
  | hoisted : Constant PatchFlag.hoisted.render
  | literal (value : String) : Constant (Code.literal value)
  | sum {codes : List String} (nonempty : codes ≠ []) (h : ∀ code ∈ codes, Constant code) :
    Constant (" + ".intercalate codes)
  | array (level : Nat) {items : List String} (h : ∀ item ∈ items, Constant item) :
    Constant (arrayLiteral level items)
  | object {fields : List (String × String)} (h : ∀ f ∈ fields, Constant f.2) :
    Constant (objectLiteral fields)
  | map {fields : List (String × String)} (h : ∀ f ∈ fields, Constant f.2) :
    Constant (mapLiteral fields)
  | call {callee : String}
    (constructor : callee ∈ ["createElementVNode", "createTextVNode", "createCommentVNode"])
    {args : List (Option String)} (h : ∀ code, some code ∈ args → Constant code) :
    Constant (callText callee args)

namespace Node

section Constant

variable {platform : Platform}

/-- Plain children that are characters are texts. -/
theorem textLiteral?_of_isPlain {n : Node} (ht : n.isTextLike = true) (hn : n.IsPlain) :
    ∃ value, n.textLiteral? = some (Code.literal value) := by
  cases n with
  | text value _ => exact ⟨value, rfl⟩
  | interpolation => exact hn.elim
  | _ => cases ht

theorem mem_withinAll_of_mem {n : Node} {ns : List Node} (h : n ∈ ns) : n ∈ withinAll ns := by
  induction ns with
  | nil => exact absurd h List.not_mem_nil
  | cons m rest ih =>
    rw [withinAll, List.mem_append]
    rcases List.mem_cons.mp h with rfl | h
    · exact .inl (by cases n <;> exact List.mem_cons_self)
    · exact .inr (ih h)

theorem constant_textLiterals {children : List Node} (h : Calls.isText children = true)
    (hc : ∀ m ∈ withinAll children, m.IsPlain) :
    Calls.Constant (" + ".intercalate (children.filterMap textLiteral?)) := by
  rw [Calls.isText, Bool.and_eq_true, List.all_eq_true] at h
  have hliteral : ∀ n ∈ children, ∃ value, n.textLiteral? = some (Code.literal value) :=
    fun n hn => textLiteral?_of_isPlain (h.2 n hn) (hc n (mem_withinAll_of_mem hn))
  refine .sum ?_ fun code hcode => ?_
  · cases children with
    | nil => cases h.1
    | cons n rest =>
      obtain ⟨value, hvalue⟩ := hliteral n List.mem_cons_self
      rw [List.filterMap_cons_some hvalue]
      exact List.cons_ne_nil _ _
  · obtain ⟨n, hn, hcode⟩ := List.mem_filterMap.mp hcode
    obtain ⟨value, hvalue⟩ := hliteral n hn
    obtain rfl : Code.literal value = code := Option.some.inj (hvalue.symm.trans hcode)
    exact .literal value

theorem constant_staticArguments {info : ElementInfo} (h : info.directives = [])
    {children : Option String} (hc : ∀ code, children = some code → Calls.Constant code) :
    ∀ code, some code ∈ staticArguments platform info children → Calls.Constant code := by
  intro code hcode
  have hcases : code = Code.literal info.tag ∨
      (Calls.elementProps platform [] info).literal = some code ∨ children = some code := by
    simpa [staticArguments, eq_comm] using hcode
  rcases hcases with rfl | hprops | hchildren
  · exact .literal info.tag
  · obtain ⟨fields, hfields, hform⟩ := Calls.elementProps_fields h hprops
    have hconstant : ∀ f ∈ fields, Calls.Constant f.2 := by
      intro f hf
      rcases hfields f hf with he | ⟨value, he⟩
      · rw [he]
        exact .true
      · rw [he]
        exact .literal value
    rcases hform with rfl | rfl
    · exact .map hconstant
    · exact .object hconstant
  · exact hc code hchildren

theorem constant_staticChildren (level : Nat) {children : List Node} {codes : List String}
    (hc : ∀ m ∈ withinAll children, m.IsPlain) (h : ∀ code ∈ codes, Calls.Constant code) :
    ∀ code, staticChildren level children codes = some code → Calls.Constant code := by
  intro code hcode
  unfold staticChildren at hcode
  split at hcode
  · rename_i htext
    exact Option.some.inj hcode ▸ constant_textLiterals htext hc
  · split at hcode
    · cases hcode
    · exact Option.some.inj hcode ▸ .array level h

mutual

theorem constant_staticCode (level : Nat) (n : Node) (hn : ∀ m ∈ n.within, m.IsPlain) :
    Calls.Constant (n.staticCode platform level) := by
  match n with
  | .element info children =>
    obtain ⟨⟨-, hdirectives⟩, hbelow⟩ := List.forall_mem_cons.mp hn
    rw [staticCode]
    exact .call (by decide) (constant_staticArguments hdirectives
      (constant_staticChildren level hbelow (constant_staticCodes (level + 1) children hbelow)))
  | .text value _ => exact .call (by decide) (by simpa using .literal value)
  | .comment value _ => exact .call (by decide) (by simpa using .literal value)
  | .interpolation .. => exact .null
  | .slot .. => exact .null
  | .chain .. => exact .null
  | .loop .. => exact .null

theorem constant_staticCodes (level : Nat) (ns : List Node)
    (hn : ∀ m ∈ withinAll ns, m.IsPlain) :
    ∀ code ∈ staticCodes platform level ns, Calls.Constant code := by
  match ns with
  | [] => exact fun code hcode => absurd hcode List.not_mem_nil
  | n :: rest =>
    obtain ⟨hfirst, hrest⟩ := List.forall_mem_append.mp hn
    exact List.forall_mem_cons.mpr
      ⟨constant_staticCode level n hfirst, constant_staticCodes level rest hrest⟩

end

/-- The code of a hoisted element is made of constants. -/
theorem constant_hoistedCode (n : Node) (hn : ∀ m ∈ n.within, m.IsPlain) :
    Calls.Constant (n.hoistedCode platform) := by
  cases n with
  | element info children =>
    obtain ⟨⟨-, hdirectives⟩, hbelow⟩ := List.forall_mem_cons.mp hn
    refine .call (by decide) fun code hcode => ?_
    rcases List.mem_append.mp hcode with hcode | hcode
    · exact constant_staticArguments hdirectives
        (constant_staticChildren 0 hbelow (constant_staticCodes 1 children hbelow)) code hcode
    · obtain rfl := Option.some.inj (List.mem_singleton.mp hcode)
      exact .hoisted
  | _ => exact constant_staticCode 0 _ hn

end Constant

end Node

/-! ## Emission -/

/-- The state after further constructors were imported. -/
def CallState.importing (s : CallState) (names : List String) : CallState :=
  let imports := names.foldl (fun known n => insertName n known) s.unit.imports
  { s with unit := { s.unit with imports } }

theorem CallState.importing_append (s : CallState) (names names' : List String) :
    s.importing (names ++ names') = (s.importing names).importing names' := by
  simp [CallState.importing]

mutual

/-- The constructors that the code of a static node calls, one behind the other. -/
def Node.constructors : Node → List String
  | .element _ children =>
    (if Calls.isText children then [] else Node.constructorsAll children) ++ ["createElementVNode"]
  | .text .. => ["createTextVNode"]
  | .comment .. => ["createCommentVNode"]
  | _ => []

/-- The constructors that the code of static nodes calls. -/
def Node.constructorsAll : List Node → List String
  | [] => []
  | n :: rest => n.constructors ++ Node.constructorsAll rest

end

namespace Calls

theorem run_call (callee : String) (args : List (Option String)) (s : CallState) :
    (call callee args).run s = (.ok (callText callee args), s.importing [callee]) :=
  rfl

theorem run_deeper {α : Type} {step : EmitCall α} {s s' : CallState} {r : Except Diagnostic α}
    (h : step.run { s with level := s.level + 1 } = (r, s')) :
    (deeper step).run s = (r, { s' with level := s.level }) :=
  Emit.run_within h

theorem run_aside {α : Type} {step : EmitCall α} {s s' : CallState} {r : Except Diagnostic α}
    (h : step.run { s with level := 0, hoisting := true } = (r, s')) :
    (aside step).run s = (r, { s' with level := s.level, hoisting := s.hoisting }) :=
  Emit.run_within h

section Emission

variable (settings : CallSettings)

theorem textParts_static {children : List Node} (ht : children.all Node.isTextLike)
    (hc : ∀ m ∈ Node.withinAll children, m.IsPlain) (s : CallState) :
    (textParts settings children).run s =
      (.ok (children.filterMap Node.textLiteral?, false), s) := by
  induction children with
  | nil => rfl
  | cons n rest ih =>
    rw [List.all_cons, Bool.and_eq_true] at ht
    obtain ⟨hn, hrest⟩ := List.forall_mem_append.mp hc
    cases n with
    | text value l =>
      rw [textParts, Emit.run_bind_ok (ih ht.2 hrest)]
      rfl
    | interpolation => exact (hn _ List.mem_cons_self).elim
    | _ => cases ht.1

/-- The last arguments of a static element: none, or the flag of a hoisted one. -/
def staticFlag (hoisted : Bool) : List (Option String) :=
  if hoisted then [some PatchFlag.hoisted.render] else []

theorem constructElement_static {info : ElementInfo} (hk : info.kind = .native)
    (hd : info.directives = []) (children : Option String) (hoisted : Bool) (s : CallState) :
    (constructElement settings info (elementProps settings.platform s.locals info) children 0
        hoisted).run s =
      (.ok (callText "createElementVNode"
        (Node.staticArguments settings.platform info children ++ staticFlag hoisted)),
        s.importing ["createElementVNode"]) := by
  unfold constructElement
  rw [elementProps_static hd, hk]
  dsimp only
  rw [pure_bind]
  cases hoisted with
  | true =>
    exact congrArg (fun code => (Except.ok code, s.importing ["createElementVNode"]))
      (callText_append_none _ (Node.staticArguments settings.platform info children ++
        [some PatchFlag.hoisted.render]))
  | false =>
    have hmissing := (callText_append_none "createElementVNode"
      (Node.staticArguments settings.platform info children ++ [none])).trans
        (callText_append_none _ _)
    have hnone : staticFlag false = [] := rfl
    rw [hnone, List.append_nil, ← hmissing]
    rfl

/-- What a static element becomes, given what its children become one level further in. -/
theorem elementCode_static (path : Path) {info : ElementInfo} {children : List Node}
    {emitChildren : EmitCall (List String)} (hk : info.kind = .native) (hd : info.directives = [])
    (hc : ∀ m ∈ Node.withinAll children, m.IsPlain) (hoisted : Bool) (s : CallState)
    (hchildren : emitChildren.run { s with level := s.level + 1 } =
      (.ok (Node.staticCodes settings.platform (s.level + 1) children),
        CallState.importing { s with level := s.level + 1 } (Node.constructorsAll children))) :
    (elementCode settings path info children emitChildren hoisted).run s =
      (.ok (callText "createElementVNode" (Node.staticArguments settings.platform info
          (Node.staticChildren s.level children
            (Node.staticCodes settings.platform (s.level + 1) children)) ++ staticFlag hoisted)),
        s.importing (Node.element info children).constructors) := by
  have hhtml : hasHtml info = false := by
    unfold hasHtml
    rw [hd]
    rfl
  have hflag : (elementProps settings.platform s.locals info).flag = 0 := by
    rw [elementProps_static hd]
  have hget : (get : EmitCall CallState).run s = (.ok s, s) := rfl
  have hdeeper : (deeper emitChildren).run s =
      (.ok (Node.staticCodes settings.platform (s.level + 1) children),
        s.importing (Node.constructorsAll children)) :=
    run_deeper hchildren
  unfold elementCode
  rw [hhtml, Bool.false_and, if_neg Bool.false_ne_true, Emit.run_bind_ok hget]
  dsimp only
  rw [hk, Node.constructors, Node.staticChildren]
  dsimp only
  -- Children that are text make one argument, others an array one level further in.
  cases htext : isText children with
  | true =>
    have htexts : children.all Node.isTextLike = true := (Bool.and_eq_true _ _ ▸ htext).2
    rw [if_pos rfl, if_pos rfl, if_pos rfl,
      Emit.run_bind_ok (textParts_static settings htexts hc s)]
    dsimp only
    rw [if_neg Bool.false_ne_true, hflag]
    exact constructElement_static settings hk hd _ hoisted s
  | false =>
    rw [if_neg Bool.false_ne_true, if_neg Bool.false_ne_true, if_neg Bool.false_ne_true]
    cases children with
    | nil =>
      rw [if_pos List.isEmpty_nil, if_pos List.isEmpty_nil, hflag]
      exact constructElement_static settings hk hd _ hoisted s
    | cons n rest =>
      rw [if_neg (by simp), if_neg (by simp), Emit.run_bind_ok hdeeper, hflag,
        CallState.importing_append]
      exact constructElement_static settings hk hd _ hoisted (s.importing _)

mutual

/-- What a static node becomes where it is not hoisted itself. -/
theorem emit_static (path : Path) (n : Node) (hn : ∀ m ∈ n.within, m.IsPlain) (s : CallState)
    (hs : (settings.hoistStatic && !s.hoisting) = false) :
    (emit settings path n).run s =
      (.ok (n.staticCode settings.platform s.level), s.importing n.constructors) := by
  match n with
  | .element info children =>
    obtain ⟨⟨hkind, hdirectives⟩, hbelow⟩ := List.forall_mem_cons.mp hn
    have hget : (get : EmitCall CallState).run s = (.ok s, s) := rfl
    have hchecked : (Emit.checkDirectives info.directives path : EmitCall Unit).run s =
        (.ok (), s) := by
      rw [hdirectives]
      rfl
    have hplace : (settings.hoistStatic && !s.hoisting && info.isStatic &&
        decide (1 < path.length)) = false := by
      rw [hs, Bool.false_and, Bool.false_and]
    have hcode := elementCode_static settings path hkind hdirectives hbelow false s
      (emitAll_static path 0 children hbelow _ hs)
    have hflag : staticFlag false = [] := rfl
    rw [hflag, List.append_nil] at hcode
    rw [emit, elementOrHoisted, Emit.run_bind_ok hchecked, Emit.run_bind_ok hget,
      if_neg (by simp [hplace]), Node.staticCode]
    exact hcode
  | .text value l => rw [emit, run_call, Node.staticCode, Node.constructors]
  | .comment value l => rw [emit, run_call, Node.staticCode, Node.constructors]
  | .interpolation .. => exact (hn _ List.mem_cons_self).elim
  | .slot .. => exact (hn _ List.mem_cons_self).elim
  | .chain .. => exact (hn _ List.mem_cons_self).elim
  | .loop .. => exact (hn _ List.mem_cons_self).elim

theorem emitAll_static (parent : Path) (index : Nat) (ns : List Node)
    (hn : ∀ m ∈ Node.withinAll ns, m.IsPlain) (s : CallState)
    (hs : (settings.hoistStatic && !s.hoisting) = false) :
    (emitAll settings parent index ns).run s =
      (.ok (Node.staticCodes settings.platform s.level ns),
        s.importing (Node.constructorsAll ns)) := by
  match ns with
  | [] =>
    rw [emitAll]
    rfl
  | n :: rest =>
    obtain ⟨hfirst, hrest⟩ := List.forall_mem_append.mp hn
    have hn := emit_static (parent.child index) n hfirst s hs
    have hns := emitAll_static parent (index + 1) rest hrest (s.importing n.constructors) hs
    rw [emitAll, Emit.run_bind_ok (Emit.run_attempt hn)]
    dsimp only
    rw [Emit.run_bind_ok hns, Node.constructorsAll, CallState.importing_append]
    rfl

end

end Emission

end Calls

end UiTemplate
