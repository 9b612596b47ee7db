import UiTemplate.Proofs.Backend.Fallback
import UiTemplate.Proofs.Compile.Scopes
import UiTemplate.Proofs.Outlet.Iterated
import UiTemplate.Proofs.Template.Written

/-!
# The producers of loops

A loop renders its node once for every item, by a function whose parameters are the names of the
loop: those that the template chooses for the item and the index, and those that the compiler
chooses, `_` where there is no index and the variable that holds the position.

- `Expression.isName_pathVariable`, `Expression.isName_placeholder`: what the compiler chooses is a
  name.
- `LoopInfo.Named`: what has to hold of the names that a template chooses.
- `Template.annotate_producers`: the parameters are different names exactly if that holds.
-/

namespace UiTemplate

open Text Script

/-! ## Names that the compiler chooses -/

namespace Expression

theorem isName_placeholder : isName "_" = true := by
  have hfirst : isIdentPart '_' = true := LoopHead.isIdentPart_of_isNameStart (by decide)
  refine isName_of_parts ⟨'_', [], rfl, by decide, rfl⟩ ?_ (by decide) (by decide)
  exact List.all_eq_true.mpr (List.forall_mem_singleton.mpr hfirst)

/-- The variable that holds the position in a loop is a name. -/
theorem isName_pathVariable (depth : Nat) : isName (Code.pathVariable depth) = true := by
  have htext : (Code.pathVariable depth).toList = 'i' :: Nat.toDigits 10 depth := by
    simp [Code.pathVariable, Decimal.natText]
  have hdigit {c : Char} (hc : c ∈ Nat.toDigits 10 depth) : c.isDigit = true :=
    Nat.isDigit_of_mem_toDigits (by decide) (by decide) hc
  have hname : LoopHead.IsName (Code.pathVariable depth) := by
    refine ⟨'i', _, htext, by decide, List.all_eq_true.mpr fun c hc => ?_⟩
    exact (LoopHead.isDigit_part (hdigit hc)).1
  -- No reserved word has a digit in it.
  have hword {word : String} (hw : word.toList.all (!·.isDigit) = true) :
      Code.pathVariable depth ≠ word := by
    rintro rfl
    obtain ⟨c, cs, hcs⟩ := List.exists_cons_of_ne_nil (Nat.toDigits_ne_nil (b := 10) (n := depth))
    have hc := hdigit (c := c) (by rw [hcs]; exact List.mem_cons_self)
    rw [htext, hcs] at hw
    simp [hc] at hw
  refine (isName_iff hname).mpr ⟨?_, ?_, hword (by decide)⟩
  · have hfirst : isIdentPart 'i' = true := LoopHead.isIdentPart_of_isNameStart (by decide)
    rw [htext, List.all_cons, Bool.and_eq_true]
    exact ⟨hfirst, List.all_eq_true.mpr fun c hc => (LoopHead.isDigit_part (hdigit hc)).2⟩
  · have hreserved : ∀ word ∈ reservedWords, word.toList.all (!·.isDigit) = true := by decide
    rw [isBindingWord, Bool.not_eq_true', List.contains_eq_mem, decide_eq_false_iff_not]
    exact fun hmem => hword (hreserved _ hmem) rfl

end Expression

/-! ## Names that a template chooses -/

namespace LoopInfo

/-- The names that a template gives to the item of a loop and, if it has one, to its index. -/
def chosen (loop : LoopInfo) : List String :=
  loop.item :: loop.index.toList

/-- The names that a template chooses for a loop are identifiers, and they differ from each other
and from the names that the compiler chooses. -/
structure Named (loop : LoopInfo) : Prop where
  words : ∀ name ∈ loop.chosen,
    name.toList.all isIdentPart = true ∧ isBindingWord name = true ∧ name ≠ "await"
  distinct : loop.chosen.Nodup
  position : loop.pathVariable ∉ loop.chosen
  placeholder : loop.index = none → loop.item ≠ "_"

/-- How the producer of a loop starts: with its parameters. -/
def head (loop : LoopInfo) : String :=
  "(" ++ ", ".intercalate loop.params ++ ") => "

theorem placeholder_ne_pathVariable (loop : LoopInfo) : "_" ≠ loop.pathVariable := by
  intro h
  have htext := congrArg (fun name => name.toList.head?) h
  simp [pathVariable, Code.pathVariable] at htext

theorem named_iff {loop : LoopInfo} (h : ∀ name ∈ loop.chosen, LoopHead.IsName name) :
    loop.Named ↔ (∀ name ∈ loop.chosen, Expression.isName name = true) ∧ loop.chosen.Nodup ∧
      loop.pathVariable ∉ loop.chosen ∧ (loop.index = none → loop.item ≠ "_") := by
  have hword : (∀ name ∈ loop.chosen, Expression.isName name = true) ↔
      ∀ name ∈ loop.chosen,
        name.toList.all isIdentPart = true ∧ isBindingWord name = true ∧ name ≠ "await" :=
    forall₂_congr fun name hname => Expression.isName_iff (h name hname)
  rw [hword]
  exact ⟨fun h => ⟨h.words, h.distinct, h.position, h.placeholder⟩,
    fun ⟨words, distinct, position, placeholder⟩ => ⟨words, distinct, position, placeholder⟩⟩

/-- The parameters of a producer are different names exactly if the names that the template chooses
are fit for it. -/
theorem params_iff_named {loop : LoopInfo} (h : ∀ name ∈ loop.chosen, LoopHead.IsName name) :
    (loop.params.Nodup ∧ ∀ name ∈ loop.params, Expression.isName name = true) ↔ loop.Named := by
  have hposition : Expression.isName loop.pathVariable = true :=
    Expression.isName_pathVariable loop.depth
  have hplaceholder := Expression.isName_placeholder
  have hne := loop.placeholder_ne_pathVariable
  rw [named_iff h, chosen, params]
  cases hindex : loop.index with
  | none =>
    simp only [Option.getD_none, Option.toList_none, List.nodup_cons, List.mem_cons,
      List.not_mem_nil, or_false, not_or]
    grind
  | some index =>
    simp only [Option.getD_some, Option.toList_some, List.nodup_cons, List.mem_cons,
      List.not_mem_nil, or_false, not_or]
    grind

end LoopInfo

/-! ## Emitted producers -/

namespace Quotes

open Code

variable {code : String} {ts : List String}

/-- What stands in a piece of code stands in the pieces between separators. -/
theorem intercalate {codes : List String} (h : Quotes code ts) (hmem : code ∈ codes)
    (separator : String) (hopens : opens separator = true) (hcloses : closes separator = true) :
    Quotes (separator.intercalate codes) ts := by
  induction codes with
  | nil => exact absurd hmem List.not_mem_nil
  | cons first rest ih =>
    cases rest with
    | nil =>
      obtain rfl := List.mem_singleton.mp hmem
      rwa [String.intercalate_singleton]
    | cons next rest =>
      rw [String.intercalate_cons_cons]
      rcases List.mem_cons.mp hmem with rfl | hmem
      · rw [String.append_assoc]
        exact h.follow _ (.of_opens _ (opens_append hopens _))
      · exact (ih hmem).prepend _ (.of_closes (closes_append _ hcloses) _)

/-- What stands in an argument stands in the call. -/
theorem arguments {args : List String} (h : Quotes code ts) (hmem : code ∈ args)
    (callee : String) : Quotes (callee ++ "(" ++ ", ".intercalate args ++ ")") ts := by
  have hargs := h.intercalate hmem ", " (by decide) (by decide)
  have hopen : closes (callee ++ "(") = true := closes_append callee (by decide)
  exact (hargs.prepend _ (.of_closes hopen _)).follow _ (.of_opens _ (by decide))

/-- The producer of a loop starts with its parameters. -/
theorem head (info : LoopInfo) (body : String) :
    Quotes ("(" ++ ", ".intercalate info.params ++ ") => " ++ body) [info.head] :=
  (Quotes.text info.head).follow body (.of_closes (closes_append _ (by decide)) body)

/-- A call of `forEach` is given its producer. -/
theorem forEach {source producer : String} (h : Quotes producer ts) :
    Quotes (Helper.forEach.call [source, producer]) ts :=
  h.arguments (by simp) Helper.forEach.shortName

end Quotes

/-- The code of a loop in calls has a producer that starts so. -/
theorem Calls.emit_loop_head {settings : CallSettings} {path : Path} {info : LoopInfo}
    {children : List Node} {s s' : CallState} {code : String}
    (h : (emit settings path (.loop info children)).run s = (.ok code, s')) :
    Quotes code [info.head] := by
  obtain ⟨now, _, -, h⟩ := Emit.run_bind_inv (by rwa [emit] at h)
  obtain ⟨child, _, -, h⟩ := Emit.run_bind_inv h
  obtain ⟨_, _, -, h⟩ := Emit.run_bind_inv h
  obtain ⟨tag, _, -, h⟩ := Emit.run_bind_inv h
  obtain ⟨_, _, -, h⟩ := Emit.run_bind_inv h
  obtain ⟨h, -⟩ := Prod.mk.inj h
  obtain rfl := Except.ok.inj h
  have hitems : Quotes (Helper.forEach.call [info.source.render now.locals, _]) [info.head] :=
    (Quotes.head info child).forEach
  exact hitems.arguments (by simp [arguments]) "createElementVNode"

/-- What is bound for a loop is computed with a producer that starts so. -/
theorem Thunk.render_loop_head (info : LoopInfo) (record : Record) (locals : List String)
    (level : Nat) :
    Quotes ((Thunk.loop info.source info.item info.index info.depth record).render locals level)
      [info.head] := by
  have hbrace : ") => \x7b\n" = ") => " ++ "\x7b\n" := rfl
  have hstart (body : String) :
      Quotes ("(" ++ ", ".intercalate info.params ++ ") => \x7b\n" ++ body) [info.head] := by
    have htext := Quotes.head info ("\x7b\n" ++ body)
    rw [hbrace]
    simpa only [String.append_assoc] using htext
  rw [Thunk.render]
  refine Quotes.forEach ?_
  have hproducer := hstart (Code.indent (level + 1) ++ "return " ++
    Code.object (level + 1) (Record.renderFields (locals ++ info.params) (level + 2) record) ++
      ";\n" ++ Code.indent level ++ "\x7d")
  simp only [← String.append_assoc] at hproducer
  exact hproducer

/-! ## Templates -/

/-- The names that a template chooses for the loop are such as loop heads accept. -/
def Node.IsHeaded : Node → Prop
  | .loop info _ => ∀ name ∈ info.chosen, LoopHead.IsName name
  | _ => True

theorem Node.isHeaded_strip (f : SlotInfo → SlotInfo) (n : Node) :
    (n.strip f).IsHeaded ↔ n.IsHeaded := by
  cases n <;> exact Iff.rfl

/-- In a tree that was read, and that has its outlets and keys, every loop has names that loop heads
accept. -/
theorem Template.annotate_isHeaded {options : ParseOptions} {source : String} {nodes : List Node}
    (h : Template.parse options source = .ok nodes) (capabilities : Capabilities) :
    ∀ n ∈ Node.withinAll (Template.annotate capabilities nodes).nodes, n.IsHeaded := by
  refine (Node.forall_within_of_stripAll_eq SlotInfo.plain (Node.isHeaded_strip SlotInfo.plain)
    (Template.annotate_strip capabilities nodes)).mpr fun n hn => ?_
  have hwritten := (Template.parse_written h).1 n hn
  cases n with
  | loop info children =>
    obtain ⟨hitem, hindex⟩ := hwritten
    refine List.forall_mem_cons.mpr ⟨hitem, fun name hname => hindex name ?_⟩
    exact Option.mem_toList.mp hname
  | _ => trivial

/-- Every loop of a template has a producer in the code of either family: its call in the one, and
what is bound for it in the other. The parameters of the producer are different identifiers exactly
if the names that the template chooses are identifiers, and differ from each other, from the
variable that holds the position and, where there is no index, from its placeholder. -/
theorem Template.annotate_producers {options : ParseOptions} {source : String} {nodes : List Node}
    (h : Template.parse options source = .ok nodes) (family : Family) {info : LoopInfo}
    {children : List Node}
    (hloop : .loop info children ∈
      Node.withinAll (Template.annotate family.capabilities nodes).nodes) :
    ((info.params.Nodup ∧ ∀ name ∈ info.params, Expression.isName name = true) ↔ info.Named) ∧
      (∀ settings path s s' code,
        (Calls.emit settings path (.loop info children)).run s = (.ok code, s') →
        Quotes code [info.head]) ∧
      ∀ p ∈ (Node.loop info children).parts family, ∀ locals level,
        Quotes (p.2.render locals level) [info.head] := by
  have hnames := Template.annotate_isHeaded h family.capabilities _ hloop
  refine ⟨LoopInfo.params_iff_named hnames, fun settings path s s' code hrun => ?_, ?_⟩
  · exact Calls.emit_loop_head hrun
  · exact List.forall_mem_singleton.mpr (Thunk.render_loop_head info _)

/-- Whether the node is a loop whose producer has these parameters. -/
def Node.producesWith (params : List String) : Node → Bool
  | .loop info _ => info.params == params
  | _ => false

theorem Node.exists_producesWith {params : List String} {ns : List Node}
    (h : (Node.withinAll ns).any (Node.producesWith params) = true) :
    ∃ info children, .loop info children ∈ Node.withinAll ns ∧ info.params = params := by
  obtain ⟨n, hn, hp⟩ := List.any_eq_true.mp h
  cases n with
  | loop info children => exact ⟨info, children, hn, beq_iff_eq.mp hp⟩
  | _ => exact absurd hp Bool.false_ne_true

/-- A loop in a loop. The outer one names its index. -/
def loopInLoop : String :=
  "<view v-for=\"(x, k) in xs\"><text v-for=\"y of x\"/></view>"

/-- The parameters of both loops, in both families. -/
theorem Template.annotate_producers_loopInLoop :
    ∃ nodes, Template.parse {} loopInLoop = .ok nodes ∧
      ∀ params ∈ [["x", "k", "i0"], ["y", "_", "i1"]], ∀ family : Family, ∃ info children,
        .loop info children ∈
          Node.withinAll (Template.annotate family.capabilities nodes).nodes ∧
        info.params = params ∧ info.Named := by
  have hfacts : ∃ nodes ∈ (Template.parse {} loopInLoop).toOption,
      ∀ params ∈ [["x", "k", "i0"], ["y", "_", "i1"]],
      ∀ capabilities ∈ [Family.calls.capabilities, Family.markup.capabilities],
        (Node.withinAll (Template.annotate capabilities nodes).nodes).any
          (Node.producesWith params) = true := by
    decide +kernel
  have hnames : ∀ params ∈ [["x", "k", "i0"], ["y", "_", "i1"]],
      params.Nodup ∧ ∀ name ∈ params, Expression.isName name = true := by
    decide +kernel
  obtain ⟨nodes, hnodes, hfacts⟩ := hfacts
  have hparse := Except.toOption_eq_some.mp hnodes
  refine ⟨nodes, hparse, fun params hparams family => ?_⟩
  have hfamily : family.capabilities ∈
      [Family.calls.capabilities, Family.markup.capabilities] := by
    cases family <;> simp
  obtain ⟨info, children, hloop, rfl⟩ :=
    Node.exists_producesWith (hfacts params hparams family.capabilities hfamily)
  exact ⟨info, children, hloop, rfl,
    (Template.annotate_producers hparse family hloop).1.mp (hnames _ hparams)⟩

/-- A loop that gives its index the name of its item, and one that takes a reserved word. -/
def reusedAndReserved : String :=
  "<a v-for=\"(x, x) in xs\"/><a v-for=\"if in ys\"/>"

/-- The calls of this template. -/
def reusedAndReservedCalls : String :=
  "import \x7b Fragment, createElementVNode \x7d from \"vue\";\n" ++
    "import \x7b forEach as _f \x7d from \"@dcloudio/uni-runtime\";\n\n" ++
    "export function render(_ctx) \x7b\n  return createElementVNode(Fragment, null, [\n" ++
    "    createElementVNode(Fragment, null, _f(_ctx.xs, (x, x, i0) => " ++
    "createElementVNode(\"a\")), 256 /* UNKEYED_FRAGMENT */),\n" ++
    "    createElementVNode(Fragment, null, _f(_ctx.ys, (if, _, i0) => " ++
    "createElementVNode(\"a\")), 256 /* UNKEYED_FRAGMENT */)\n" ++
    "  ], 64 /* STABLE_FRAGMENT */)\n\x7d\n"

/-- The bound values of this template. -/
def reusedAndReservedBinding : String :=
  "import \x7b forEach as _f \x7d from \"@dcloudio/uni-runtime\";\n" ++
    "export default function bindings(_ctx) \x7b\n  return \x7b\n" ++
    "    a: _f(_ctx.xs, (x, x, i0) => \x7b\n      return \x7b\x7d;\n    \x7d),\n" ++
    "    b: _f(_ctx.ys, (if, _, i0) => \x7b\n      return \x7b\x7d;\n    \x7d)\n  \x7d;\n\x7d\n"

/-- The names that a template chooses are taken over as they are: a producer may have a parameter
twice, and one that is no identifier. -/
theorem Template.annotate_producers_reusedAndReserved :
    ∃ r r' nodes markup, compile Resolver.none {} reusedAndReserved = .ok r ∧
      compile Resolver.none toMarkup reusedAndReserved = .ok r' ∧
      r.output = .function reusedAndReservedCalls ∧
      r'.output = .pair markup reusedAndReservedBinding ∧
      Template.parse {} reusedAndReserved = .ok nodes ∧
      (∃ info children, .loop info children ∈ Node.withinAll nodes ∧
        info.params = ["x", "x", "i0"] ∧ ¬info.params.Nodup) ∧
      ∃ info children, .loop info children ∈ Node.withinAll nodes ∧
        info.params = ["if", "_", "i0"] ∧ Expression.isName "if" = false := by
  have hfacts : ∃ r ∈ (compile Resolver.none {} reusedAndReserved).toOption,
      ∃ r' ∈ (compile Resolver.none toMarkup reusedAndReserved).toOption,
      ∃ nodes ∈ (Template.parse {} reusedAndReserved).toOption,
      r.output = .function reusedAndReservedCalls ∧
      r'.output = .pair ("<a wx:for=\"\x7b\x7ba\x7d\x7d\" wx:for-item=\"x\"/>" ++
        "<a wx:for=\"\x7b\x7bb\x7d\x7d\" wx:for-item=\"if\"/>") reusedAndReservedBinding ∧
      (Node.withinAll nodes).any (Node.producesWith ["x", "x", "i0"]) = true ∧
      (Node.withinAll nodes).any (Node.producesWith ["if", "_", "i0"]) = true ∧
      Expression.isName "if" = false := by
    decide +kernel
  obtain ⟨r, hr, r', hr', nodes, hnodes, hcalls, hbinding, hreused, hreserved, hword⟩ := hfacts
  obtain ⟨info, children, hloop, hparams⟩ := Node.exists_producesWith hreused
  obtain ⟨info', children', hloop', hparams'⟩ := Node.exists_producesWith hreserved
  exact ⟨r, r', nodes, _, Except.toOption_eq_some.mp hr, Except.toOption_eq_some.mp hr', hcalls,
    hbinding, Except.toOption_eq_some.mp hnodes,
    ⟨info, children, hloop, hparams, by rw [hparams]; decide⟩,
    ⟨info', children', hloop', hparams', hword⟩⟩

end UiTemplate
