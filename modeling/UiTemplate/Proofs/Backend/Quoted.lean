import Mathlib.Data.List.Perm.Subperm
import UiTemplate.Proofs.Rendering.Quotes
import UiTemplate.Proofs.Siblings.Calls
import UiTemplate.Proofs.Template.Shape

/-!
# Expressions in calls

- `Site.callText`: how an expression is written in the code of calls, given the names of the loops
  around it.
- `Calls.Returns`: what a step gives that succeeds inside given loops.
- `Calls.emitAll_quotes`: the code of nodes has the texts of the expressions in them.
- `Calls.generate_quotes`: what follows for a template.
-/

namespace UiTemplate

/-- The text of an expression in the code of calls. -/
def Site.callText (s : Site) : String :=
  if s.isCondition then s.expression.renderOperand s.names else s.expression.render s.names

/-- Some of the expressions in any order; all of them if the emission is complete. -/
def Quoting.calls (complete : Prop) : Quoting where
  text := Site.callText
  chosen ss kept := kept.Subperm ss ∧ (complete → kept.Perm ss)
  all ss := ⟨.refl ss, fun _ => .refl ss⟩
  append h h' := ⟨h.1.append h'.1, fun hc => (h.2 hc).append (h'.2 hc)⟩

section Parts

variable {complete : Prop} {ss : List Site}

/-- The order of the pieces does not matter. -/
theorem Quoting.HasEach.perm {codes codes' : List String} (hp : codes.Perm codes')
    (h : (calls complete).HasEach codes ss) : (calls complete).HasEach codes' ss := by
  obtain ⟨qs, ⟨hs, hc⟩, hq⟩ := h
  obtain ⟨qs', hperm, hq'⟩ := hq.perm hp
  exact ⟨qs', ⟨hperm.symm.subperm.trans hs, fun h => hperm.symm.trans (hc h)⟩, hq'⟩

/-- What is quoted completely is quoted. -/
theorem Quoting.Has.of_complete {complete' : Prop} {code : String} (hc : complete' → complete)
    (h : (calls complete).Has code ss) : (calls complete').Has code ss := by
  obtain ⟨qs, ⟨hs, hall⟩, hq⟩ := h
  exact ⟨qs, ⟨hs, fun h => hall (hc h)⟩, hq⟩

end Parts

theorem Quoting.Has.coalesce {q : Quoting} {code code' : String} {ss ss' : List Site}
    (h : q.Has code ss) (h' : q.Has code' ss') : q.Has (code ++ " ?? " ++ code') (ss ++ ss') :=
  (h.follow " ?? " (.of_opens _ (by decide))).append h' (.of_closes (Code.closes_append _ (by decide)) _)

namespace Calls

open Code

/-! ## Arguments and literals -/

section Literals

variable {q : Quoting} {ss : List Site}

/-- Arguments that are missing quote nothing. -/
theorem quotesEach_fill {text : Site → String} {args : List (Option String)} {qs : List Site}
    (h : QuotesEach text (args.flatMap Option.toList) qs) :
    QuotesEach text (args.map fun a => a.getD "null") qs := by
  induction args generalizing qs with
  | nil => exact h
  | cons a args ih =>
    cases a with
    | none =>
      have hnone : Quotes "null" (([] : List Site).map text) := trivial
      exact .cons hnone (ih h)
    | some code =>
      cases h with
      | cons first rest => exact .cons first (ih rest)

/-- Only arguments at the end that are missing are left out. -/
theorem arguments_split (args : List (Option String)) :
    ∃ kept missing, args = kept ++ missing ∧
      arguments args = kept.map (fun a => a.getD "null") ∧ missing.flatMap Option.toList = [] := by
  refine ⟨(args.reverse.dropWhile Option.isNone).reverse,
    (args.reverse.takeWhile Option.isNone).reverse, ?_, rfl, ?_⟩
  · rw [← List.reverse_append, List.takeWhile_append_dropWhile, List.reverse_reverse]
  · refine List.flatMap_eq_nil_iff.mpr fun a ha => ?_
    have hnone := List.all_eq_true.mp List.all_takeWhile a (List.mem_reverse.mp ha)
    rw [Option.isNone_iff_eq_none.mp hnone]
    rfl

/-- Arguments quote what each of them quotes. -/
theorem arguments_quote {args : List (Option String)}
    (h : q.HasEach (args.flatMap Option.toList) ss) : q.HasEach (arguments args) ss := by
  obtain ⟨kept, missing, rfl, hkept, hmissing⟩ := arguments_split args
  rw [List.flatMap_append, hmissing, List.append_nil] at h
  obtain ⟨qs, hc, hq⟩ := h
  rw [hkept]
  exact ⟨qs, hc, quotesEach_fill hq⟩

/-- An array quotes what its items quote. -/
theorem arrayLiteral_quotes (level : Nat) {items : List String} (h : q.HasEach items ss) :
    q.Has (arrayLiteral level items) ss := by
  unfold arrayLiteral
  split
  · rename_i hempty
    rw [List.isEmpty_iff.mp hempty] at h
    exact h.of_nil _
  · exact (h.lines (level + 1)).enclosed level (by decide) (by decide)

end Literals

/-! ## Steps -/

/-- What a step gives that succeeds inside the given loops. -/
def Returns {α : Type} (loops : List LoopInfo) (step : EmitCall α) (post : α → Prop) : Prop :=
  ∀ s s' a, s.locals = loops.flatMap LoopInfo.locals → step.run s = (.ok a, s') → post a

namespace Returns

variable {α β : Type} {loops : List LoopInfo} {post : α → Prop} {post' : β → Prop}

theorem pure {a : α} (h : post a) : Returns loops (pure a) post := by
  rintro s s' b - hr
  cases hr
  exact h

theorem throw (d : Diagnostic) : Returns loops (throw d) post := by
  rintro s s' b - hr
  cases hr

theorem imp {step : EmitCall α} {weaker : α → Prop} (h : Returns loops step post)
    (hw : ∀ a, post a → weaker a) : Returns loops step weaker :=
  fun s s' a hs hr => hw a (h s s' a hs hr)

/-- A step and what follows it return alike, if the step leaves the names that are bound. -/
theorem bind {x : EmitCall α} {f : α → EmitCall β} (hx : Returns loops x post) (hk : Unmoved x)
    (hf : ∀ a, post a → Returns loops (f a) post') : Returns loops (x >>= f) post' := by
  intro s s' b hs hr
  have hkept := hk s
  rcases h : x.run s with ⟨r, s₁⟩
  rw [h] at hkept
  cases r with
  | ok a =>
    rw [Emit.run_bind_ok h] at hr
    have hlocals : s₁.locals = s.locals := congrArg Prod.fst hkept
    exact hf a (hx s s₁ a hs h) s₁ s' b (hlocals.trans hs) hr
  | error d =>
    rw [Emit.run_bind_error h] at hr
    cases hr

/-- After a step whose result does not matter. -/
theorem after {x : EmitCall α} {f : α → EmitCall β} (hk : Unmoved x)
    (hf : ∀ a, Returns loops (f a) post') : Returns loops (x >>= f) post' := by
  have hx : Returns loops x fun _ => True := fun _ _ _ _ _ => trivial
  exact hx.bind hk fun a _ => hf a

/-- A step that reads the state. -/
theorem get {f : CallState → EmitCall β}
    (hf : ∀ s, s.locals = loops.flatMap LoopInfo.locals → Returns loops (f s) post') :
    Returns loops (get >>= f) post' :=
  fun s s' b hs hr => hf s hs s s' b hs hr

theorem deeper {step : EmitCall α} (h : Returns loops step post) :
    Returns loops (deeper step) post := by
  intro s s' a hs hr
  rcases hx : step.run { s with level := s.level + 1 } with ⟨r, s₁⟩
  obtain ⟨rfl, -⟩ := Prod.mk.inj ((Emit.run_within hx).symm.trans hr)
  exact h { s with level := s.level + 1 } s₁ a hs hx

/-- Inside one more loop. -/
theorem withLocals {step : EmitCall α} {info : LoopInfo}
    (h : Returns (loops ++ [info.unkeyed]) step post) :
    Returns loops (withLocals info.locals step) post := by
  intro s s' a hs hr
  rcases hx : step.run { s with locals := s.locals ++ info.locals } with ⟨r, s₁⟩
  obtain ⟨rfl, -⟩ := Prod.mk.inj ((Emit.run_within hx).symm.trans hr)
  refine h _ s₁ a ?_ hx
  rw [List.flatMap_append, List.flatMap_singleton, ← hs]
  rfl

end Returns

section Steps

variable {q : Quoting} {loops : List LoopInfo} {ss ss' : List Site}

/-- A call quotes what its arguments quote. -/
theorem call_quotes (callee : String) {args : List (Option String)}
    (h : q.HasEach (args.flatMap Option.toList) ss) :
    Returns loops (call callee args) (q.Has · ss) := by
  refine .after (imports_keeps surroundings_unit _) fun _ => .pure ?_
  exact .arguments callee (arguments_quote h)

/-- So does the call that makes a fragment. -/
theorem fragmentCall_quotes {children : String} (h : q.Has children ss) (flag : PatchFlag) :
    Returns loops (fragmentCall children flag) (q.Has · ss) := by
  refine .after (fragment_keeps surroundings_unit) fun tag => call_quotes _ ?_
  have hargs := (Quoting.HasEach.plain q [tag]).append
    ((Quoting.HasEach.singleton h).append (.plain q [flag.render]))
  rwa [List.nil_append, List.append_nil] at hargs

/-- An element quotes what its properties and then its children quote. -/
theorem constructElement_quotes (settings : CallSettings) (info : ElementInfo)
    {props : ElementProps} {children : Option String} (hp : q.HasEach props.literal.toList ss)
    (hc : q.HasEach children.toList ss') (flag : PatchFlag) (hoisted : Bool) :
    Returns loops (constructElement settings info props children flag hoisted)
      (q.Has · (ss ++ ss')) := by
  have construct (callee tag : String) (flag dynamic : Option String) :
      Returns loops (call callee [some tag, props.literal, children, flag, dynamic])
        (q.Has · (ss ++ ss')) := by
    refine call_quotes callee ?_
    have hargs := hp.append (hc.append (.plain q (flag.toList ++ (dynamic.toList ++ []))))
    rw [List.append_nil ss'] at hargs
    exact (Quoting.HasEach.plain q [tag]).append hargs
  unfold constructElement
  cases info.kind with
  | native => exact .after (.pure _) fun _ => construct _ _ _ _
  | component =>
    exact .after (component_keeps surroundings_unit settings _) fun _ => .after (.pure _)
      fun _ => construct _ _ _ _
  | fragment =>
    exact .after (fragment_keeps surroundings_unit) fun _ => .after (.pure _)
      fun _ => construct _ _ _ _

/-- A loop quotes its source and then what its child quotes. -/
theorem constructLoop_quotes {source child : String} (hs : q.Has source ss) (hc : q.Has child ss')
    (info : LoopInfo) (keyed : Bool) :
    Returns loops (constructLoop source info child keyed) (q.Has · (ss ++ ss')) := by
  refine .after (uses_keeps surroundings_unit _) fun _ => fragmentCall_quotes ?_ _
  exact .call _ (.cons hs (.singleton (hc.prepend _ (.of_closes (closes_append _ (by decide)) _))))

/-- The conditions and nodes of branches quote expressions. Only the last may have no condition. -/
inductive Arms (q : Quoting) : List (Option String × String) → List Site → Prop where
  | nil : Arms q [] []
  | otherwise {node : String} {ss : List Site} (h : q.Has node ss) : Arms q [(none, node)] ss
  | test {condition node : String} {arms : List (Option String × String)} {ss ss' ss'' : List Site}
      (hc : q.Has condition ss) (h : q.Has node ss') (rest : Arms q arms ss'') :
      Arms q ((some condition, node) :: arms) (ss ++ ss' ++ ss'')

/-- The tests of a chain, and what is constructed if all fail. -/
theorem Arms.split {arms : List (Option String × String)} (h : Arms q arms ss) :
    ∃ tested others, ss = tested ++ others ∧
      q.HasEach (arms.filterMap fun arm => arm.1.map fun c => c ++ " ? " ++ arm.2 ++ " : ") tested ∧
      match (arms.filter fun arm => arm.1.isNone).getLast? with
      | some (_, node) => q.Has node others
      | none => others = [] := by
  induction h with
  | nil => exact ⟨[], [], rfl, .plain q [], rfl⟩
  | otherwise h => exact ⟨[], _, rfl, .plain q [], h⟩
  | test hc h _ ih =>
    obtain ⟨tested, others, rfl, htests, hothers⟩ := ih
    refine ⟨_, others, (List.append_assoc _ tested others).symm, ?_, hothers⟩
    have htest := (hc.follow " ? " (.of_opens _ (by decide))).append h
      (.of_closes (closes_append _ (by decide)) _)
    exact .cons (htest.follow " : " (.of_opens _ (by decide))) htests

/-- A conditional quotes what its arms quote, one behind the other. -/
theorem conditional_quotes {arms : List (Option String × String)} (h : Arms q arms ss) :
    Returns loops (conditional arms) (q.Has · ss) := by
  obtain ⟨tested, others, rfl, htests, hothers⟩ := h.split
  have hcloses : ∀ code ∈ arms.filterMap fun arm => arm.1.map fun c => c ++ " ? " ++ arm.2 ++ " : ",
      closes code = true := by
    intro code hcode
    obtain ⟨arm, -, harm⟩ := List.mem_filterMap.mp hcode
    obtain ⟨c, -, rfl⟩ := Option.map_eq_some_iff.mp harm
    exact closes_append _ (by decide)
  unfold conditional
  dsimp only
  split
  · rename_i node hlast
    rw [hlast] at hothers
    exact .pure ((htests.join hcloses).append hothers (.join hcloses node))
  · rename_i hlast
    rw [hlast] at hothers
    obtain rfl : others = [] := hothers
    refine .after (call_keeps surroundings_unit _ _) fun alternate => .pure ?_
    exact (htests.join hcloses).append (.plain q alternate) (.join hcloses alternate)

end Steps

/-! ## Elements -/

section Elements

variable {complete : Prop} {loops : List LoopInfo} {names : List String}

/-- The code of bound properties, each put into a field. -/
theorem boundProps_quote (hn : names = loops.flatMap LoopInfo.locals) {f : String × String → String}
    (hf : ∀ name {value ss}, (Quoting.calls complete).Has value ss →
      (Quoting.calls complete).Has (f (name, value)) ss) (ds : List Directive) :
    (Quoting.calls complete).HasEach ((bindings ds).map fun b => f (boundProp names b))
      ((boundExpressions ds).map (⟨·, loops, false⟩)) := by
  unfold boundExpressions
  induction bindings ds with
  | nil => exact .plain _ []
  | cons b bs ih =>
    have hsite := Quoting.Has.site (.calls complete) ⟨b.expression, loops, false⟩
    rw [show (Quoting.calls complete).text _ = b.expression.render names by rw [hn]; rfl] at hsite
    rw [List.map_cons, List.filterMap_cons]
    cases hk : b.kind with
    | event => exact (Quoting.HasEach.plain _ [_]).append ih
    | prop =>
      rw [boundProp, hk]
      exact .cons (hf _ hsite) ih
    | html =>
      rw [boundProp, hk]
      exact .cons (hf _ hsite) ih

/-- The properties of an element quote the expressions bound at it. -/
theorem elementProps_quote (platform : Platform) (hn : names = loops.flatMap LoopInfo.locals)
    (info : ElementInfo) :
    (Quoting.calls complete).HasEach (elementProps platform names info).literal.toList
      ((boundExpressions info.directives).map (⟨·, loops, false⟩)) := by
  have hfields {f : String × String → String}
      (hf : ∀ name {value ss}, (Quoting.calls complete).Has value ss →
        (Quoting.calls complete).Has (f (name, value)) ss) :
      (Quoting.calls complete).HasEach
        ((inTextOrder
          ((info.attributes.map fun a =>
              (a.location.offset, a.name, (a.value.map Code.literal).getD "true")) ++
            (bindings info.directives).map fun b => (b.location.offset, boundProp names b))).map f)
        ((boundExpressions info.directives).map (⟨·, loops, false⟩)) := by
    refine .perm (((List.mergeSort_perm _ _).symm.map Prod.snd).map f) ?_
    rw [List.map_map, List.map_append, List.map_map, List.map_map]
    exact (Quoting.HasEach.plain _ _).append (boundProps_quote hn hf info.directives)
  unfold elementProps
  dsimp only
  split
  · rename_i hempty
    have h := hfields (f := Prod.snd) fun _ _ _ h => h
    rwa [List.isEmpty_iff.mp hempty] at h
  · split
    · have hpairs := hfields (f := fun p => "[" ++ Code.literal p.1 ++ ", " ++ p.2 ++ "]")
        fun name _ _ h => by
          have hcomma : closes ("[" ++ Code.literal name ++ ", ") = true :=
            closes_append _ (by decide)
          exact (h.prepend _ (.of_closes hcomma _)).follow _ (.of_opens _ (by decide))
      have hlist := hpairs.intercalate ", " (by decide) (by decide)
      exact .singleton ((hlist.prepend _ (.of_closes (by decide) _)).follow _
        (.of_opens _ (by decide)))
    · refine .singleton (.inlineObject (hfields fun _ _ _ h => ?_))
      exact h.prepend _ (.of_closes (closes_append _ (by decide)) _)

end Elements

/-! ## Nodes -/

/-- What the keys in a node stand for to which the code of calls refers. -/
def Leads (context : BindingContext) : Node → Prop
  | .interpolation e key _ => key.bind context.thunk? = some (.display e)
  | .slot info _ => ∃ outlet : OutletCall, outlet.props = info.props ∧
      info.keys.outlet.bind context.thunk? = some (.outlet outlet)
  | _ => True

/-- What makes the code of a node have all that is in it. -/
structure Sound (context : BindingContext) (n : Node) : Prop where
  leads : Leads context n
  single : n.IsSingle
  ordered : n.IsOrdered
  still : n.IsStill

/-- The expressions that a strict run quotes are all there are. -/
abbrev quoting (settings : CallSettings) : Quoting :=
  .calls (settings.tolerant = false)

section Nodes

variable (settings : CallSettings) {loops : List LoopInfo} {ss : List Site}

theorem display_quotes {e : Expression} {key : Option Key}
    (h : key.bind settings.context.thunk? = some (.display e)) :
    Returns loops (display settings e key) ((quoting settings).Has · [⟨e, loops, false⟩]) := by
  refine .after (uses_keeps surroundings_unit _) fun _ => .get fun s hs => ?_
  rw [h]
  dsimp only
  rw [hs]
  exact .pure (.call _ (.singleton (.site _ ⟨e, loops, false⟩)))

/-- Text quotes its interpolations. -/
theorem textParts_quote {ns : List Node} (ht : ns.all Node.isTextLike)
    (h : ∀ m ∈ Node.withinAll ns, Sound settings.context m) :
    Returns loops (textParts settings ns) fun parts =>
      (quoting settings).HasEach parts.1 (Node.sitesAll loops ns) := by
  induction ns with
  | nil => exact .pure (.plain _ [])
  | cons n ns ih =>
    obtain ⟨hn, hrest⟩ := List.forall_mem_append.mp h
    rw [List.all_cons, Bool.and_eq_true] at ht
    cases n with
    | interpolation e key l =>
      have hkey := (hn _ List.mem_cons_self).leads
      refine .bind (display_quotes settings hkey) (display_keeps surroundings_unit settings e key)
        fun code hcode => ?_
      exact (ih ht.2 hrest).bind (textParts_keeps surroundings_unit settings ns)
        fun more hmore => .pure (.cons hcode hmore)
    | text value l =>
      refine (ih ht.2 hrest).bind (textParts_keeps surroundings_unit settings ns)
        fun more hmore => ?_
      exact .pure ((Quoting.HasEach.plain _ [Code.literal value]).append hmore)
    | _ => cases ht.1

/-- An outlet has the properties of its slot. -/
theorem outletOf_returns {info : SlotInfo} {fallback : List Node}
    (h : Leads settings.context (.slot info fallback)) (path : Path) :
    Returns loops (outletOf settings info path) fun outlet => outlet.props = info.props := by
  obtain ⟨outlet, hprops, hkey⟩ := h
  unfold outletOf
  rw [hkey]
  exact .pure hprops

/-- The code of an element quotes what is bound at it and what its children quote. -/
theorem elementCode_quotes (path : Path) (info : ElementInfo) {children : List Node}
    (h : ∀ m ∈ Node.withinAll children, Sound settings.context m) {c : EmitCall (List String)}
    (hc : Returns loops c ((quoting settings).HasEach · (Node.sitesAll loops children)))
    (hk : Unmoved c) (hoisted : Bool) :
    Returns loops (elementCode settings path info children c hoisted)
      ((quoting settings).Has · ((Node.element info children).sites loops)) := by
  unfold elementCode
  by_cases hh : (hasHtml info && !children.isEmpty) = true
  · rw [if_pos hh]
    exact .throw _
  · rw [if_neg hh]
    refine .get fun s hs => ?_
    -- However the children are written, the element adds its own properties around them.
    have construct {items : Option String} (flag : PatchFlag)
        (hi : (quoting settings).HasEach items.toList (Node.sitesAll loops children)) :
        Returns loops
          (constructElement settings info (elementProps settings.platform s.locals info) items flag
            hoisted)
          ((quoting settings).Has · ((Node.element info children).sites loops)) :=
      constructElement_quotes settings info (elementProps_quote settings.platform hs info) hi flag
        hoisted
    have hitems (f : String → String) (flag : PatchFlag)
        (hf : ∀ {code ss}, (quoting settings).Has code ss → (quoting settings).Has (f code) ss) :
        Returns loops (deeper c >>= fun items =>
            constructElement settings info (elementProps settings.platform s.locals info)
              (some (f (arrayLiteral s.level items))) flag hoisted)
          ((quoting settings).Has · ((Node.element info children).sites loops)) :=
      hc.deeper.bind (deeper_unmoved hk) fun items h =>
        construct flag (.singleton (hf (arrayLiteral_quotes s.level h)))
    have hempty (he : children.isEmpty) : (quoting settings).HasEach (none : Option String).toList
        (Node.sitesAll loops children) := by
      rw [List.isEmpty_iff.mp he]
      exact .plain _ []
    cases info.kind with
    | native =>
      dsimp only
      split
      · rename_i htext
        have hall := (Bool.and_eq_true_iff.mp htext).2
        refine .bind (textParts_quote settings hall h)
          (textParts_keeps surroundings_unit settings children) fun parts hparts => ?_
        exact construct _ (.singleton (hparts.intercalate " + " (by decide) (by decide)))
      · split
        · rename_i he
          exact construct _ (hempty he)
        · exact hitems (fun code => code) _ fun h => h
    | component =>
      dsimp only
      split
      · rename_i he
        exact construct _ (hempty he)
      · exact hitems (fun code => "\x7b default: () => " ++ code ++ " \x7d") _
            fun h => (h.prepend _ (.of_closes (by decide) _)).follow _ (.of_opens _ (by decide))
    | fragment => exact hitems (fun code => code) _ fun h => h

/-- So it does where static elements are hoisted. -/
theorem elementOrHoisted_quotes (path : Path) {info : ElementInfo} {children : List Node}
    (h : ∀ m ∈ (Node.element info children).within, Sound settings.context m)
    {c : EmitCall (List String)}
    (hc : Returns loops c ((quoting settings).HasEach · (Node.sitesAll loops children)))
    (hk : Unmoved c) :
    Returns loops (elementOrHoisted settings path info children c)
      ((quoting settings).Has · ((Node.element info children).sites loops)) := by
  obtain ⟨hn, hbelow⟩ := List.forall_mem_cons.mp h
  refine .after (Emit.checkDirectives_keeps _ _) fun _ => .get fun s _ => ?_
  split
  · -- What is hoisted is static, so that its name stands for no expression.
    rename_i hcond
    simp only [Bool.and_eq_true] at hcond
    rw [hn.still hcond.1.2 loops]
    refine .after (aside_unmoved (elementCode_unmoved settings path info children true hk))
      fun code => ?_
    exact .imp (fun _ _ _ _ _ => trivial) fun name (_ : True) => .plain _ name
  · exact elementCode_quotes settings path info hbelow hc hk false

/-- The code of a slot quotes what is passed to its outlet and what the fallback quotes. -/
theorem slotCode_quotes (path : Path) {info : SlotInfo} {fallback : List Node}
    (h : Leads settings.context (.slot info fallback)) {f : EmitCall String}
    {c : EmitCall (List String)}
    (hf : fallback.length = 1 →
      Returns loops f ((quoting settings).Has · (Node.sitesAll loops fallback)))
    (hc : Returns loops c ((quoting settings).HasEach · (Node.sitesAll loops fallback)))
    (hkf : Unmoved f) (hkc : Unmoved c) :
    Returns loops (slotCode settings path info fallback.length f c)
      ((quoting settings).Has · ((Node.slot info fallback).sites loops)) := by
  refine .after (Emit.checkDirectives_keeps _ _) fun _ => ?_
  refine .bind (outletOf_returns settings h path) (outletOf_keeps settings info path)
    fun outlet hprops => .after (uses_keeps surroundings_unit _) fun _ => .get fun s hs => ?_
  have hcode : (quoting settings).Has (outlet.render s.locals) (info.sites loops) :=
    .outletCall (fun e => by rw [hs]; rfl) hprops
  dsimp only
  split
  · rename_i hnone
    rw [Node.sites, List.eq_nil_of_length_eq_zero hnone]
    rw [Node.sitesAll, List.append_nil]
    exact .pure hcode
  · split
    · rename_i hone
      exact (hf hone).bind hkf fun fallback hfallback =>
        .pure (hcode.coalesce hfallback)
    · refine hc.deeper.bind (deeper_unmoved hkc) fun items hitems => ?_
      refine .bind (fragmentCall_quotes (arrayLiteral_quotes s.level hitems) _)
        (fragmentCall_keeps surroundings_unit _ _) fun fallback hfallback => ?_
      exact .pure (hcode.coalesce hfallback)

/-- The code of a child, if there is one. A child that is left out was tolerated. -/
theorem Returns.handle {step : EmitCall String}
    (h : Returns loops step ((quoting settings).Has · ss)) :
    Returns loops (Emit.handle settings.tolerant note step)
      fun code => (quoting settings).HasEach code.toList ss := by
  intro s s' code hs hr
  rcases hx : step.run s with ⟨r, s₁⟩
  unfold Emit.handle at hr
  rw [Emit.run_bind_ok (Emit.run_attempt hx)] at hr
  cases r with
  | ok a =>
    cases hr
    exact .singleton (h s _ a hs hx)
  | error d =>
    cases ht : settings.tolerant with
    | false =>
      rw [ht] at hr
      cases hr
    | true =>
      rw [ht] at hr
      cases hr
      refine ⟨[], ⟨List.nil_subperm, fun hf => ?_⟩, .nil⟩
      rw [ht] at hf
      cases hf

mutual

/-- The code of a node has the texts of the expressions in it. -/
theorem emit_quotes (loops : List LoopInfo) (path : Path) (n : Node)
    (h : ∀ m ∈ n.within, Sound settings.context m) :
    Returns loops (emit settings path n) ((quoting settings).Has · (n.sites loops)) := by
  match n with
  | .element info children =>
    rw [emit]
    exact elementOrHoisted_quotes settings path h
      (emitAll_quotes loops path 0 children (List.forall_mem_cons.mp h).2)
      (emitAll_keeps settings path 0 children)
  | .text value l =>
    rw [emit]
    exact call_quotes _ (.plain _ _)
  | .interpolation e key l =>
    rw [emit]
    refine .bind (display_quotes settings (List.forall_mem_singleton.mp h).leads)
      (display_keeps surroundings_unit settings e key) fun code hcode => call_quotes _ ?_
    exact (Quoting.HasEach.singleton hcode).append (.plain _ [PatchFlag.text.render])
  | .slot info fallback =>
    obtain ⟨hn, hbelow⟩ := List.forall_mem_cons.mp h
    rw [emit]
    refine slotCode_quotes settings path hn.leads (fun hone => ?_)
      (emitAll_quotes loops path 0 fallback hbelow) (emitFirst_keeps settings path fallback)
      (emitAll_keeps settings path 0 fallback)
    exact emitFirst_quotes loops path fallback hone hbelow
  | .chain branches key l =>
    obtain ⟨hn, hbelow⟩ := List.forall_mem_cons.mp h
    rw [emit]
    refine (emitBranches_quote loops path 0 branches hn.single hn.ordered hbelow).bind
      (emitBranches_keeps settings path 0 branches) fun arms harms => ?_
    exact conditional_quotes harms
  | .loop info children =>
    obtain ⟨hn, hbelow⟩ := List.forall_mem_cons.mp h
    obtain ⟨child, hchild⟩ := hn.single
    have hone : children.length = 1 := congrArg List.length hchild
    rw [emit]
    refine .get fun s hs => ?_
    refine (emitFirst_quotes _ path children hone hbelow).withLocals.bind
      (withLocals_unmoved _ (emitFirst_keeps settings path children)) fun code hcode => ?_
    have hsource : (quoting settings).Has (info.source.render s.locals)
        [⟨info.source, loops, false⟩] := by
      rw [hs]
      exact .site _ ⟨info.source, loops, false⟩
    exact constructLoop_quotes hsource hcode info _
  | .comment value l =>
    rw [emit]
    exact call_quotes _ (.plain _ _)

/-- A single child quotes what its node does. -/
theorem emitFirst_quotes (loops : List LoopInfo) (path : Path) (ns : List Node)
    (hone : ns.length = 1) (h : ∀ m ∈ Node.withinAll ns, Sound settings.context m) :
    Returns loops (emitFirst settings path ns)
      ((quoting settings).Has · (Node.sitesAll loops ns)) := by
  match ns with
  | [n] =>
    rw [emitFirst, Node.sitesAll, Node.sitesAll, List.append_nil]
    exact emit_quotes loops _ n (List.forall_mem_append.mp h).1

/-- The code of nodes has the texts of the expressions in them. -/
theorem emitAll_quotes (loops : List LoopInfo) (parent : Path) (index : Nat) (ns : List Node)
    (h : ∀ m ∈ Node.withinAll ns, Sound settings.context m) :
    Returns loops (emitAll settings parent index ns)
      ((quoting settings).HasEach · (Node.sitesAll loops ns)) := by
  match ns with
  | [] =>
    rw [emitAll]
    exact .pure (.plain _ [])
  | n :: rest =>
    obtain ⟨hn, hrest⟩ := List.forall_mem_append.mp h
    rw [emitAll_cons]
    refine (Returns.handle settings (emit_quotes loops _ n hn)).bind
      (emitChild_keeps settings (parent.child index) n) fun code hcode => ?_
    exact (emitAll_quotes loops parent (index + 1) rest hrest).bind
      (emitAll_keeps settings parent (index + 1) rest) fun more hmore =>
        .pure (hcode.append hmore)

/-- The branches of a chain quote their conditions and what their children quote. -/
theorem emitBranches_quote (loops : List LoopInfo) (parent : Path) (index : Nat) (bs : List Branch)
    (hs : ∀ b ∈ bs, ∃ n, b.children = [n] ∧ n.isComment = false)
    (ho : ∀ c ∈ (bs.map fun b => b.info.condition).dropLast, c ≠ none)
    (h : ∀ m ∈ Branch.withinAll bs, Sound settings.context m) :
    Returns loops (emitBranches settings parent index bs)
      (Arms (quoting settings) · (Branch.sitesAll loops bs)) := by
  match bs with
  | [] =>
    rw [emitBranches]
    exact .pure .nil
  | .mk info [] :: rest =>
    obtain ⟨⟨n, hn, -⟩, -⟩ := List.forall_mem_cons.mp hs
    cases hn
  | .mk info (n :: more) :: rest =>
    obtain ⟨⟨m, hm, -⟩, hsingle⟩ := List.forall_mem_cons.mp hs
    obtain rfl : more = [] := (List.cons.inj hm).2
    obtain ⟨hfirst, hbelow⟩ := List.forall_mem_append.mp h
    have hnode := emit_quotes loops ((parent.child index).child 0) n
      (List.forall_mem_append.mp hfirst).1
    rw [emitBranches, Branch.sitesAll, Node.sitesAll, Node.sitesAll, List.append_nil]
    refine hnode.bind (emit_keeps settings _ n) fun code hcode => .get fun s hlocals => ?_
    cases hc : info.condition with
    | none =>
      -- A branch without a condition is the last one.
      obtain rfl : rest = [] := by
        cases rest with
        | nil => rfl
        | cons b rest => exact absurd hc (ho _ List.mem_cons_self)
      rw [emitBranches, Branch.sitesAll, List.append_nil]
      exact .pure (.otherwise hcode)
    | some e =>
      have hordered : ∀ c ∈ (rest.map fun b => b.info.condition).dropLast, c ≠ none := by
        cases rest with
        | nil => exact fun c hc => absurd hc List.not_mem_nil
        | cons b rest => exact fun c hc => ho c (List.mem_cons_of_mem _ hc)
      refine (emitBranches_quote loops parent (index + 1) rest hsingle hordered hbelow).bind
        (emitBranches_keeps settings parent (index + 1) rest) fun more hmore => .pure ?_
      refine .test ?_ hcode hmore
      rw [hlocals]
      exact .site (quoting settings) ⟨e, loops, true⟩

end

/-- The root quotes what all nodes do. -/
theorem emitRoots_quotes (nodes : List Node)
    (h : ∀ n ∈ Node.withinAll nodes, Sound settings.context n) :
    Returns [] (emitRoots settings nodes) ((quoting settings).Has · (Template.sites nodes)) := by
  unfold emitRoots
  split
  · refine .get fun s _ => ?_
    refine (emitAll_quotes settings [] [] 0 nodes h).deeper.bind
      (deeper_unmoved (emitAll_keeps settings [] 0 nodes)) fun items hitems => ?_
    exact fragmentCall_quotes (arrayLiteral_quotes s.level hitems) _
  · rename_i hfew
    match nodes with
    | [] =>
      rw [emitAll]
      exact .pure (.plain _ _)
    | [n] =>
      rw [emitAll_cons, emitAll, bind_assoc]
      have hn := Returns.handle settings (emit_quotes settings [] (Path.child [] 0) n
        (List.forall_mem_append.mp h).1)
      refine hn.bind (emitChild_keeps settings _ n) fun code hcode => ?_
      rw [Template.sites, Node.sitesAll, Node.sitesAll, List.append_nil]
      have hroot := hcode.of_option "null"
      cases code with
      | none => exact .pure hroot
      | some code => exact .pure hroot
    | _ :: _ :: _ => exact absurd (by simp) hfew

/-- The code of a template quotes the expressions of all nodes, in their order. -/
theorem generate_quoting {nodes : List Node} {unit : RenderUnit} {errors : List Diagnostic}
    (h : ∀ n ∈ Node.withinAll nodes, Sound settings.context n)
    (hg : generate settings nodes = .ok (unit, errors)) :
    (quoting settings).Has unit.root (Template.sites nodes) := by
  rcases hr : (emitRoots settings nodes).run {} with ⟨r, s⟩
  unfold generate at hg
  rw [hr] at hg
  cases r with
  | error d => cases hg
  | ok root =>
    cases hg
    exact emitRoots_quotes settings nodes h {} s root rfl hr

/-- The code of a template has the texts of its expressions; of all of them, if no fault was
tolerated. -/
theorem generate_quotes {nodes : List Node} {unit : RenderUnit} {errors : List Diagnostic}
    (h : ∀ n ∈ Node.withinAll nodes, Sound settings.context n)
    (hg : generate settings nodes = .ok (unit, errors)) :
    (Quoting.calls (errors = [])).Has unit.root (Template.sites nodes) := by
  by_cases he : errors = []
  · -- Where nothing was tolerated, a strict run gives the same.
    have hstrict : generate (settings.tolerating false) nodes = .ok (unit, errors) := by
      cases ht : settings.tolerant with
      | false => rwa [CallSettings.tolerating, ← ht]
      | true =>
        have hsame : settings.tolerating true = settings := by rw [CallSettings.tolerating, ← ht]
        obtain ⟨r, hr, ⟨hs, -⟩ | ⟨d, -, hd⟩⟩ := generate_tolerated settings nodes
        · rw [hsame, hg] at hr
          rwa [hr]
        · rw [hsame, hg] at hr
          cases hr
          rw [he] at hd
          cases List.prefix_nil.mp hd
    exact (generate_quoting (settings.tolerating false) h hstrict).of_complete fun _ => rfl
  · exact (generate_quoting settings h hg).of_complete fun h => absurd h he

end Nodes

end Calls

end UiTemplate
