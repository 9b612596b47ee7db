import UiTemplate.Proofs.Backend.References
import UiTemplate.Proofs.Binding.Numbering
import UiTemplate.Proofs.Compile.Given
import UiTemplate.Proofs.Expression.PlainName
import UiTemplate.Proofs.Expression.Property

/-!
# Tests of outlets

Before the fallback of a slot is rendered, markup tests whether the outlet of the slot has content.

- `Expression.TestsOutlet e name`: the expression reads `name` off the outlets of the rendering
  context, and holds exactly where the runtime finds an outlet of that name.
- `Template.annotate_presence`: the test of a slot whose outlet has a fixed name is such an
  expression, unless a character of the name does not stand for itself in quotes.
- `Template.not_annotate_presence`: with one of these characters in the name, it is not.
-/

namespace UiTemplate

open Text Script

/-! ## Members of the outlets -/

namespace Expression

/-- The variable that holds the outlets. -/
def outletsVariable : VariableName :=
  ⟨"$slots", by decide⟩

/-- The variable before what ends a word. -/
theorem spells_outlets {cs : List Char} {us : List Token} (hends : EndsWord cs)
    (h : Spells cs us []) :
    Spells ("$slots".toList ++ cs) ((Phrase.name outletsVariable).tokens ++ us) [] :=
  spells_word (show isWordText ['$', 's', 'l', 'o', 't', 's'] = true by decide +kernel) hends h

theorem written_member {name : String} (h : Code.isPlainName name.toList = true) :
    Written ("$slots." ++ name).toList (Phrase.member (.name outletsVariable) name).tokens where
  head := ⟨'$', "slots.".toList ++ name.toList, String.toList_append, by decide⟩
  last := by
    have hne : name.toList ≠ [] := fun hnil => by
      rw [hnil] at h
      exact nomatch h
    have hlast := Code.isPlain_of_isPlainName h _ (List.getLast_mem hne)
    refine ⟨"$slots.".toList ++ name.toList.dropLast, name.toList.getLast hne, ?_,
      LoopHead.isBlank_eq_false_of_isNamePart (Code.isPlain_part hlast).1⟩
    rw [List.append_assoc, List.dropLast_append_getLast, String.toList_append]
  spells tail us hends hus := by
    have hword := Code.isWordText_of_isPlainName h
    have hname := spells_word hword (endsWord_of_endsTokens hends) hus
    have hdot : Spells ('.' :: (name.toList ++ tail)) (.punct .dot :: .word name false :: us)
        [] := by
      rw [String.ofList_toList] at hname
      cases hcs : name.toList with
      | nil =>
        rw [hcs] at h
        exact nomatch h
      | cons c cs =>
        rw [hcs] at hname h
        rw [Code.isPlainName, Bool.and_eq_true] at h
        refine spells_dot (LoopHead.isNameStart_begins (c := c) h.1).2.2.1 ?_ hname
        rintro rfl
        exact absurd h.1 (by decide)
    rw [String.toList_append, List.append_assoc, Phrase.tokens, List.append_assoc]
    exact spells_outlets (endsWord_cons (by decide +kernel) (by decide)) hdot

theorem written_index {name : String} (h : name.toList.all (Script.isBare '\'') = true) :
    Written ("$slots['" ++ name ++ "']").toList
      (Phrase.index (.name outletsVariable) (.str name)).tokens where
  head := ⟨'$', "slots['".toList ++ (name.toList ++ "']".toList), by simp, by decide⟩
  last := ⟨"$slots['".toList ++ (name.toList ++ ['\'']), ']', by simp, by decide⟩
  spells tail us hends hus := by
    have hbracket : Spells (']' :: tail) (.punct .rightBracket :: us) [] :=
      spells_char (fun _ => rfl) hus
    have hname := spells_str (.inr rfl) h hbracket
    rw [String.ofList_toList] at hname
    have hindex : Spells ('[' :: '\'' :: (name.toList ++ '\'' :: ']' :: tail))
        (.punct .leftBracket :: .str name :: .punct .rightBracket :: us) [] :=
      spells_char (fun _ => rfl) hname
    have htext := spells_outlets (endsWord_cons (by decide +kernel) (by decide)) hindex
    simpa [Phrase.tokens] using htext

/-! ## Outlets in a context -/

/-- What a rendering context gives as outlets. -/
def outlets (context : Json) : Json :=
  (context.get? "$slots").getD .null

/-- The expression reads a name off the outlets of the rendering context. It has a value unless there
are no outlets, and it holds exactly where the runtime finds an outlet of that name, provided that
the outlets are not given as an array or a text. -/
structure TestsOutlet (e : Expression) (name : String) : Prop where
  tree : e.tree = .member (.ident "$slots") (.str name)
  defined : ∀ context, outlets context ≠ .null → ∃ v, e.tree.eval (.ofContext context) = .ok v
  finds : ∀ context props, items? (outlets context) = none →
    ((∃ v, e.tree.eval (.ofContext context) = .ok v ∧ v.isTruthy = true) ↔
      Helper.outletFor (outlets context) name props none ≠ .null)

theorem eval_outlet (context : Json) (name : String) :
    Expr.eval (.ofContext context) (.member (.ident "$slots") (.str name)) =
      property (outlets context) (.str name) := rfl

theorem property_defined {v : Json} (hv : v ≠ .null) (key : Json) :
    ∃ w, property v key = .ok w := by
  cases v with
  | null => exact absurd rfl hv
  | arr items =>
    rw [property]
    split <;> exact ⟨_, rfl⟩
  | str s =>
    rw [property]
    split <;> exact ⟨_, rfl⟩
  | _ => exact ⟨_, rfl⟩

theorem outletFor_ne_null {slots : Json} {name : String} {props : Json} :
    Helper.outletFor slots name props none ≠ .null ↔ Helper.isProvided slots name = true := by
  simp only [Helper.outletFor, Bool.or_self]
  split
  · exact iff_of_true (by rw [Json.ofFields]; simp) ‹_›
  · exact iff_of_false (fun h => h rfl) ‹_›

theorem property_isTruthy {slots : Json} (hslots : items? slots = none) (name : String) :
    (∃ v, property slots (.str name) = .ok v ∧ v.isTruthy = true) ↔
      Helper.isProvided slots name = true := by
  have hread {v : Json} : (∃ w, Except.ok v = (.ok w : Except EvalError Json) ∧
      w.isTruthy = true) ↔ v.isTruthy = true :=
    ⟨fun ⟨_, hw, htruthy⟩ => Except.ok.inj hw ▸ htruthy, fun h => ⟨v, rfl, h⟩⟩
  cases slots with
  | null =>
    refine iff_of_false ?_ (by simp [Helper.isProvided, Json.get?])
    rintro ⟨v, h, -⟩
    cases h
  | arr items => cases hslots
  | str s => cases hslots
  | obj entries =>
    rw [property, hread, Helper.isProvided, Json.get?]
    show ((Json.lookup name entries).getD .null).isTruthy = true ↔ _
    cases Json.lookup name entries <;> rfl
  | _ =>
    refine hread.trans (iff_of_false ?_ ?_)
    · simp [Json.isTruthy]
    · simp [Helper.isProvided, Json.get?]

theorem TestsOutlet.of_tree {e : Expression} {name : String}
    (h : e.tree = .member (.ident "$slots") (.str name)) : e.TestsOutlet name where
  tree := h
  defined context hcontext := by
    rw [h, eval_outlet]
    exact property_defined hcontext _
  finds context props hslots := by
    rw [h, eval_outlet, property_isTruthy hslots, outletFor_ne_null]

end Expression

/-! ## Tests of slots -/

/-- A slot outside loops whose outlet has a fixed name has no keys in markup if it passes nothing to
the outlet. -/
theorem SlotKeys.IsGiven.eq_empty {info : SlotInfo} (h : info.keys.IsGiven .markup info)
    {r : Resolution} (hr : info.resolution = some r) {name : String} (hname : r.base = .fixed name)
    (hloops : r.loopPath = []) (hprops : info.hasProps = false) : info.keys = {} := by
  have hiterated : r.isIterated = false := by
    rw [Resolution.isIterated, hloops]
    rfl
  have hnone : info.props = [] := by
    rw [SlotInfo.hasProps, Bool.or_eq_false_iff] at hprops
    simp_all [SlotInfo.props]
  have hidentity : info.identity? .markup = none := by
    simp [SlotInfo.identity?, hr, hname, hiterated]
  have houtlet : info.outlet? .markup = none := by
    rw [SlotInfo.outlet?_markup hr, hiterated, hnone]
    rfl
  have hkey : info.keys.name = none := by simpa [hidentity] using h.name
  have houtletKey : info.keys.outlet = none := by simpa [houtlet] using h.outlet
  exact congrArg₂ SlotKeys.mk hkey houtletKey

namespace Markup

open Expression

/-- The test of a slot without keys. -/
theorem treeOf?_presence {info : SlotInfo} {name : String} (hkeys : info.keys = {})
    (hname : name.toList.all (Script.isBare '\'') = true) (scope : List String) :
    treeOf? (presence scope info (.fixed name)) =
      some (.member (.ident "$slots") (.str name)) := by
  have hpresence : presence scope info (.fixed name) =
      if Code.fieldKey name = name then "$slots." ++ name else "$slots['" ++ name ++ "']" := by
    unfold presence
    rw [hkeys]
  rw [hpresence]
  split
  · exact treeOf?_of_written rfl (written_member (Code.fieldKey_eq_self.mp ‹_›))
  · exact treeOf?_of_written rfl (written_index hname)

end Markup

/-- Where markup is emitted, a slot with a fallback is rendered in two branches. Outside loops and
without anything passed to the outlet, the test between them asks for the outlet of the slot, if the
name of the outlet is fixed and has neither a single quote nor a backslash nor the end of a line. -/
theorem Template.annotate_presence {options : ParseOptions} {source : String} {nodes : List Node}
    {platform : Platform} (h : Template.parse options source = .ok nodes)
    (hmarkup : platform.family = .markup) {info : SlotInfo} {fallback : List Node}
    (hslot : Node.slot info fallback ∈
      Node.withinAll (Template.annotate platform.capabilities nodes).nodes)
    (hfallback : fallback ≠ []) (hprops : info.hasProps = false) :
    ∃ r, info.resolution = some r ∧ r.fallback = .dualBranch ∧
      ∀ name, r.base = .fixed name → r.loopPath = [] →
        (∀ c ∈ name.toList, Script.isBare '\'' c = true) → ∀ scope,
          ∃ e, Expression.parse (Markup.presence scope info r.base) = .ok e ∧
            e.TestsOutlet name := by
  have hc : platform.capabilities = Family.markup.capabilities := by
    rw [Platform.capabilities, hmarkup]
  rw [hc] at hslot
  obtain ⟨hgiven, r, hr, hpolicy⟩ := Template.annotate_isAnnotated h _ _ hslot
  refine ⟨r, hr, ?_, fun name hname hloops hbare scope => ?_⟩
  · rw [hpolicy, Outlet.policyFor, if_neg (by simpa using hfallback)]
    rfl
  · have hkeys := SlotKeys.IsGiven.eq_empty hgiven hr hname hloops hprops
    have htree := Markup.treeOf?_presence hkeys (List.all_eq_true.mpr hbare) scope
    obtain ⟨e, hparse, htree⟩ := Expression.treeOf?_eq_some.mp htree
    rw [hname]
    exact ⟨e, hparse, .of_tree htree⟩

/-! ## Names that are not tested -/

/-- The template has a slot with a fallback outside loops that passes nothing to its outlet, whose
name is fixed. In markup `test` is tested for it. -/
def Template.IsTested (source name test : String) : Prop :=
  ∃ nodes info fallback r, Template.parse { platform := .weixin } source = .ok nodes ∧
    Node.slot info fallback ∈
      Node.withinAll (Template.annotate Platform.weixin.capabilities nodes).nodes ∧
    fallback ≠ [] ∧ info.hasProps = false ∧ info.resolution = some r ∧ r.base = .fixed name ∧
    r.loopPath = [] ∧ Markup.presence [] info r.base = test

/-- The name and the test of a node that is such a slot. -/
def Node.test? : Node → Option (String × String)
  | .slot info (_ :: _) => do
    let r ← info.resolution
    let name ← r.base.fixed?
    if info.hasProps = false ∧ r.loopPath = [] then some (name, Markup.presence [] info r.base)
    else none
  | _ => none

/-- The name and the test of the first such slot in a template. -/
def Template.test? (source : String) : Option (String × String) := do
  let nodes ← (Template.parse { platform := .weixin } source).toOption
  (Node.withinAll (Template.annotate Platform.weixin.capabilities nodes).nodes).findSome? Node.test?

theorem Template.isTested_of_test? {source name test : String}
    (h : Template.test? source = some (name, test)) : Template.IsTested source name test := by
  obtain ⟨nodes, hnodes, h⟩ := Option.bind_eq_some_iff.mp h
  obtain ⟨n, hn, h⟩ := List.exists_of_findSome?_eq_some h
  unfold Node.test? at h
  split at h
  · rename_i info first rest
    obtain ⟨r, hr, h⟩ := Option.bind_eq_some_iff.mp h
    obtain ⟨name', hname, h⟩ := Option.bind_eq_some_iff.mp h
    obtain ⟨⟨hprops, hloops⟩, ⟨⟩⟩ := Option.ite_none_right_eq_some.mp h
    have hbase : r.base = .fixed name := by
      cases hb : r.base with
      | fixed n =>
        rw [hb] at hname
        cases hname
        rfl
      | computed e =>
        rw [hb] at hname
        cases hname
    exact ⟨nodes, info, first :: rest, r, Except.toOption_eq_some.mp hnodes, hn,
      List.cons_ne_nil _ _, hprops, hr, hbase, hloops, rfl⟩
  · cases h

/-- A name that is no field is quoted in the test. -/
theorem Template.annotate_presence_quoted :
    Template.IsTested "<slot name=\"a-b\">x</slot>" "a-b" "$slots['a-b']" ∧
      ∃ e, Expression.parse "$slots['a-b']" = .ok e ∧ e.TestsOutlet "a-b" := by
  have htested : Template.IsTested "<slot name=\"a-b\">x</slot>" "a-b" "$slots['a-b']" :=
    isTested_of_test? (by decide +kernel)
  refine ⟨htested, ?_⟩
  obtain ⟨nodes, info, fallback, r, hparse, hslot, hfallback, hprops, hr, hname, hloops, htest⟩ :=
    htested
  obtain ⟨r', hr', -, hpresence⟩ :=
    Template.annotate_presence hparse (show Platform.weixin.family = .markup from rfl) hslot
      hfallback hprops
  obtain rfl : r = r' := Option.some.inj (hr.symm.trans hr')
  have hbare : ['a', '-', 'b'].all (Script.isBare '\'') = true := by decide
  rw [← htest]
  exact hpresence "a-b" hname hloops (List.all_eq_true.mp hbare) []

/-- With a quote or a line end in its name, what is tested is no expression, and with a backslash it
asks for another outlet. -/
theorem Template.not_annotate_presence :
    (Template.IsTested "<slot name=\"it's\">x</slot>" "it's" "$slots['it's']" ∧
      Expression.treeOf? "$slots['it's']" = none) ∧
    (Template.IsTested "<slot name=\"a\nb\">x</slot>" "a\nb" "$slots['a\nb']" ∧
      Expression.treeOf? "$slots['a\nb']" = none) ∧
    (Template.IsTested "<slot name=\"a\rb\">x</slot>" "a\rb" "$slots['a\rb']" ∧
      Expression.treeOf? "$slots['a\rb']" = none) ∧
    (Template.IsTested "<slot name=\"a\\b\">x</slot>" "a\\b" "$slots['a\\b']" ∧
      Expression.treeOf? "$slots['a\\b']" = some (.member (.ident "$slots") (.str "a\x08"))) := by
  refine ⟨⟨isTested_of_test? (by decide +kernel), ?_⟩, ⟨isTested_of_test? (by decide +kernel), ?_⟩,
    ⟨isTested_of_test? (by decide +kernel), ?_⟩, isTested_of_test? (by decide +kernel), ?_⟩
  · rfl
  · rfl
  · rfl
  · rfl

end UiTemplate
