import UiTemplate.Proofs.Compile.Success
import UiTemplate.Proofs.Siblings.Calls
import UiTemplate.Proofs.Siblings.Reached

/-!
# Faults and their siblings

- `siblings_unaffected`: where faults are tolerated, a child that fails leaves no trace on its
  siblings.
-/

namespace UiTemplate

/-- **A fault stays where it is.** In a tolerant emission of a template that was read, every child
that is handled leaves its surroundings as they were, whether it succeeds or fails: the scope, the
waiting attributes and the owner of the loop where markup is emitted, the local names, the level and
the hoisting where calls are. So the markup of children is what those of them that succeed emit on
their own, one after the other, from the state that the first of them starts in. -/
theorem siblings_unaffected {options : ParseOptions} {source : String} {nodes : List Node}
    (hp : Template.parse options source = .ok nodes) (capabilities : Capabilities) :
    let roots := (Template.annotate capabilities nodes).nodes
    (∀ settings : MarkupSettings, settings.tolerant = true →
      (∀ parent index n rest s, Markup.Reaches settings roots (.children parent index (n :: rest)) s →
        ((Markup.emitChild settings (parent.child index) n).run s).2.surroundings =
          s.surroundings) ∧
      ∀ parent index ns s, Markup.Reaches settings roots (.children parent index ns) s →
        ((Markup.emitAll settings parent index ns).run s).1 =
          .ok ((ns.zipIdx index).filterMap (Markup.ownMarkup settings parent s))) ∧
    ∀ settings : CallSettings, settings.tolerant = true → ∀ path n s,
      ((Calls.emitChild settings path n).run s).2.surroundings = s.surroundings := by
  intro roots
  have hroots : Node.ShapedAll roots :=
    Template.annotate_isSingle (Template.parse_isSingle hp) capabilities
  refine ⟨fun settings ht => ⟨fun parent index n rest s h => ?_, fun parent index ns s h => ?_⟩,
    fun settings _ path n s => ?_⟩
  · obtain ⟨hn, hs⟩ := h.settled ht hroots
    exact Markup.emitChild_surroundings ht _ (Node.shapedAll_cons.mp hn).1 hs
  · obtain ⟨hn, hs⟩ := h.settled ht hroots
    exact Markup.emitAll_output ht parent index hn hs
  · exact Calls.emitChild_keeps settings path n s

/-- A branch with an unknown directive, which fails while its condition waits, and a text behind
it. -/
def faultyBranch : String := "<a v-if=\"j\" v-x/>b"

/-- The text is emitted as it would be alone, though the branch before it has failed. -/
theorem siblings_unaffected_faultyBranch :
    let settings : MarkupSettings := ⟨.weixin, "d", true⟩
    ∃ nodes, Template.parse { platform := .weixin } faultyBranch = .ok nodes ∧
      let roots := (Template.annotate Platform.weixin.capabilities nodes).nodes
      ((Markup.emitAll settings [] 0 roots).run {}).1 = .ok ["b"] ∧
      ∃ n rest, roots = n :: rest ∧ ((Markup.emit settings [0] n).run {}).2.pending ≠ [] ∧
        ((Markup.emitChild settings [0] n).run {}).2.surroundings = ([], [], false) := by
  intro settings
  have hrun : (Template.parse { platform := .weixin } faultyBranch).toOption.map (fun nodes =>
      let roots := (Template.annotate Platform.weixin.capabilities nodes).nodes
      (roots.zipIdx.filterMap (Markup.ownMarkup settings [] {}),
        roots.head?.map fun n => ((Markup.emit settings [0] n).run {}).2.pending.length)) =
      some (["b"], some 1) := by
    decide +kernel
  cases hp : Template.parse { platform := .weixin } faultyBranch with
  | error e =>
    rw [hp] at hrun
    cases hrun
  | ok nodes =>
    rw [hp] at hrun
    obtain ⟨hown, hwaits⟩ := Prod.mk.inj (Option.some.inj hrun)
    obtain ⟨hmarkup, -⟩ := siblings_unaffected hp Platform.weixin.capabilities
    obtain ⟨hchild, hall⟩ := hmarkup settings rfl
    refine ⟨nodes, rfl, ?_, ?_⟩
    · rw [hall [] 0 _ {} .roots, hown]
    · cases hr : (Template.annotate Platform.weixin.capabilities nodes).nodes with
      | nil =>
        rw [hr] at hwaits
        cases hwaits
      | cons n rest =>
        rw [hr] at hwaits
        refine ⟨n, rest, rfl, fun hnone => ?_, ?_⟩
        · simp [hnone] at hwaits
        · exact hchild [] 0 n rest {} (hr ▸ .roots)

end UiTemplate
