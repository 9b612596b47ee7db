import Mathlib
import UiTemplate.Proofs.Backend.Calls
import UiTemplate.Proofs.Backend.Markup
import UiTemplate.Proofs.Compile.Annotate
import UiTemplate.Proofs.Template.Pieces

/-!
# When a compilation succeeds

- `compile_isOk_iff`: a compilation that tolerates no fault succeeds exactly if the form of the
  output fits the platform, the text is a template, nothing is wrong with its outlets, and every
  node in it is supported. No compilation ever meets a slot without outlet.
-/

namespace UiTemplate

/-! ## The tree that backends get -/

theorem Branch.map_condition_stripAll (f : SlotInfo → SlotInfo) (bs : List Branch) :
    (Branch.stripAll f bs).map (fun b => b.info.condition) = bs.map fun b => b.info.condition := by
  induction bs with
  | nil => rfl
  | cons b bs ih =>
    obtain ⟨info, children⟩ := b
    exact congrArg (info.condition :: ·) ih

theorem Node.isOrdered_strip (f : SlotInfo → SlotInfo) (n : Node) :
    (n.strip f).IsOrdered ↔ n.IsOrdered := by
  cases n with
  | chain branches key l =>
    rw [Node.strip, Node.IsOrdered, Node.IsOrdered, Branch.map_condition_stripAll]
  | _ => exact Iff.rfl

section Annotated

variable {nodes : List Node} (hs : ∀ n ∈ Node.withinAll nodes, n.IsSingle)
include hs

theorem Template.annotate_isSingle (capabilities : Capabilities) :
    ∀ n ∈ Node.withinAll (Template.annotate capabilities nodes).nodes, n.IsSingle :=
  (Node.forall_within_of_stripAll_eq SlotInfo.plain (Node.isSingle_strip SlotInfo.plain)
    (Template.annotate_strip capabilities nodes)).mpr hs

theorem Template.annotate_ready_calls {settings : CallSettings}
    (hc : settings.context = (Template.annotate Family.calls.capabilities nodes).context) :
    ∀ n ∈ Node.withinAll (Template.annotate Family.calls.capabilities nodes).nodes,
      Calls.Ready settings n := by
  refine fun n hn => ⟨Template.annotate_isSingle hs _ n hn, fun info fallback he => ?_⟩
  rw [he] at hn
  rw [hc]
  obtain ⟨outlet, -, houtlet⟩ := Template.annotate_outlet nodes hn
  exact ⟨outlet, houtlet⟩

theorem Template.annotate_ready_markup :
    ∀ n ∈ Node.withinAll (Template.annotate Family.markup.capabilities nodes).nodes,
      Markup.Ready n := by
  refine fun n hn => ⟨Template.annotate_isSingle hs _ n hn, fun info fallback he => ?_⟩
  rw [he] at hn
  obtain ⟨r, hr, hf⟩ := Template.annotate_isResolved Family.markup.capabilities nodes _ hn
  exact ⟨r, hr, hf rfl⟩

end Annotated

theorem Template.annotate_isSupported (capabilities : Capabilities) (nodes : List Node)
    (family : Family) :
    (∀ n ∈ Node.withinAll (Template.annotate capabilities nodes).nodes, n.IsSupported family) ↔
      ∀ n ∈ Node.withinAll nodes, n.IsSupported family :=
  Node.forall_within_of_stripAll_eq SlotInfo.plain (Node.isSupported_strip family)
    (Template.annotate_strip capabilities nodes)

/-! ## Emission -/

/-- A tree whose loops and branches have one node each is emitted exactly if every node in it is
supported. -/
theorem emitOutput_emitted (resolver : Resolver) (o : CompileOptions) {nodes : List Node}
    (hs : ∀ n ∈ Node.withinAll nodes, n.IsSingle) :
    Emitted (fun r => r.2.2) (o.partialOutput = false)
      (∀ n ∈ Node.withinAll nodes, n.IsSupported o.platform.family)
      (emitOutput resolver o (Template.annotate o.platform.capabilities nodes)) := by
  unfold emitOutput Platform.capabilities
  cases hf : o.platform.family with
  | calls =>
    have hr : ∀ n ∈ Node.withinAll (Template.annotate Family.calls.capabilities nodes).nodes,
        Calls.Ready (o.callSettings resolver _) n := Template.annotate_ready_calls hs rfl
    refine ((Calls.generate_emitted hr).of_iff ?_).bind_ok fun _ => rfl
    exact Template.annotate_isSupported _ nodes .calls
  | markup =>
    have h := Markup.generate_emitted o.markupSettings (Template.annotate_ready_markup hs)
    refine (h.of_iff ?_).bind_ok fun _ => rfl
    exact Template.annotate_isSupported _ nodes .markup

/-- What is wrong with outlets is never that one is missing. -/
theorem Outlet.faults_ofResolved (capabilities : Capabilities) (seen sites : List SlotSite) :
    ∀ d ∈ Outlet.faults capabilities seen sites, d.OfResolved := by
  induction sites generalizing seen with
  | nil => exact fun d hd => absurd hd List.not_mem_nil
  | cons s sites ih =>
    rw [Outlet.faults]
    refine List.forall_mem_append.mpr ⟨fun d hd => ?_, ?_⟩
    · obtain ⟨b, -, rfl⟩ := Option.map_eq_some_iff.mp (Option.mem_toList.mp hd)
      simp [Diagnostic.OfResolved]
    · split
      · exact List.forall_mem_cons.mpr ⟨by simp [Diagnostic.OfResolved], ih seen⟩
      · exact ih _

/-! ## Compilation -/

/-- **When a compilation succeeds.** A compilation that tolerates no fault succeeds exactly if the
form of the output fits the platform, the text is a template, nothing is wrong with its outlets, and
every node in it is supported. No compilation ever meets a slot without outlet, tolerant or not. -/
theorem compile_isOk_iff (resolver : Resolver) (o : CompileOptions) (source : String) :
    (o.partialOutput = false → ((∃ r, compile resolver o source = .ok r) ↔
      o.emissionMode = o.platform.family.emissionMode ∧
      ∃ nodes, Template.parse o.parseOptions source = .ok nodes ∧
        (Outlet.report o.platform.capabilities nodes).errors = [] ∧
        ∀ n ∈ Node.withinAll nodes, n.IsSupported o.platform.family)) ∧
    (∀ ds, compile resolver o source = .error (.codegen ds) →
      ∀ d ∈ ds, d.fault ≠ .unresolvedSlot) ∧
    ∀ r, compile resolver o source = .ok r → ∀ d ∈ r.errors, d.fault ≠ .unresolvedSlot := by
  unfold compile CompileOptions.emissionFault?
  by_cases hm : o.emissionMode = o.platform.family.emissionMode
  · rw [if_pos hm]
    dsimp only
    cases hp : Template.parse o.parseOptions source with
    | error e =>
      refine ⟨fun _ => ⟨fun ⟨r, hr⟩ => (nomatch hr), fun ⟨_, nodes, hn, _⟩ => (nomatch hn)⟩,
        fun ds hd => (nomatch hd), fun r hr => (nomatch hr)⟩
    | ok nodes =>
      -- From here on two sources of errors are left: the report on outlets, and the emitted output.
      have hr := Outlet.faults_ofResolved o.platform.capabilities [] (Template.slotSites nodes)
      have he := emitOutput_emitted resolver o (Template.parse_isSingle hp)
      dsimp only
      split
      · rename_i hc
        rw [Bool.and_eq_true, Bool.not_eq_true', Bool.not_eq_true', List.isEmpty_eq_false_iff] at hc
        refine ⟨fun _ => ⟨fun ⟨r, hr⟩ => (nomatch hr), ?_⟩, ?_, fun r hr => (nomatch hr)⟩
        · rintro ⟨-, nodes', ⟨⟩, hn, -⟩
          exact absurd hn hc.1
        · rintro ds ⟨⟩
          exact hr
      · rename_i hc
        cases hx : emitOutput resolver o (Template.annotate o.platform.capabilities nodes) with
        | error d =>
          rw [hx] at he
          refine ⟨fun st => ⟨fun ⟨r, hr⟩ => (nomatch hr), ?_⟩, ?_, fun r hr => (nomatch hr)⟩
          · rintro ⟨-, nodes', ⟨⟩, -, hn⟩
            obtain ⟨r, hr⟩ := (he.isOk_iff st).mpr hn
            cases hr
          · rintro ds ⟨⟩
            exact List.forall_mem_singleton.mpr (he.error d rfl)
        | ok r =>
          obtain ⟨output, helpers, errors⟩ := r
          rw [hx] at he
          refine ⟨fun st => ⟨fun _ => ⟨hm, nodes, rfl, ?_, (he.isOk_iff st).mp ⟨_, rfl⟩⟩,
            fun _ => ⟨_, rfl⟩⟩, fun ds hd => (nomatch hd), ?_⟩
          · show (Template.annotate o.platform.capabilities nodes).report.errors = []
            simpa [st] using hc
          · rintro r ⟨⟩
            exact List.forall_mem_append.mpr ⟨hr, he.noted _ rfl⟩
  · rw [if_neg hm]
    refine ⟨fun _ => ⟨fun ⟨r, hr⟩ => (nomatch hr), fun h => absurd h.1 hm⟩, ?_,
      fun r hr => (nomatch hr)⟩
    rintro ds ⟨⟩
    exact List.forall_mem_singleton.mpr (by simp)

/-- A text is compiled, an unknown directive is not. -/
theorem compile_isOk_iff_text_and_directive :
    (∃ r, compile Resolver.none {} "a" = .ok r) ∧
      ¬∃ r, compile Resolver.none {} "<a v-x/>" = .ok r := by
  constructor
  · refine ((compile_isOk_iff Resolver.none {} "a").1 rfl).mpr
      ⟨rfl, [.text "a" ⟨1, 1, 0⟩], ?_, rfl, List.forall_mem_singleton.mpr trivial⟩
    have h : pieces ⟨0, "a".toList⟩ = ([.text "a" 0], none) :=
      pieces_eq_singleton 1 (by simp) (by cbv)
    unfold Template.parse Template.read Raw.read
    rw [h]
    rfl
  · intro hr
    obtain ⟨-, nodes, hp, -, hn⟩ :=
      ((compile_isOk_iff Resolver.none {} "<a v-x/>").1 rfl).mp hr
    have h : pieces ⟨0, "<a v-x/>".toList⟩ = ([.openTag "a" [⟨"v-x", none, 3, 6⟩] true 0], none) :=
      pieces_eq_singleton 8 (by simp) (by cbv)
    unfold Template.parse Template.read Raw.read at hp
    rw [h] at hp
    cases hp
    have hd := (hn _ List.mem_cons_self).1 _ List.mem_cons_self
    cases hd

end UiTemplate
