import UiTemplate.Backend.Markup
import UiTemplate.Proofs.Backend.Ends
import UiTemplate.Proofs.Template.Shape

/-!
# When nodes become markup

- `Markup.elementAttributes_ends`: the attributes of an element have markup exactly if none is bound
  content and every handler is a name.
- `Markup.emitAll_ends`: nodes can be emitted exactly if every node in them is supported.
- `Markup.generate_emitted`: the same for a template.
-/

namespace UiTemplate

/-- Every noted fault is of a kind. -/
def MarkupState.Noted (E : Diagnostic → Prop) (s : MarkupState) : Prop :=
  ∀ d ∈ s.errors, E d

namespace Markup

/-- How a step ends whose faults, thrown or noted, are all of a kind. -/
abbrev EndsWith {α : Type} (E : Diagnostic → Prop) (strict p : Prop) (step : EmitMarkup α) : Prop :=
  Emit.Ends (MarkupState.Noted E) E strict p step

section Steps

variable {settings : MarkupSettings} {E : Diagnostic → Prop} {strict : Prop} {α : Type} {p : Prop}
  {step : EmitMarkup α}

theorem takePending_ends : EndsWith E strict True takePending :=
  ⟨fun _ h => h, fun _ _ h => (nomatch h), fun _ s =>
    ⟨fun _ => trivial, fun _ => ⟨s.pending, rfl⟩⟩⟩

theorem takeLoopOwner_ends : EndsWith E strict True takeLoopOwner :=
  ⟨fun _ h => h, fun _ _ h => (nomatch h), fun _ s =>
    ⟨fun _ => trivial, fun _ => ⟨s.loopOwner, rfl⟩⟩⟩

theorem note_ends {d : Diagnostic} (hd : E d) : EndsWith E strict True (note d) :=
  .modify fun _ h => List.forall_mem_append.mpr ⟨h, List.forall_mem_singleton.mpr hd⟩

theorem inScope_ends (change : List String → List String) (h : EndsWith E strict p step) :
    EndsWith E strict p (inScope change step) :=
  h.within (fun _ h => h) fun _ _ h => h

theorem branchMarkup_ends {emitNode : EmitMarkup String} (key : Option Key) (info : BranchInfo)
    (h : EndsWith E strict p emitNode) : EndsWith E strict p (branchMarkup settings key info emitNode) := by
  refine inScope_ends _ ((Emit.Ends.modify ?_).after fun _ => h)
  exact fun _ h => h

theorem loopMarkup_ends {emitNode : EmitMarkup String} (info : LoopInfo) (children : List Node)
    (h : EndsWith E strict p emitNode) :
    EndsWith E strict p (loopMarkup settings info children emitNode) := by
  refine takePending_ends.after fun outer => Emit.Ends.get.after fun s =>
    Emit.Ends.andThen (Emit.Ends.within ?_ (fun _ h => h) fun _ _ h => h) fun _ => .pure _
  exact h.andThen fun _ => takePending_ends.after fun _ => .pure _

end Steps

/-! ## Elements and slots -/

/-- Markup has no bound content, and its handlers are names. -/
def IsBindable (b : Binding) : Prop :=
  b.kind ≠ .html ∧ (b.kind = .event → ∃ name, b.expression.tree = .ident name)

/-- The fault of a bound value that has no markup, on the node at a path. -/
def bindingFault? (path : Path) (b : Binding) : Option Diagnostic :=
  match b.kind with
  | .prop => none
  | .event => some ⟨.handlerNotNamed b.name, path, b.location⟩
  | .html => some ⟨.htmlInMarkup, path, b.location⟩

section Parts

variable {settings : MarkupSettings} {E : Diagnostic → Prop} {strict : Prop} {scope : List String}
  {path : Path} {loopOwner : Bool}

theorem boundAttribute_cases (b : Binding) :
    (IsBindable b ∧ ∃ a, boundAttribute settings scope path loopOwner b = .ok a) ∨
      (¬IsBindable b ∧ ∃ d, bindingFault? path b = some d ∧
        boundAttribute settings scope path loopOwner b = .error d) := by
  unfold boundAttribute IsBindable bindingFault?
  cases hk : b.kind with
  | prop =>
    refine .inl ⟨by simp, ?_⟩
    dsimp only
    split
    · exact ⟨_, rfl⟩
    · exact ⟨_, rfl⟩
  | event =>
    dsimp only
    split
    · rename_i handler he
      exact .inl ⟨⟨by simp, fun _ => ⟨handler, he⟩⟩, _, rfl⟩
    · rename_i hne
      refine .inr ⟨fun h => ?_, _, rfl, rfl⟩
      obtain ⟨name, hn⟩ := h.2 rfl
      exact hne name hn
  | html => exact .inr ⟨fun h => h.1 rfl, _, rfl, rfl⟩

theorem boundAttributes_cases (bs : List Binding) :
    ((∀ b ∈ bs, IsBindable b) ∧
        ∃ as, boundAttributes settings scope path loopOwner bs = .ok as) ∨
      (¬(∀ b ∈ bs, IsBindable b) ∧ ∃ b ∈ bs, ∃ d, bindingFault? path b = some d ∧
        boundAttributes settings scope path loopOwner bs = .error d) := by
  induction bs with
  | nil => exact .inl ⟨fun b hb => absurd hb List.not_mem_nil, [], rfl⟩
  | cons b bs ih =>
    rw [List.forall_mem_cons, boundAttributes]
    rcases boundAttribute_cases b with ⟨hb, a, ha⟩ | ⟨hb, d, hd, ha⟩
    · rw [ha]
      rcases ih with ⟨hbs, as, has⟩ | ⟨hbs, b', hb', d, hd, has⟩
      · rw [has]
        exact .inl ⟨⟨hb, hbs⟩, _, rfl⟩
      · rw [has]
        exact .inr ⟨fun h => hbs h.2, b', List.mem_cons_of_mem _ hb', d, hd, rfl⟩
    · rw [ha]
      exact .inr ⟨fun h => hb h.1, b, List.mem_cons_self, d, hd, rfl⟩

theorem elementAttributes_ends {info : ElementInfo}
    (hE : ∀ b ∈ bindings info.directives, ∀ d, bindingFault? path b = some d → E d) :
    EndsWith E strict (∀ b ∈ bindings info.directives, IsBindable b)
      (ExceptT.mk (pure (elementAttributes settings scope path loopOwner info))) := by
  unfold elementAttributes
  rcases boundAttributes_cases (bindings info.directives) with
    ⟨hb, as, ha⟩ | ⟨hb, b, hm, d, hd, ha⟩
  · rw [ha]
    exact .ofExcept (fun d h => (nomatch h)) ⟨fun _ => hb, fun _ => ⟨_, rfl⟩⟩
  · rw [ha]
    refine .ofExcept (fun d' h => ?_) ⟨fun ⟨a, h⟩ => (nomatch h), fun h => absurd h hb⟩
    cases h
    exact hE b hm d hd

variable {p : Prop}

theorem elementMarkup_ends {info : ElementInfo} {children : List Node}
    {emitChildren : EmitMarkup (List String)}
    (hdirective : ∀ name value location,
      Directive.unsupported name value location ∈ info.directives →
        E ⟨.unsupportedDirective name, path, location⟩)
    (hbinding : ∀ b ∈ bindings info.directives, ∀ d, bindingFault? path b = some d → E d)
    (hc : EndsWith E strict p emitChildren)
    (hp : children = [] → p) :
    EndsWith E strict ((Node.element info children).IsSupported .markup ∧ p)
      (elementMarkup settings path info children emitChildren) := by
  show EndsWith E strict ((_ ∧ ∀ b ∈ bindings info.directives, IsBindable b) ∧ p) _
  rw [and_assoc]
  refine Emit.Ends.bind (Emit.checkDirectives_ends hdirective) fun _ =>
    takeLoopOwner_ends.after fun owner => takePending_ends.after fun pending =>
      Emit.Ends.get.after fun s => (elementAttributes_ends hbinding).bind fun own => ?_
  dsimp only
  split
  · rename_i he
    rw [Bool.and_eq_true, List.isEmpty_iff] at he
    exact (Emit.Ends.pure _).of_iff fun _ => (iff_true_intro (hp he.1)).symm
  · exact hc.andThen fun _ => .pure _

theorem slotMarkup_ends {info : SlotInfo} {fallback : List Node} {r : Resolution}
    (hdirective : ∀ name value location,
      Directive.unsupported name value location ∈ info.directives →
        E ⟨.unsupportedDirective name, path, location⟩)
    (hr : info.resolution = some r) (hd : fallback ≠ [] → r.fallback = .dualBranch)
    {emitFallback : EmitMarkup (List String)} (hf : EndsWith E strict p emitFallback)
    (hp : fallback = [] → p) :
    EndsWith E strict ((Node.slot info fallback).IsSupported .markup ∧ p)
      (slotMarkup settings path info emitFallback) := by
  refine Emit.Ends.bind (Emit.checkDirectives_ends hdirective) fun _ => ?_
  rw [hr]
  refine takePending_ends.after fun pending => Emit.Ends.get.after fun s => ?_
  dsimp only
  split
  · rename_i hn
    refine (Emit.Ends.pure _).of_iff fun _ => (iff_true_intro (hp ?_)).symm
    exact Classical.not_not.mp fun h => hn (hd h)
  · exact hf.andThen fun _ => .pure _

end Parts

/-! ## Nodes -/

/-- How a step ends under settings, if no fault is a slot without outlet. -/
abbrev Ends {α : Type} (settings : MarkupSettings) (p : Prop) (step : EmitMarkup α) : Prop :=
  EndsWith Diagnostic.OfResolved (settings.tolerant = false) p step

/-- What the emission of a node relies on: loops and branches have one node, and a slot has its
outlet, beside which its fallback is emitted. -/
def Ready (n : Node) : Prop :=
  n.IsSingle ∧ ∀ info fallback, n = .slot info fallback →
    ∃ r, info.resolution = some r ∧ (fallback ≠ [] → r.fallback = .dualBranch)

theorem bindingFault?_ofResolved {path : Path} {b : Binding} {d : Diagnostic}
    (h : bindingFault? path b = some d) : d.OfResolved := by
  unfold bindingFault? at h
  split at h
  · cases h
  · cases h
    exact nofun
  · cases h
    exact nofun

section Nodes

variable {settings : MarkupSettings}

mutual

theorem emit_ends (path : Path) (n : Node) (hr : ∀ m ∈ n.within, Ready m) :
    Ends settings (∀ m ∈ n.within, m.IsSupported .markup) (emit settings path n) := by
  match n with
  | .element info children =>
    rw [emit]
    exact Emit.Ends.of_iff (elementMarkup_ends (fun _ _ _ _ => nofun)
      (fun b _ _ => bindingFault?_ofResolved)
      (emitAll_ends path 0 children (List.forall_mem_cons.mp hr).2) Node.isSupported_of_eq_nil)
      fun _ => List.forall_mem_cons.symm
  | .text value l =>
    rw [emit]
    exact (takePending_ends.after fun _ => .pure _).of_iff fun _ =>
      (iff_true_intro (List.forall_mem_singleton.mpr trivial)).symm
  | .interpolation e key l =>
    rw [emit]
    refine (takePending_ends.after fun _ => Emit.Ends.get.after fun _ => .pure _).of_iff fun _ => ?_
    exact (iff_true_intro (List.forall_mem_singleton.mpr trivial)).symm
  | .slot info fallback =>
    obtain ⟨hs, hc⟩ := List.forall_mem_cons.mp hr
    obtain ⟨r, ho, hd⟩ := hs.2 info fallback rfl
    rw [emit]
    exact Emit.Ends.of_iff (slotMarkup_ends (fun _ _ _ _ => nofun) ho hd (emitAll_ends path 0 fallback hc)
      Node.isSupported_of_eq_nil) fun _ => List.forall_mem_cons.symm
  | .chain branches key l =>
    obtain ⟨hs, hc⟩ := List.forall_mem_cons.mp hr
    rw [emit]
    refine Emit.Ends.of_iff (takePending_ends.after fun _ =>
      (emitBranches_ends path 0 key branches hs.1 hc).andThen fun _ => .pure _) fun _ => ?_
    exact ((List.forall_mem_cons).trans (and_iff_right trivial)).symm
  | .loop info children =>
    obtain ⟨hs, hc⟩ := List.forall_mem_cons.mp hr
    have hl : children.length = 1 := by
      obtain ⟨n, hn⟩ := hs.1
      rw [hn]
      rfl
    rw [emit]
    refine Emit.Ends.of_iff (loopMarkup_ends info children (emitFirst_ends path children hl hc))
      fun _ => ?_
    exact ((List.forall_mem_cons).trans (and_iff_right trivial)).symm
  | .comment value l =>
    rw [emit]
    exact (Emit.Ends.pure _).of_iff fun _ =>
      (iff_true_intro (List.forall_mem_singleton.mpr trivial)).symm

theorem emitFirst_ends (path : Path) (ns : List Node) (hl : ns.length = 1)
    (hr : ∀ m ∈ Node.withinAll ns, Ready m) :
    Ends settings (∀ m ∈ Node.withinAll ns, m.IsSupported .markup)
      (emitFirst settings path ns) := by
  match ns, hl with
  | [n], _ =>
    rw [emitFirst]
    rw [Node.withinAll, Node.withinAll, List.append_nil] at hr ⊢
    exact emit_ends _ n hr

theorem emitAll_ends (parent : Path) (index : Nat) (ns : List Node)
    (hr : ∀ m ∈ Node.withinAll ns, Ready m) :
    Ends settings (∀ m ∈ Node.withinAll ns, m.IsSupported .markup)
      (emitAll settings parent index ns) := by
  match ns with
  | [] =>
    rw [emitAll]
    exact (Emit.Ends.pure _).of_iff fun _ => (iff_true_intro (Node.isSupported_of_eq_nil rfl)).symm
  | n :: rest =>
    obtain ⟨hn, hs⟩ := List.forall_mem_append.mp hr
    have hrest := emitAll_ends parent (index + 1) rest hs
    rw [emitAll]
    refine Emit.Ends.of_iff (Emit.Ends.attempt (emit_ends (parent.child index) n hn)
      (fun code => ?_) fun d hd => ?_) fun _ => List.forall_mem_append.symm
    · exact hrest.andThen fun _ => .pure _
    · exact Emit.Ends.tolerate id hd (note_ends hd) hrest

theorem emitBranches_ends (parent : Path) (index : Nat) (key : Option Key) (bs : List Branch)
    (hb : ∀ b ∈ bs, ∃ n, b.children = [n] ∧ n.isComment = false)
    (hr : ∀ m ∈ Branch.withinAll bs, Ready m) :
    Ends settings (∀ m ∈ Branch.withinAll bs, m.IsSupported .markup)
      (emitBranches settings parent index key bs) := by
  match bs with
  | [] =>
    rw [emitBranches]
    exact (Emit.Ends.pure _).of_iff fun _ =>
      (iff_true_intro fun m hm => absurd hm List.not_mem_nil).symm
  | .mk info [] :: rest =>
    obtain ⟨⟨n, hn, -⟩, -⟩ := List.forall_mem_cons.mp hb
    cases hn
  | .mk info (n :: more) :: rest =>
    obtain ⟨⟨m, hm, -⟩, hrest⟩ := List.forall_mem_cons.mp hb
    cases hm
    obtain ⟨hn, hs⟩ := List.forall_mem_append.mp hr
    rw [Node.withinAll, Node.withinAll, List.append_nil] at hn
    rw [emitBranches, Branch.withinAll, Node.withinAll, Node.withinAll, List.append_nil]
    refine Emit.Ends.of_iff ((branchMarkup_ends key info (emit_ends _ n hn)).bind fun _ => ?_)
      fun _ => List.forall_mem_append.symm
    exact (emitBranches_ends parent (index + 1) key rest hrest hs).andThen fun _ => .pure _

end

end Nodes

/-- A template is emitted exactly if every node in it is supported. -/
theorem generate_emitted (settings : MarkupSettings) {nodes : List Node}
    (hr : ∀ m ∈ Node.withinAll nodes, Ready m) :
    Emitted Prod.snd (settings.tolerant = false)
      (∀ m ∈ Node.withinAll nodes, m.IsSupported .markup) (generate settings nodes) := by
  unfold generate
  refine .of_ends (emitAll_ends [] 0 nodes hr) (s := {}) rfl (f := fun markup s => (String.join markup, s.errors))
    (fun _ _ => rfl) (fun _ _ hrun => ?_) fun _ _ hrun => ?_
  · rw [hrun]
  · rw [hrun]

end Markup

end UiTemplate
