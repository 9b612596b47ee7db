import UiTemplate.Proofs.Backend.Fallback
import UiTemplate.Proofs.Siblings.Markup

/-!
# Steps to markup that succeed

What is known of the parts of an emission of markup if the whole of it succeeds: in which state each
part was run, and how their markup was put together. There is one lemma for each kind of node.
-/

namespace UiTemplate

theorem Emit.run_within_inv {σ α : Type} {enter : σ → σ} {leave : σ → σ → σ} {x : Emit σ α}
    {s s' : σ} {a : α} (h : (Emit.within enter leave x).run s = (.ok a, s')) :
    ∃ t, x.run (enter s) = (.ok a, t) ∧ leave s t = s' := by
  cases hx : x.run (enter s) with
  | mk r t =>
    rw [Emit.run_within hx] at h
    obtain ⟨rfl, ht⟩ := Prod.mk.inj h
    exact ⟨t, rfl, ht⟩

theorem mem_inTextOrder {α : Type} {items : List (Nat × α)} {a : α} :
    a ∈ inTextOrder items ↔ ∃ n, (n, a) ∈ items := by
  simp [inTextOrder]

namespace Markup

variable {settings : MarkupSettings} {path : Path} {s s' : MarkupState} {markup : String}

/-! ## Steps of the state -/

theorem takePending_eq_ok {pending : List MarkupAttribute}
    (h : takePending.run s = (.ok pending, s')) :
    s.pending = pending ∧ { s with pending := [] } = s' := by
  obtain ⟨hpending, hs⟩ := Prod.mk.inj h
  exact ⟨Except.ok.inj hpending, hs⟩

theorem takeLoopOwner_eq_ok {owner : Bool} (h : takeLoopOwner.run s = (.ok owner, s')) :
    s.loopOwner = owner ∧ { s with loopOwner := false } = s' := by
  obtain ⟨howner, hs⟩ := Prod.mk.inj h
  exact ⟨Except.ok.inj howner, hs⟩

theorem get_eq_ok {t : MarkupState} (h : (get : EmitMarkup MarkupState).run s = (.ok t, s')) :
    s = t ∧ s = s' := by
  obtain ⟨ht, hs⟩ := Prod.mk.inj h
  exact ⟨Except.ok.inj ht, hs⟩

theorem pure_eq_ok {α : Type} {a b : α} (h : (pure a : EmitMarkup α).run s = (.ok b, s')) :
    a = b ∧ s = s' := by
  obtain ⟨hb, hs⟩ := Prod.mk.inj h
  exact ⟨Except.ok.inj hb, hs⟩

theorem ofExcept_eq_ok {α : Type} {r : Except Diagnostic α} {a : α}
    (h : (ExceptT.mk (pure r) : EmitMarkup α).run s = (.ok a, s')) : r = .ok a ∧ s = s' := by
  exact Prod.mk.inj h

/-! ## Elements -/

/-- The tag that stands for an element. -/
def tagOf (info : ElementInfo) : String :=
  if info.kind == .fragment then "block" else info.tag

/-- All attributes of an element for which some wait. -/
def allAttributes (settings : MarkupSettings) (pending own : List MarkupAttribute)
    (info : ElementInfo) (children : List Node) : List MarkupAttribute :=
  pending ++ own ++ contentAttribute settings info children

/-- An element takes what waits for it, and what is inside it is emitted with nothing waiting. -/
theorem elementMarkup_eq_ok {info : ElementInfo} {children : List Node}
    {emitChildren : EmitMarkup (List String)}
    (h : (elementMarkup settings path info children emitChildren).run s = (.ok markup, s')) :
    ∃ own, elementAttributes settings s.scope path s.loopOwner info = .ok own ∧
      if children.isEmpty && info.selfClosing then
        markup = "<" ++ tagOf info ++
          attributesText (allAttributes settings s.pending own info children) ++ "/>"
      else ∃ content,
        emitChildren.run { s with pending := [], loopOwner := false } = (.ok content, s') ∧
          markup = "<" ++ tagOf info ++
            attributesText (allAttributes settings s.pending own info children) ++ ">" ++
              String.join content ++ "</" ++ tagOf info ++ ">" := by
  obtain ⟨u, s₁, hdirectives, hrest₁⟩ := Emit.run_bind_inv h
  obtain rfl := (run_checkDirectives_state hdirectives).symm
  obtain ⟨owner, s₂, howner, hrest₂⟩ := Emit.run_bind_inv hrest₁
  obtain ⟨rfl, rfl⟩ := takeLoopOwner_eq_ok howner
  obtain ⟨pending, s₃, hpending, hrest₃⟩ := Emit.run_bind_inv hrest₂
  obtain ⟨rfl, rfl⟩ := takePending_eq_ok hpending
  obtain ⟨t, s₄, hget, hrest₄⟩ := Emit.run_bind_inv hrest₃
  obtain ⟨rfl, rfl⟩ := get_eq_ok hget
  obtain ⟨own, s₅, hown, hrest₅⟩ := Emit.run_bind_inv hrest₄
  obtain ⟨hattributes, rfl⟩ := ofExcept_eq_ok hown
  refine ⟨own, hattributes, ?_⟩
  dsimp only at hrest₅
  split at hrest₅
  · rename_i hc
    rw [if_pos hc]
    exact (pure_eq_ok hrest₅).1.symm
  · rename_i hc
    obtain ⟨content, s₆, hcontent, hrest₆⟩ := Emit.run_bind_inv hrest₅
    obtain ⟨rfl, rfl⟩ := pure_eq_ok hrest₆
    rw [if_neg hc]
    exact ⟨content, hcontent, rfl⟩

/-- The attributes of bound values come from bound values. -/
theorem boundAttributes_eq_ok {scope : List String} {loopOwner : Bool} {bs : List Binding}
    {as : List (Nat × MarkupAttribute)}
    (h : boundAttributes settings scope path loopOwner bs = .ok as) :
    ∀ e ∈ as, ∃ b ∈ bs, boundAttribute settings scope path loopOwner b = .ok (some e.2) := by
  induction bs generalizing as with
  | nil =>
    cases h
    exact fun e he => absurd he List.not_mem_nil
  | cons b bs ih =>
    rw [boundAttributes] at h
    cases ha : boundAttribute settings scope path loopOwner b with
    | error d =>
      rw [ha] at h
      cases h
    | ok a =>
      cases hmore : boundAttributes settings scope path loopOwner bs with
      | error d =>
        rw [ha, hmore] at h
        cases h
      | ok more =>
        rw [ha, hmore] at h
        cases h
        refine List.forall_mem_append.mpr ⟨List.forall_mem_map.mpr fun a' ha' => ?_, ?_⟩
        · exact ⟨b, List.mem_cons_self, by rw [ha, Option.mem_toList.mp ha']⟩
        · intro e he
          obtain ⟨b', hb', he⟩ := ih hmore e he
          exact ⟨b', List.mem_cons_of_mem _ hb', he⟩

/-- The attributes of an element are those of its tag and those of its bound values. -/
theorem elementAttributes_eq_ok {scope : List String} {loopOwner : Bool} {info : ElementInfo}
    {own : List MarkupAttribute}
    (h : elementAttributes settings scope path loopOwner info = .ok own) :
    ∀ a ∈ own, (∃ x ∈ info.attributes, a = (x.name, x.value)) ∨
      ∃ b ∈ bindings info.directives,
        boundAttribute settings scope path loopOwner b = .ok (some a) := by
  rw [elementAttributes] at h
  cases hbound : boundAttributes settings scope path loopOwner (bindings info.directives) with
  | error d =>
    rw [hbound] at h
    cases h
  | ok bound =>
    rw [hbound] at h
    cases h
    intro a ha
    obtain ⟨n, hn⟩ := mem_inTextOrder.mp ha
    rcases List.mem_append.mp hn with hn | hn
    · obtain ⟨x, hx, heq⟩ := List.mem_map.mp hn
      exact .inl ⟨x, hx, (Prod.mk.inj heq).2.symm⟩
    · exact .inr (boundAttributes_eq_ok hbound (n, a) hn)

/-! ## Slots, branches and loops -/

/-- The markup of a slot with a fallback beside its outlet. -/
def bothMarkup (settings : MarkupSettings) (scope : List String) (info : SlotInfo)
    (base : OutletBase) (fallback : String) : String :=
  "<block" ++ attributeText (settings.dialect.directive "if",
      some (placeholder (presence scope info base))) ++ "><slot" ++
    attributesText (slotAttributes settings scope info base) ++ "/></block><block" ++
    attributeText (settings.dialect.directive "else", none) ++ ">" ++ fallback ++ "</block>"

/-- A slot takes what waits for it, and its fallback is emitted with nothing waiting. -/
theorem slotMarkup_eq_ok {info : SlotInfo} {r : Resolution} (hr : info.resolution = some r)
    {emitFallback : EmitMarkup (List String)}
    (h : (slotMarkup settings path info emitFallback).run s = (.ok markup, s')) :
    if r.fallback ≠ .dualBranch then
      markup = "<slot" ++
        attributesText (s.pending ++ slotAttributes settings s.scope info r.base) ++ "/>"
    else ∃ fallback,
      emitFallback.run { s with pending := [] } = (.ok fallback, s') ∧
        markup = wrap s.pending
          (bothMarkup settings s.scope info r.base (String.join fallback)) := by
  obtain ⟨u, s₁, hdirectives, hrest₁⟩ := Emit.run_bind_inv h
  obtain rfl := (run_checkDirectives_state hdirectives).symm
  rw [hr] at hrest₁
  obtain ⟨pending, s₂, hpending, hrest₂⟩ := Emit.run_bind_inv hrest₁
  obtain ⟨rfl, rfl⟩ := takePending_eq_ok hpending
  obtain ⟨t, s₃, hget, hrest₃⟩ := Emit.run_bind_inv hrest₂
  obtain ⟨rfl, rfl⟩ := get_eq_ok hget
  dsimp only at hrest₃
  split at hrest₃
  · rename_i hd
    rw [if_pos hd]
    exact (pure_eq_ok hrest₃).1.symm
  · rename_i hd
    obtain ⟨fallback, s₄, hfallback, hrest₄⟩ := Emit.run_bind_inv hrest₃
    obtain ⟨rfl, rfl⟩ := pure_eq_ok hrest₄
    rw [if_neg hd]
    exact ⟨fallback, hfallback, rfl⟩

/-- The node of a branch is emitted inside the chain, while the attribute of the branch waits. -/
theorem branchMarkup_eq_ok {key : Option Key} {info : BranchInfo} {emitNode : EmitMarkup String}
    (h : (branchMarkup settings key info emitNode).run s = (.ok markup, s')) :
    ∃ t, emitNode.run { s with
        scope := s.scope ++ [key.getD ""]
        pending := [branchAttribute settings (s.scope ++ [key.getD ""]) info] } =
          (.ok markup, t) ∧ s' = { t with scope := s.scope } := by
  unfold branchMarkup inScope at h
  obtain ⟨t, hscope, ht⟩ := Emit.run_within_inv h
  obtain ⟨u, s₁, hmodify, hnode⟩ := Emit.run_bind_inv hscope
  obtain ⟨-, rfl⟩ := Prod.mk.inj hmodify
  exact ⟨t, hnode, ht.symm⟩

/-- The node of a loop is emitted inside the loop, while the attributes of the loop wait. -/
theorem loopMarkup_eq_ok {info : LoopInfo} {children : List Node} {emitNode : EmitMarkup String}
    (h : (loopMarkup settings info children emitNode).run s = (.ok markup, s')) :
    ∃ child t, emitNode.run { s with
        scope := [info.item]
        pending := loopAttributes settings s.scope info children
        loopOwner := startsWithElement children } = (.ok child, t) ∧
          markup = wrap s.pending (wrap t.pending child) := by
  obtain ⟨outer, s₁, houter, hrest₁⟩ := Emit.run_bind_inv h
  obtain ⟨rfl, rfl⟩ := takePending_eq_ok houter
  obtain ⟨t, s₂, hget, hrest₂⟩ := Emit.run_bind_inv hrest₁
  obtain ⟨rfl, rfl⟩ := get_eq_ok hget
  obtain ⟨p, s₃, hwithin, hrest₃⟩ := Emit.run_bind_inv hrest₂
  obtain ⟨rfl, rfl⟩ := pure_eq_ok hrest₃
  obtain ⟨t, hinside, -⟩ := Emit.run_within_inv hwithin
  obtain ⟨child, t₁, hchild, hinside₁⟩ := Emit.run_bind_inv hinside
  obtain ⟨leftover, t₂, hleftover, hinside₂⟩ := Emit.run_bind_inv hinside₁
  obtain ⟨rfl, rfl⟩ := takePending_eq_ok hleftover
  obtain ⟨rfl, rfl⟩ := pure_eq_ok hinside₂
  exact ⟨child, t₁, hchild, rfl⟩

/-! ## Children -/

/-- If no fault is tolerated, a child that is emitted has markup. -/
theorem emitChild_eq_ok (hstrict : settings.tolerant = false) {n : Node} {result : Option String}
    (h : (emitChild settings path n).run s = (.ok result, s')) :
    ∃ markup, result = some markup ∧ (emit settings path n).run s = (.ok markup, s') := by
  unfold emitChild Emit.handle at h
  obtain ⟨r, t, hattempt, hrest⟩ := Emit.run_bind_inv h
  rcases hn : (emit settings path n).run s with ⟨r', t'⟩
  rw [Emit.run_attempt hn] at hattempt
  obtain ⟨hr, rfl⟩ := Prod.mk.inj hattempt
  obtain rfl := Except.ok.inj hr
  cases r' with
  | ok markup =>
    obtain ⟨rfl, rfl⟩ := pure_eq_ok hrest
    exact ⟨markup, rfl, rfl⟩
  | error d =>
    dsimp only at hrest
    rw [hstrict] at hrest
    cases hrest

end Markup

end UiTemplate
