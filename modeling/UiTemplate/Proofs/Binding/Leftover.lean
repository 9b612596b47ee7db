import UiTemplate.Proofs.Binding.Extraction
import UiTemplate.Proofs.Compile.Annotate

/-!
# Extraction in trees that have keys

A tree may have keys before its bound values are extracted.

- `extractSlot_over`: the keys that a slot has do not decide which keys it is given, and stay where
  it is given none.
- `Node.extractAll_unkeyed`: extraction binds the same in the tree without its keys, and the trees
  it gives are the same exactly if no key is left over.
-/

namespace UiTemplate

open Extract

/-! ## Keys that are left over -/

/-- These keys, and the old ones where there are none. -/
def SlotKeys.over (given old : SlotKeys) : SlotKeys :=
  ⟨given.name.or old.name, given.outlet.or old.outlet⟩

theorem SlotKeys.over_empty (given : SlotKeys) : given.over {} = given :=
  congrArg₂ SlotKeys.mk Option.or_none Option.or_none

/-- The keys are those of what a family binds of the slot. -/
structure SlotKeys.IsGiven (family : Family) (slot : SlotInfo) (keys : SlotKeys) : Prop where
  name : keys.name.isSome = (slot.identity? family).isSome
  outlet : keys.outlet.isSome = (slot.outlet? family).isSome

/-- A family that binds the values of the node leaves it none of the keys that it has: a handler is
never given a key, and a slot is given one only for what the family binds of it. -/
def Node.IsRekeyed (family : Family) : Node → Prop
  | .element info _ => ∀ b ∈ bindings info.directives, b.kind = .event → b.key = none
  | .slot info _ =>
    (info.keys.name.isSome → (info.identity? family).isSome) ∧
      (info.keys.outlet.isSome → (info.outlet? family).isSome)
  | _ => True

section Rekeyed

variable {α β γ δ ε ρ : Type}

/-- Two steps of the walk bind the same and leave the same behind, and give the same tree exactly if
the condition holds. -/
structure Rekeyed (x y : (α × β) × Allocation) (condition : Prop) : Prop where
  bound : x.1.2 = y.1.2
  after : x.2 = y.2
  tree : x.1.1 = y.1.1 ↔ condition

theorem Rekeyed.refl (x : (α × β) × Allocation) : Rekeyed x x True :=
  ⟨rfl, rfl, iff_of_true rfl trivial⟩

variable {x y : (α × β) × Allocation} {p q : Prop}

theorem Rekeyed.of_iff (h : Rekeyed x y p) (hpq : q ↔ p) : Rekeyed x y q :=
  ⟨h.bound, h.after, h.tree.trans hpq.symm⟩

theorem Rekeyed.map (h : Rekeyed x y p) {f : α → γ} (hf : Function.Injective f) (r : β → δ)
    (g : Allocation → Allocation) :
    Rekeyed ((f x.1.1, r x.1.2), g x.2) ((f y.1.1, r y.1.2), g y.2) p :=
  ⟨congrArg r h.bound, congrArg g h.after, hf.eq_iff.trans h.tree⟩

/-- One step after the other. -/
theorem Rekeyed.andThen (h : Rekeyed x y p) {k k' : Allocation → (γ × δ) × Allocation}
    (hk : Rekeyed (k x.2) (k' x.2) q) {f : α → γ → ε} (hf : Function.Injective2 f)
    (r : β → δ → ρ) :
    Rekeyed ((f x.1.1 (k x.2).1.1, r x.1.2 (k x.2).1.2), (k x.2).2)
      ((f y.1.1 (k' y.2).1.1, r y.1.2 (k' y.2).1.2), (k' y.2).2) (p ∧ q) := by
  rw [← h.after, ← h.bound, ← hk.bound, ← hk.after]
  exact ⟨rfl, rfl, hf.eq_iff.trans (and_congr h.tree hk.tree)⟩

end Rekeyed

theorem Option.or_eq_left_iff {α : Type} {given old : Option α} :
    given.or old = given ↔ (old.isSome → given.isSome) := by
  cases given <;> cases old <;> simp

/-! ## Slots -/

section Slot

variable (slot : SlotInfo) (r : Resolution) (a : Allocation)

theorem extractOutlet_over (keys : SlotKeys) :
    extractOutlet { slot with keys } r a =
      (({ slot with keys := SlotKeys.over ⟨none, some (Key.number a.next)⟩ keys },
        [(Key.number a.next, .outlet ⟨r.base, slot.props, r.loopPath⟩)]),
        ⟨a.next + 1, a.helpers.insert .resolveOutlet⟩) := rfl

/-- The key of an outlet's identity does not hang on the keys that the slot has. -/
theorem extractIdentity_over (hr : slot.resolution = some r) :
    ∃ name : Option Key, name.isSome = (slot.identity? .markup).isSome ∧ ∃ record after, ∀ keys,
      extractIdentity { slot with keys } r a =
        (({ slot with keys := SlotKeys.over ⟨name, none⟩ keys }, record), after) := by
  obtain ⟨base, path, branch, fallback⟩ := r
  obtain ⟨static, dynamic, attributes, directives, closing, resolution, own, location⟩ := slot
  cases hr
  cases base with
  | fixed name =>
    cases path with
    | nil => exact ⟨none, rfl, _, _, fun _ => rfl⟩
    | cons depth path => exact ⟨some (Key.number a.next), rfl, _, _, fun _ => rfl⟩
  | computed e =>
    cases path with
    | nil => exact ⟨some (Key.number a.next), rfl, _, _, fun _ => rfl⟩
    | cons depth path => exact ⟨some (Key.number a.next), rfl, _, _, fun _ => rfl⟩

/-- A slot is given keys for what is bound of it, whatever keys it has; where it is given none it
keeps what it has. -/
theorem extractSlot_over (capabilities : Capabilities) :
    ∃ given : SlotKeys, given.IsGiven capabilities.family slot ∧ ∃ record after, ∀ keys,
      extractSlot capabilities { slot with keys } a =
        (({ slot with keys := given.over keys }, record), after) := by
  obtain ⟨family, introspects, localKeys, default⟩ := capabilities
  have hresolution (keys : SlotKeys) :
      ({ slot with keys } : SlotInfo).resolution = slot.resolution := rfl
  rcases Option.eq_none_or_eq_some slot.resolution with hr | ⟨r, hr⟩
  · refine ⟨{}, ⟨?_, ?_⟩, [], a, fun keys => ?_⟩
    · cases family <;> simp [SlotInfo.identity?, hr]
    · simp [SlotInfo.outlet?, hr]
    · exact extractSlot_unresolved ((hresolution keys).trans hr) _ a
  · cases family with
    | calls =>
      have hgiven : SlotKeys.IsGiven .calls slot ⟨none, some (Key.number a.next)⟩ :=
        ⟨rfl, by rw [SlotInfo.outlet?_calls hr]; rfl⟩
      have hover (keys : SlotKeys) := extractOutlet_over slot r a keys
      refine ⟨_, hgiven, _, _, fun keys => Eq.trans ?_ (hover keys)⟩
      exact extractSlot_calls ((hresolution keys).trans hr) ..
    | markup =>
      obtain ⟨name, hname, record, after, hidentity⟩ := extractIdentity_over slot r a hr
      have hbound := SlotInfo.outlet?_markup hr
      by_cases h : (r.isIterated || !slot.props.isEmpty) = true
      · refine ⟨⟨name, some (Key.number after.next)⟩, ⟨hname, ?_⟩,
          record ++ [(Key.number after.next, .outlet ⟨r.base, slot.props, r.loopPath⟩)],
          ⟨after.next + 1, after.helpers.insert .resolveOutlet⟩, fun keys => ?_⟩
        · rw [hbound, if_pos h]
          rfl
        · rw [extractSlot_markup ((hresolution keys).trans hr), hidentity]
          dsimp only
          rw [SlotInfo.props_keys, if_pos h]
          rfl
      · refine ⟨⟨name, none⟩, ⟨hname, ?_⟩, record, after, fun keys => ?_⟩
        · rw [hbound, if_neg h]
          rfl
        · rw [extractSlot_markup ((hresolution keys).trans hr), hidentity]
          dsimp only
          rw [SlotInfo.props_keys, if_neg h]
          rfl

/-- Of a slot without keys the same is bound. -/
theorem extractSlot_unkeyed (capabilities : Capabilities) :
    Rekeyed (extractSlot capabilities slot a) (extractSlot capabilities slot.unkeyed a)
      ((slot.keys.name.isSome → (slot.identity? capabilities.family).isSome) ∧
        (slot.keys.outlet.isSome → (slot.outlet? capabilities.family).isSome)) := by
  obtain ⟨given, hgiven, record, after, h⟩ := extractSlot_over slot a capabilities
  rw [show extractSlot capabilities slot a = _ from h slot.keys,
    show extractSlot capabilities slot.unkeyed a = _ from h {}, SlotKeys.over_empty]
  refine ⟨rfl, rfl, ?_⟩
  rw [← hgiven.name, ← hgiven.outlet, ← Option.or_eq_left_iff, ← Option.or_eq_left_iff]
  constructor
  · intro heq
    obtain ⟨hname, houtlet⟩ := SlotKeys.mk.inj (congrArg SlotInfo.keys heq)
    exact ⟨hname, houtlet⟩
  · rintro ⟨hname, houtlet⟩
    have hkeys : given.over slot.keys = given := congrArg₂ SlotKeys.mk hname houtlet
    rw [hkeys]

end Slot

/-! ## Directives -/

/-- Of directives without keys the same is bound, and they are given the same keys unless a handler
has one. -/
theorem extractDirectives_unkeyed (ds : List Directive) (a : Allocation) :
    Rekeyed (extractDirectives ds a) (extractDirectives (ds.map Directive.strip) a)
      (∀ b ∈ bindings ds, b.kind = .event → b.key = none) := by
  induction ds generalizing a with
  | nil => exact (Rekeyed.refl _).of_iff (by simp [bindings])
  | cons d ds ih =>
    cases d with
    | structural s l => exact (ih a).map (List.cons_injective (a := .structural s l)) id id
    | unsupported name value l =>
      exact (ih a).map (List.cons_injective (a := .unsupported name value l)) id id
    | binding b =>
      by_cases hb : b.kind = .event
      · have hs : ({ b with key := none } : Binding).kind = .event := hb
        have hkey : Directive.binding b = .binding { b with key := none } ↔ b.key = none := by
          obtain ⟨kind, name, expression, key, location⟩ := b
          simp
        obtain ⟨hbound, hafter, htree⟩ := ih a
        rw [List.map_cons, Directive.strip, extractDirectives_event hb, extractDirectives_event hs]
        refine ⟨hbound, hafter, ?_⟩
        rw [List.cons.injEq, hkey, htree]
        show _ ↔ ∀ b' ∈ b :: bindings ds, _
        simp [hb]
      · have hs : ({ b with key := none } : Binding).kind ≠ .event := hb
        rw [List.map_cons, Directive.strip, extractDirectives_bound hb, extractDirectives_bound hs]
        refine ((ih { a with next := a.next + 1 }).map
          (List.cons_injective (a := .binding { b with key := some (Key.number a.next) }))
          ((Key.number a.next, .field b.expression) :: ·) id).of_iff ?_
        show (∀ b' ∈ b :: bindings ds, _) ↔ _
        simp [hb]

/-! ## Nodes -/

theorem Node.extract_slot (capabilities : Capabilities) (info : SlotInfo) (fallback : List Node)
    (a : Allocation) :
    Node.extract capabilities (.slot info fallback) a =
      let slot := extractSlot capabilities info a
      let body := Node.extractAll capabilities fallback slot.2
      ((.slot slot.1.1 body.1.1, slot.1.2 ++ body.1.2), body.2) := by
  rw [Node.extract]
  rfl

mutual

theorem Node.extract_unkeyed (capabilities : Capabilities) (n : Node) (a : Allocation) :
    Rekeyed (n.extract capabilities a) ((n.strip SlotInfo.unkeyed).extract capabilities a)
      (∀ m ∈ n.within, m.IsRekeyed capabilities.family) := by
  match n with
  | .element info children =>
    rw [Node.strip, Node.extract, Node.extract, Node.within, List.forall_mem_cons]
    refine (extractDirectives_unkeyed info.directives a).andThen
      (Node.extractAll_unkeyed capabilities children _)
      (f := fun directives children => Node.element { info with directives } children) ?_ (· ++ ·)
    intro d d' c c' h
    obtain ⟨hinfo, hc⟩ := Node.element.inj h
    exact ⟨congrArg ElementInfo.directives hinfo, hc⟩
  | .text value location =>
    exact (Rekeyed.refl _).of_iff (by simp [Node.within, Node.IsRekeyed])
  | .interpolation e key location =>
    exact (Rekeyed.refl _).of_iff (by simp [Node.within, Node.IsRekeyed])
  | .slot info fallback =>
    rw [Node.strip, Node.extract_slot, Node.extract_slot, Node.within, List.forall_mem_cons]
    refine (extractSlot_unkeyed info a capabilities).andThen
      (Node.extractAll_unkeyed capabilities fallback _)
      (f := Node.slot) ?_ (· ++ ·)
    exact fun _ _ _ _ => Node.slot.inj
  | .chain branches key location =>
    rw [Node.strip, Node.extract, Node.extract, Node.within, List.forall_mem_cons]
    refine ((Branch.extractAll_unkeyed capabilities branches { a with next := a.next + 1 }).map
      (f := fun branches => Node.chain branches (some (Key.number a.next)) location)
      (fun _ _ h => (Node.chain.inj h).1) (fun merged => [(Key.number a.next, Thunk.merge merged)])
      fun b => { b with helpers := b.helpers.insert .mergeBranches }).of_iff ?_
    exact and_iff_right trivial
  | .loop info children =>
    rw [Node.strip, Node.within, List.forall_mem_cons]
    -- Keys start over inside the loop, or go on.
    by_cases hl : capabilities.localKeys = true
    · rw [Node.extract_loop_local hl, Node.extract_loop_local hl]
      refine ((Node.extractAll_unkeyed capabilities children { a with next := 0 }).map
        (f := Node.loop { info with key := some (Key.number a.next) })
        (fun _ _ h => (Node.loop.inj h).2) (fun record => [(Key.number a.next,
          Thunk.loop info.source info.item info.index info.depth record)])
        fun b => ⟨a.next + 1, b.helpers.insert .forEach⟩).of_iff ?_
      exact and_iff_right trivial
    · rw [Node.extract_loop_shared hl, Node.extract_loop_shared hl]
      refine ((Node.extractAll_unkeyed capabilities children { a with next := a.next + 1 }).map
        (f := Node.loop { info with key := some (Key.number a.next) })
        (fun _ _ h => (Node.loop.inj h).2) (fun record => [(Key.number a.next,
          Thunk.loop info.source info.item info.index info.depth record)])
        fun b => { b with helpers := b.helpers.insert .forEach }).of_iff ?_
      exact and_iff_right trivial
  | .comment value location =>
    exact (Rekeyed.refl _).of_iff (by simp [Node.within, Node.IsRekeyed])

theorem Node.extractAll_unkeyed (capabilities : Capabilities) (ns : List Node) (a : Allocation) :
    Rekeyed (Node.extractAll capabilities ns a)
      (Node.extractAll capabilities (Node.stripAll SlotInfo.unkeyed ns) a)
      (∀ m ∈ Node.withinAll ns, m.IsRekeyed capabilities.family) := by
  match ns with
  | [] => exact (Rekeyed.refl _).of_iff (by simp [Node.withinAll])
  | n :: rest =>
    rw [Node.stripAll, Node.extractAll, Node.extractAll, Node.withinAll, List.forall_mem_append]
    exact (Node.extract_unkeyed capabilities n a).andThen
      (Node.extractAll_unkeyed capabilities rest _) (f := List.cons) (fun _ _ _ _ => List.cons.inj)
      (· ++ ·)

theorem Branch.extractAll_unkeyed (capabilities : Capabilities) (bs : List Branch)
    (a : Allocation) :
    Rekeyed (Branch.extractAll capabilities bs a)
      (Branch.extractAll capabilities (Branch.stripAll SlotInfo.unkeyed bs) a)
      (∀ m ∈ Branch.withinAll bs, m.IsRekeyed capabilities.family) := by
  match bs with
  | [] => exact (Rekeyed.refl _).of_iff (by simp [Branch.withinAll])
  | .mk info children :: rest =>
    rw [Branch.stripAll, Branch.extractAll_cons, Branch.extractAll_cons, Branch.withinAll,
      List.forall_mem_append]
    refine (Node.extractAll_unkeyed capabilities children
      (extractCondition info.condition a).2).andThen
      (Branch.extractAll_unkeyed capabilities rest _)
      (f := fun children rest =>
        .mk { info with key := (extractCondition info.condition a).1.1 } children :: rest) ?_
      fun record merged => MergeBranch.mk info.condition (extractCondition info.condition a).1.1
        ((extractCondition info.condition a).1.2 ++ record) :: merged
    intro c c' bs bs' h
    obtain ⟨hb, hbs⟩ := List.cons.inj h
    exact ⟨(Branch.mk.inj hb).2, hbs⟩

end

end UiTemplate
