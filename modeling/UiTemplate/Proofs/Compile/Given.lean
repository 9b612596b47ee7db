import UiTemplate.Proofs.Compile.Retarget
import UiTemplate.Proofs.Template.Shape

/-!
# What annotating a tree gives its nodes

- `Node.IsAnnotated`: a slot is resolved and has just the keys of what is bound of it, and a branch
  has a key exactly if it has a condition.
- `Template.annotate_isAnnotated`: this holds of all nodes of a tree that was read and annotated.
- `Template.annotate_governs`: in such a tree a chain has branches, of which one has no condition
  exactly if it takes all other cases, and a loop repeats no comment.
-/

namespace UiTemplate

/-- A slot is resolved and has just the keys of what a platform binds of it. A branch has a key
exactly if it has a condition. -/
def Node.IsAnnotated (capabilities : Capabilities) : Node → Prop
  | .slot info fallback =>
    info.keys.IsGiven capabilities.family info ∧
      ∃ r, info.resolution = some r ∧ r.fallback = Outlet.policyFor capabilities fallback
  | .chain branches _ _ => ∀ b ∈ branches, b.info.key.isSome = b.info.condition.isSome
  | _ => True

theorem Outlet.policyFor_congr (capabilities : Capabilities) {ns ns' : List Node}
    (h : ns = [] ↔ ns' = []) :
    policyFor capabilities ns = policyFor capabilities ns' := by
  rw [policyFor, policyFor]
  cases ns <;> cases ns' <;> simp_all

section Annotated

variable (capabilities : Capabilities)

theorem Node.extractAll_eq_nil {ns : List Node} {a : Allocation} :
    (Node.extractAll capabilities ns a).1.1 = [] ↔ ns = [] := by
  cases ns with
  | nil => exact iff_of_true rfl rfl
  | cons n ns =>
    rw [Node.extractAll]
    exact iff_of_false (List.cons_ne_nil _ _) (List.cons_ne_nil _ _)

theorem Branch.extractAll_keys (bs : List Branch) (a : Allocation) :
    ∀ b ∈ (Branch.extractAll capabilities bs a).1.1,
      b.info.key.isSome = b.info.condition.isSome := by
  induction bs generalizing a with
  | nil => exact fun b hb => absurd hb List.not_mem_nil
  | cons b bs ih =>
    obtain ⟨info, children⟩ := b
    rw [Branch.extractAll_cons]
    refine List.forall_mem_cons.mpr ⟨?_, ih _⟩
    cases info with
    | mk kind condition key location => cases condition <;> rfl

mutual

theorem Node.isAnnotated (loops : List Nat) (branch : Option Nat) (n : Node) (a : Allocation) :
    ∀ m ∈ (((n.strip SlotInfo.plain).resolveSlots capabilities loops branch).extract
      capabilities a).1.1.within, m.IsAnnotated capabilities := by
  match n with
  | .element info children =>
    rw [Node.strip, Node.resolveSlots, Node.extract]
    exact List.forall_mem_cons.mpr ⟨trivial, Node.isAnnotatedAll loops branch children _⟩
  | .text .. => exact List.forall_mem_singleton.mpr trivial
  | .interpolation .. => exact List.forall_mem_singleton.mpr trivial
  | .slot info fallback =>
    let resolution :=
      Outlet.resolve capabilities loops branch info (Node.stripAll SlotInfo.plain fallback)
    obtain ⟨given, hgiven, record, after, hover⟩ :=
      extractSlot_over { info with resolution := some resolution } a capabilities
    have hslot : extractSlot capabilities { info.plain with resolution := some resolution } a =
        (({ info with resolution := some resolution, keys := given }, record), after) :=
      (hover {}).trans (by rw [SlotKeys.over_empty])
    show ∀ m ∈ ((Node.slot { info.plain with resolution := some resolution } _).extract
      capabilities a).1.1.within, _
    rw [Node.extract_slot, hslot]
    refine List.forall_mem_cons.mpr
      ⟨⟨⟨hgiven.name, hgiven.outlet⟩, _, rfl, ?_⟩, Node.isAnnotatedAll loops branch fallback after⟩
    refine Outlet.policyFor_congr capabilities ?_
    rw [Node.extractAll_eq_nil, Node.resolveSlotsAll_eq_nil]
  | .chain branches key l =>
    rw [Node.strip, Node.resolveSlots, Node.extract]
    exact List.forall_mem_cons.mpr
      ⟨Branch.extractAll_keys capabilities _ _, Branch.isAnnotatedAll loops 0 branches _⟩
  | .loop info children =>
    rw [Node.strip, Node.resolveSlots]
    by_cases hl : capabilities.localKeys = true
    · rw [Node.extract_loop_local hl]
      exact List.forall_mem_cons.mpr ⟨trivial, Node.isAnnotatedAll _ branch children _⟩
    · rw [Node.extract_loop_shared hl]
      exact List.forall_mem_cons.mpr ⟨trivial, Node.isAnnotatedAll _ branch children _⟩
  | .comment .. => exact List.forall_mem_singleton.mpr trivial

theorem Node.isAnnotatedAll (loops : List Nat) (branch : Option Nat) (ns : List Node)
    (a : Allocation) :
    ∀ m ∈ Node.withinAll (Node.extractAll capabilities
      (Node.resolveSlotsAll capabilities loops branch (Node.stripAll SlotInfo.plain ns)) a).1.1,
      m.IsAnnotated capabilities := by
  match ns with
  | [] => exact fun m hm => absurd hm List.not_mem_nil
  | n :: rest =>
    rw [Node.stripAll, Node.resolveSlotsAll, Node.extractAll]
    exact List.forall_mem_append.mpr
      ⟨Node.isAnnotated loops branch n a, Node.isAnnotatedAll loops branch rest _⟩

theorem Branch.isAnnotatedAll (loops : List Nat) (index : Nat) (bs : List Branch)
    (a : Allocation) :
    ∀ m ∈ Branch.withinAll (Branch.extractAll capabilities
      (Branch.resolveSlotsAll capabilities loops index (Branch.stripAll SlotInfo.plain bs)) a).1.1,
      m.IsAnnotated capabilities := by
  match bs with
  | [] => exact fun m hm => absurd hm List.not_mem_nil
  | .mk info children :: rest =>
    rw [Branch.stripAll, Branch.resolveSlotsAll, Branch.extractAll_cons]
    exact List.forall_mem_append.mpr
      ⟨Node.isAnnotatedAll loops (some index) children _,
        Branch.isAnnotatedAll loops (index + 1) rest _⟩

end

end Annotated

/-- All nodes of a tree that was read and annotated are as the platform asks for. -/
theorem Template.annotate_isAnnotated {options : ParseOptions} {source : String}
    {nodes : List Node} (h : Template.parse options source = .ok nodes)
    (capabilities : Capabilities) :
    ∀ n ∈ Node.withinAll (Template.annotate capabilities nodes).nodes,
      n.IsAnnotated capabilities := by
  have hall := Node.isAnnotatedAll capabilities [] none nodes {}
  rw [Template.parse_plain h] at hall
  exact hall

/-! ## Conditions -/

/-- The place of a branch in its chain, and its condition. -/
def Branch.test (b : Branch) : BranchKind × Option Expression :=
  (b.info.kind, b.info.condition)

/-- A chain has branches, of which one has no condition exactly if it takes all other cases, and a
loop repeats no comment. -/
def Node.Governs : Node → Prop
  | .chain branches _ _ =>
    branches ≠ [] ∧ ∀ t ∈ branches.map Branch.test, t.1 = .otherwise ↔ t.2 = none
  | .loop _ children => ∀ n ∈ children, n.isComment = false
  | _ => True

theorem Branch.map_test_stripAll (f : SlotInfo → SlotInfo) (bs : List Branch) :
    (Branch.stripAll f bs).map Branch.test = bs.map Branch.test := by
  induction bs with
  | nil => rfl
  | cons b bs ih =>
    obtain ⟨info, children⟩ := b
    exact congrArg ((info.kind, info.condition) :: ·) ih

theorem Branch.stripAll_eq_nil {f : SlotInfo → SlotInfo} {bs : List Branch} :
    Branch.stripAll f bs = [] ↔ bs = [] := by
  match bs with
  | [] => exact iff_of_true rfl rfl
  | .mk info children :: rest => exact iff_of_false (List.cons_ne_nil _ _) (List.cons_ne_nil _ _)

theorem Node.isComment_stripAll (f : SlotInfo → SlotInfo) (ns : List Node) :
    (∀ n ∈ Node.stripAll f ns, n.isComment = false) ↔ ∀ n ∈ ns, n.isComment = false := by
  induction ns with
  | nil => exact Iff.rfl
  | cons n ns ih =>
    rw [Node.stripAll, List.forall_mem_cons, List.forall_mem_cons, ih, Node.isComment_strip]

theorem Node.governs_strip (f : SlotInfo → SlotInfo) (n : Node) :
    (n.strip f).Governs ↔ n.Governs := by
  cases n with
  | chain branches key l =>
    rw [Node.strip, Node.Governs, Node.Governs, Branch.map_test_stripAll, ne_eq, ne_eq,
      Branch.stripAll_eq_nil]
  | loop info children => exact Node.isComment_stripAll f children
  | _ => exact Iff.rfl

theorem Branch.WellFormedAll.isTested {depth : Nat} {bs : List Branch}
    (h : Branch.WellFormedAll depth bs) :
    ∀ t ∈ bs.map Branch.test, t.1 = .otherwise ↔ t.2 = none := by
  induction bs with
  | nil => exact fun t ht => absurd ht List.not_mem_nil
  | cons b bs ih =>
    cases h with
    | @cons _ info _ _ _ place _ _ others =>
      refine List.forall_mem_cons.mpr ⟨?_, ih others⟩
      rw [BranchInfo.role?] at place
      show info.kind = .otherwise ↔ info.condition = none
      split at place <;> simp_all

theorem Node.WellFormed.governs {depth : Nat} {role : Option ChainRole}
    {loop : Option (Expression × String × Option String)} {n : Node}
    (h : n.WellFormed depth role loop) : n.Governs := by
  cases h with
  | chain order below =>
    refine ⟨?_, below.isTested⟩
    rintro rfl
    rcases order with ⟨n, hn⟩ | ⟨before, -, hbefore⟩
    · cases hn
    · exact absurd hbefore (by simp)
  | loop nesting unkeyed below =>
    refine List.forall_mem_singleton.mpr ?_
    cases below <;> rfl
  | _ => trivial

/-- In a tree that was read and annotated, a chain has branches, of which one has no condition
exactly if it takes all other cases, and a loop repeats no comment. -/
theorem Template.annotate_governs {options : ParseOptions} {source : String} {nodes : List Node}
    (h : Template.parse options source = .ok nodes) (capabilities : Capabilities) :
    ∀ n ∈ Node.withinAll (Template.annotate capabilities nodes).nodes, n.Governs :=
  (Node.forall_within_of_stripAll_eq SlotInfo.plain (Node.governs_strip SlotInfo.plain)
    (Template.annotate_strip capabilities nodes)).mpr
    (Template.parse_forall_within Node.WellFormed.governs h)

end UiTemplate
