import UiTemplate.Proofs.Template.WellFormed

/-!
# The shape of trees that were read

- `Template.parse_isSingle`: in a tree that was read, a loop repeats one node, and a branch has one
  that is no comment.
- `Template.parse_isOrdered`: in such a tree every branch of a chain but the last has a condition.
-/

namespace UiTemplate

/-- Whether the node is a comment. -/
def Node.isComment : Node → Bool
  | .comment .. => true
  | _ => false

/-- A loop repeats one node, and the branches of a chain have one each, which is no comment. -/
def Node.IsSingle : Node → Prop
  | .loop _ children => ∃ n, children = [n]
  | .chain branches _ _ => ∀ b ∈ branches, ∃ n, b.children = [n] ∧ n.isComment = false
  | _ => True

/-- The node and those below it are of this shape. -/
def Node.Shaped (n : Node) : Prop :=
  ∀ m ∈ n.within, m.IsSingle

/-- The nodes and those below them are of this shape. -/
def Node.ShapedAll (ns : List Node) : Prop :=
  ∀ m ∈ Node.withinAll ns, m.IsSingle

theorem Node.shapedAll_cons {n : Node} {ns : List Node} :
    Node.ShapedAll (n :: ns) ↔ n.Shaped ∧ Node.ShapedAll ns :=
  List.forall_mem_append

theorem Node.WellFormed.isComment {depth : Nat} {role : ChainRole}
    {loop : Option (Expression × String × Option String)} {n : Node}
    (h : n.WellFormed depth (some role) loop) : n.isComment = false := by
  cases h <;> rfl

theorem Branch.WellFormedAll.single {depth : Nat} {bs : List Branch}
    (h : Branch.WellFormedAll depth bs) :
    ∀ b ∈ bs, ∃ n, b.children = [n] ∧ n.isComment = false := by
  induction bs with
  | nil => exact fun b hb => absurd hb List.not_mem_nil
  | cons b bs ih =>
    cases h with
    | cons _ _ below others =>
      exact List.forall_mem_cons.mpr ⟨⟨_, rfl, below.isComment⟩, ih others⟩

/-- A well-formed node is of this shape. -/
theorem Node.WellFormed.isSingle {depth : Nat} {role : Option ChainRole}
    {loop : Option (Expression × String × Option String)} {n : Node}
    (h : n.WellFormed depth role loop) : n.IsSingle := by
  cases h with
  | chain _ below => exact below.single
  | @loop _ _ _ child _ _ _ => exact ⟨child, rfl⟩
  | _ => trivial

/-- In a tree that was read, a loop repeats one node, and a branch has one that is no comment. -/
theorem Template.parse_isSingle {options : ParseOptions} {source : String} {nodes : List Node}
    (h : Template.parse options source = .ok nodes) :
    ∀ n ∈ Node.withinAll nodes, n.IsSingle :=
  Template.parse_forall_within Node.WellFormed.isSingle h

/-! ## Trees without keys -/

theorem Node.isComment_strip (f : SlotInfo → SlotInfo) (n : Node) :
    (n.strip f).isComment = n.isComment := by
  cases n <;> rfl

theorem Branch.isSingle_stripAll (f : SlotInfo → SlotInfo) (bs : List Branch) :
    (∀ b ∈ Branch.stripAll f bs, ∃ n, b.children = [n] ∧ n.isComment = false) ↔
      ∀ b ∈ bs, ∃ n, b.children = [n] ∧ n.isComment = false := by
  induction bs with
  | nil => exact Iff.rfl
  | cons b bs ih =>
    obtain ⟨info, children⟩ := b
    rw [Branch.stripAll, List.forall_mem_cons, List.forall_mem_cons, ih]
    refine and_congr ?_ Iff.rfl
    show (∃ n, Node.stripAll f children = [n] ∧ n.isComment = false) ↔
      ∃ n, children = [n] ∧ n.isComment = false
    match children with
    | [] => simp [Node.stripAll]
    | [n] => simp [Node.stripAll, Node.isComment_strip]
    | _ :: _ :: _ => simp [Node.stripAll]

theorem Node.isSingle_strip (f : SlotInfo → SlotInfo) (n : Node) :
    (n.strip f).IsSingle ↔ n.IsSingle := by
  cases n with
  | chain branches key l => exact Branch.isSingle_stripAll f branches
  | loop info children => exact Node.stripAll_eq_singleton
  | _ => exact Iff.rfl

/-! ## Conditions -/

/-- Every branch of a chain but the last has a condition. -/
def Node.IsOrdered : Node → Prop
  | .chain branches _ _ => ∀ c ∈ (branches.map fun b => b.info.condition).dropLast, c ≠ none
  | _ => True

theorem BranchKind.areChain.dropLast {kinds : List BranchKind} (h : areChain kinds) :
    ∀ k ∈ kinds.dropLast, k ≠ .otherwise := by
  have hopen {kinds : List BranchKind} (h : areOpen kinds) : ∀ k ∈ kinds, k ≠ .otherwise := by
    obtain ⟨n, rfl⟩ := h
    simp
  rcases h with h | ⟨before, h, rfl⟩
  · exact fun k hk => hopen h k (List.dropLast_subset _ hk)
  · rw [List.dropLast_concat]
    exact hopen h

theorem Branch.WellFormedAll.condition {depth : Nat} {bs : List Branch}
    (h : Branch.WellFormedAll depth bs) :
    ∀ b ∈ bs, b.info.kind ≠ .otherwise → b.info.condition ≠ none := by
  induction bs with
  | nil => exact fun b hb => absurd hb List.not_mem_nil
  | cons b bs ih =>
    cases h with
    | cons place _ _ others =>
      refine List.forall_mem_cons.mpr ⟨fun hkind hcondition => ?_, ih others⟩
      rw [BranchInfo.role?] at place
      split at place
      · simp_all [Branch.info]
      · simp_all [Branch.info]
      · simp_all [Branch.info]
      · cases place

theorem Node.WellFormed.isOrdered {depth : Nat} {role : Option ChainRole}
    {loop : Option (Expression × String × Option String)} {n : Node}
    (h : n.WellFormed depth role loop) : n.IsOrdered := by
  cases h with
  | @chain _ branches _ order below =>
    intro c hc
    rw [← List.map_dropLast] at hc
    obtain ⟨b, hb, rfl⟩ := List.mem_map.mp hc
    refine below.condition b (List.dropLast_subset _ hb) (order.dropLast _ ?_)
    rw [← List.map_dropLast]
    exact List.mem_map_of_mem hb
  | _ => trivial

/-- In a tree that was read, every branch of a chain but the last has a condition. -/
theorem Template.parse_isOrdered {options : ParseOptions} {source : String} {nodes : List Node}
    (h : Template.parse options source = .ok nodes) :
    ∀ n ∈ Node.withinAll nodes, n.IsOrdered :=
  Template.parse_forall_within Node.WellFormed.isOrdered h

end UiTemplate
