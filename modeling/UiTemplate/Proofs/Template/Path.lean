import UiTemplate.Proofs.Template.Tree

/-!
# Following paths

- `Template.at?`: the node at a path of a tree.
- `Template.Leads`, `Template.LeadsInto`: the children of a node and the nodes of branches are at the
  paths that a walk gives them. Every walk over a tree starts from `Template.leads_root` and goes on
  by `Template.leads_children` and `Template.leadsInto_branches`.
- `Template.at?_strip`: keys and outlets do not matter for where a path leads.
-/

namespace UiTemplate

/-- The nodes right below a node. Those of a chain are in its branches. -/
def Node.children : Node → List Node
  | .element _ children => children
  | .slot _ fallback => fallback
  | .loop _ children => children
  | _ => []

/-- The node at a path below a node. A chain is left in two steps: by the index of a branch, and by
0 to the node of the branch. -/
def Node.at? : Path → Node → Option Node
  | [], n => some n
  | i :: 0 :: path, .chain branches _ _ =>
    branches[i]?.bind fun b => b.children.head?.bind fun n => Node.at? path n
  | i :: path, n => n.children[i]?.bind fun m => Node.at? path m

/-- The node at a path of a tree. -/
def Template.at? (nodes : List Node) : Path → Option Node
  | [] => none
  | i :: path => nodes[i]?.bind (Node.at? path)

/-! ## Steps -/

theorem Node.at?_cons {n : Node} (hn : ∀ branches key location, n ≠ .chain branches key location)
    (i : Nat) (path : Path) : Node.at? (i :: path) n = n.children[i]?.bind (Node.at? path) := by
  rw [Node.at?]
  intro _ branches key location h _
  exact hn branches key location h

/-- A path goes on from the node that it has reached. -/
theorem Node.at?_append {path : Path} {n m : Node} (h : Node.at? path n = some m) (more : Path) :
    Node.at? (path ++ more) n = Node.at? more m := by
  fun_induction Node.at? path n with
  | case1 n =>
    cases h
    rfl
  | case2 i path branches key location ih =>
    obtain ⟨b, hb, h⟩ := Option.bind_eq_some_iff.mp h
    obtain ⟨child, hchild, h⟩ := Option.bind_eq_some_iff.mp h
    rw [List.cons_append, List.cons_append, Node.at?, hb, Option.bind_some, hchild,
      Option.bind_some, ih child h]
  | case3 i path n hn ih =>
    obtain ⟨child, hchild, h⟩ := Option.bind_eq_some_iff.mp h
    have hchain : ∀ branches key location, n ≠ .chain branches key location := by
      rintro branches key location rfl
      cases hchild
    rw [List.cons_append, Node.at?_cons hchain, hchild, Option.bind_some, ih child h]

namespace Template

variable {root : List Node} {path parent : Path} {index : Nat}

theorem at?_append {n : Node} (h : at? root path = some n) (more : Path) :
    at? root (path ++ more) = Node.at? more n := by
  cases path with
  | nil => cases h
  | cons i path =>
    obtain ⟨m, hm, h⟩ := Option.bind_eq_some_iff.mp h
    rw [List.cons_append, at?, hm, Option.bind_some, Node.at?_append h]

/-! ## Walks -/

/-- The nodes are at the children of a path, from an index on. -/
def Leads (root : List Node) (parent : Path) (index : Nat) (nodes : List Node) : Prop :=
  ∀ i n, nodes[i]? = some n → at? root (parent.child (index + i)) = some n

/-- The first nodes of the branches are at the branches of a path, from an index on. -/
def LeadsInto (root : List Node) (parent : Path) (index : Nat) (branches : List Branch) : Prop :=
  ∀ i b n, branches[i]? = some b → b.children.head? = some n →
    at? root ((parent.child (index + i)).child 0) = some n

theorem Leads.head {n : Node} {rest : List Node} (h : Leads root parent index (n :: rest)) :
    at? root (parent.child index) = some n :=
  h 0 n rfl

theorem Leads.tail {n : Node} {rest : List Node} (h : Leads root parent index (n :: rest)) :
    Leads root parent (index + 1) rest := by
  intro i m hm
  rw [Nat.add_right_comm]
  exact h (i + 1) m hm

theorem LeadsInto.head {info : BranchInfo} {n : Node} {more : List Node} {rest : List Branch}
    (h : LeadsInto root parent index (.mk info (n :: more) :: rest)) :
    at? root ((parent.child index).child 0) = some n :=
  h 0 _ n rfl rfl

theorem LeadsInto.tail {b : Branch} {rest : List Branch}
    (h : LeadsInto root parent index (b :: rest)) : LeadsInto root parent (index + 1) rest := by
  intro i c n hc hn
  rw [Nat.add_right_comm]
  exact h (i + 1) c n hc hn

theorem leads_root : Leads root [] 0 root := by
  intro i n hn
  rw [Nat.zero_add]
  show root[i]?.bind (Node.at? []) = some n
  rw [hn]
  rfl

theorem leads_children {n : Node} (h : at? root path = some n) : Leads root path 0 n.children := by
  intro i m hm
  have hchain : ∀ branches key location, n ≠ .chain branches key location := by
    rintro branches key location rfl
    cases hm
  rw [Nat.zero_add, Path.child, at?_append h, Node.at?_cons hchain, hm]
  rfl

theorem leadsInto_branches {branches : List Branch} {key : Option Key} {location : Location}
    (h : at? root path = some (.chain branches key location)) :
    LeadsInto root path 0 branches := by
  intro i b n hb hn
  rw [Nat.zero_add, Path.child, Path.child, List.append_assoc, at?_append h]
  show branches[i]?.bind (fun b => b.children.head?.bind (Node.at? [])) = some n
  rw [hb, Option.bind_some, hn]
  rfl

end Template

/-! ## Trees without keys -/

section Strip

variable (f : SlotInfo → SlotInfo)

theorem Node.stripAll_eq_map (ns : List Node) : Node.stripAll f ns = ns.map (Node.strip f) := by
  induction ns with
  | nil => rfl
  | cons n ns ih => rw [Node.stripAll, ih, List.map_cons]

theorem Node.children_strip (n : Node) : (n.strip f).children = n.children.map (Node.strip f) := by
  cases n with
  | element info children => exact Node.stripAll_eq_map f children
  | slot info fallback => exact Node.stripAll_eq_map f fallback
  | loop info children => exact Node.stripAll_eq_map f children
  | _ => rfl

theorem Branch.head?_stripAll (branches : List Branch) (i : Nat) :
    (Branch.stripAll f branches)[i]?.bind (fun b => b.children.head?) =
      (branches[i]?.bind fun b => b.children.head?).map (Node.strip f) := by
  induction branches generalizing i with
  | nil => rfl
  | cons b branches ih =>
    obtain ⟨info, children⟩ := b
    cases i with
    | zero =>
      show (Node.stripAll f children).head? = children.head?.map (Node.strip f)
      rw [Node.stripAll_eq_map, List.head?_map]
    | succ i => exact ih i

/-- Keys and outlets do not matter for where a path leads. -/
theorem Node.at?_strip (path : Path) (n : Node) :
    Node.at? path (n.strip f) = (Node.at? path n).map (Node.strip f) := by
  fun_induction Node.at? path n with
  | case1 n => rfl
  | case2 i path branches key location ih =>
    have hhead := Branch.head?_stripAll f branches i
    rw [Node.strip, Node.at?, ← Option.bind_assoc, hhead, ← Option.bind_assoc]
    cases branches[i]?.bind fun b => b.children.head? with
    | none => rfl
    | some child => exact ih child
  | case3 i path n hn ih =>
    cases n with
    | chain branches key location =>
      -- A chain has no children: only the index of a branch and 0 lead on.
      rcases path with - | ⟨_ | j, path⟩
      · rfl
      · exact (hn path branches key location rfl rfl).elim
      · rfl
    | _ =>
      rw [Node.at?_cons, Node.children_strip, List.getElem?_map]
      · cases (Node.children _)[i]? with
        | none => rfl
        | some child => exact ih child
      · exact nofun

theorem Template.at?_strip (nodes : List Node) (path : Path) :
    at? (Node.stripAll f nodes) path = (at? nodes path).map (Node.strip f) := by
  cases path with
  | nil => rfl
  | cons i path =>
    rw [at?, at?, Node.stripAll_eq_map, List.getElem?_map]
    cases nodes[i]? with
    | none => rfl
    | some n => exact Node.at?_strip f path n

/-- In trees that are the same without keys, a path leads to nodes that are. -/
theorem Template.at?_of_stripAll_eq {nodes nodes' : List Node} {path : Path} {n : Node}
    (h : Node.stripAll f nodes = Node.stripAll f nodes') (hn : at? nodes path = some n) :
    ∃ n', at? nodes' path = some n' ∧ n'.strip f = n.strip f := by
  have hstrip := at?_strip f nodes' path
  rw [← h, at?_strip, hn] at hstrip
  obtain ⟨n', hn', he⟩ := Option.map_eq_some_iff.mp hstrip.symm
  exact ⟨n', hn', he⟩

end Strip

end UiTemplate
