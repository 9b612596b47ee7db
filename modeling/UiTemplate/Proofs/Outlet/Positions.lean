import Mathlib.Data.List.Lex
import UiTemplate.Proofs.Outlet.Sites
import UiTemplate.Proofs.Template.Path

/-!
# Slots by their paths

What the walk over a tree notes of a slot can be read off the path of the slot alone, in any tree.

- `Template.reach?`: the node at a path. Every node of a branch has a path here, not only the first
  one that backends look at.
- `Template.Passes`: the branches of chains that a path goes through.
- `Template.slotSites_reach`, `Template.exists_slotSite`: the slots that the walk lists are those
  that paths lead to, with as many loops and in the same branches.
- `Template.slotSites_increasing`: they are listed in the order of the text, each once.
-/

namespace UiTemplate

/-! ## Following paths -/

/-- The node at a path below a node. A chain is left in two steps: by the index of a branch, and by
the index of a node in it. -/
def Node.reach? : Path → Node → Option Node
  | [], n => some n
  | i :: j :: path, .chain branches _ _ =>
    branches[i]?.bind fun b => b.children[j]?.bind fun n => Node.reach? path n
  | i :: path, n => n.children[i]?.bind fun m => Node.reach? path m

/-- Whether a node is a chain. -/
def Node.IsChain : Node → Prop
  | .chain .. => True
  | _ => False

namespace Template

/-- The node at a path of a tree. -/
def reach? (nodes : List Node) : Path → Option Node
  | [] => none
  | i :: path => nodes[i]?.bind (Node.reach? path)

/-- A path goes through the branch with the index `c.2` of the chain at the path `c.1`. -/
def Passes (nodes : List Node) (path : Path) (c : Path × Nat) : Prop :=
  c.1 ++ [c.2] <+: path ∧ ∃ n, reach? nodes c.1 = some n ∧ n.IsChain

end Template

/-- A path that starts at a node goes through the branch with the index `c.2` of the chain at
`c.1`, where `base` is the path of the node. -/
def Node.Passes (n : Node) (base path : Path) (c : Path × Nat) : Prop :=
  ∃ stem m, c.1 = base ++ stem ∧ stem ++ [c.2] <+: path ∧ n.reach? stem = some m ∧ m.IsChain

section Steps

variable {n m : Node} {i j : Nat} {path : Path}

theorem Node.reach?_cons (hn : ¬n.IsChain) (i : Nat) (path : Path) :
    Node.reach? (i :: path) n = n.children[i]?.bind (Node.reach? path) := by
  cases n with
  | chain => exact absurd trivial hn
  | _ => cases path <;> rfl

theorem Node.passes_cons (hn : ¬n.IsChain) (hm : n.children[i]? = some m) (base : Path)
    (c : Path × Nat) : n.Passes base (i :: path) c ↔ m.Passes (base.child i) path c := by
  constructor
  · rintro ⟨stem, k, hc, hpre, hk, hchain⟩
    cases stem with
    | nil =>
      cases hk
      exact absurd hchain hn
    | cons l stem =>
      obtain ⟨rfl, hbelow⟩ := List.cons_prefix_cons.mp hpre
      refine ⟨stem, k, by simpa [Path.child] using hc, hbelow, ?_, hchain⟩
      simpa [Node.reach?_cons hn, hm] using hk
  · rintro ⟨stem, k, hc, hpre, hk, hchain⟩
    refine ⟨i :: stem, k, by simpa [Path.child] using hc, ?_, ?_, hchain⟩
    · simpa using hpre
    · simpa [Node.reach?_cons hn, hm] using hk

theorem Node.passes_chain {branches : List Branch} {key : Option Key} {location : Location}
    {b : Branch} (hb : branches[i]? = some b) (hm : b.children[j]? = some m) (base : Path)
    (c : Path × Nat) :
    (Node.chain branches key location).Passes base (i :: j :: path) c ↔
      c = (base, i) ∨ m.Passes ((base.child i).child j) path c := by
  obtain ⟨c, k⟩ := c
  constructor
  · rintro ⟨stem, k', rfl, hpre, hk, hchain⟩
    rcases stem with - | ⟨l, - | ⟨l', stem⟩⟩
    · obtain ⟨rfl, -⟩ := List.cons_prefix_cons.mp hpre
      exact .inl (by simp)
    · cases hk
    · obtain ⟨rfl, hbranch⟩ := List.cons_prefix_cons.mp hpre
      obtain ⟨rfl, hbelow⟩ := List.cons_prefix_cons.mp hbranch
      refine .inr ⟨stem, k', by simp [Path.child], hbelow, ?_, hchain⟩
      simpa [Node.reach?, hb, hm] using hk
  · rintro (h | ⟨stem, k', rfl, hpre, hk, hchain⟩)
    · obtain ⟨rfl, rfl⟩ := Prod.mk.inj h
      exact ⟨[], _, by simp, by simp, rfl, trivial⟩
    · refine ⟨i :: j :: stem, k', by simp [Path.child], ?_, ?_, hchain⟩
      · simpa using hpre
      · simpa [Node.reach?, hb, hm] using hk

theorem Node.loopsToAll_cons {ns : List Node} (hn : ns[i]? = some n) (path : Path) :
    Node.loopsToAll ns (i :: path) = n.loopsTo path := by
  induction ns generalizing i with
  | nil => simp at hn
  | cons m ns ih =>
    cases i with
    | zero =>
      cases hn
      rw [Node.loopsToAll]
    | succ i =>
      rw [Node.loopsToAll]
      exact ih hn

theorem Branch.loopsToAll_cons {bs : List Branch} {b : Branch} (hb : bs[i]? = some b)
    (path : Path) : Branch.loopsToAll bs (i :: path) = Node.loopsToAll b.children path := by
  induction bs generalizing i with
  | nil => simp at hb
  | cons b' bs ih =>
    cases i with
    | zero =>
      cases hb
      obtain ⟨info, children⟩ := b
      rw [Branch.loopsToAll, Branch.children]
    | succ i =>
      rw [Branch.loopsToAll]
      exact ih hb

end Steps

/-! ## A slot at a path -/

/-- What the walk notes of the slot at the path `rest` below a node, if it comes to the node at
`base`, inside `loops` and `branches`. -/
structure SlotSite.At (s : SlotSite) (base : Path) (loops : List Nat)
    (branches : List (Path × Nat)) (n : Node) (rest : Path) : Prop where
  path_eq : s.path = base ++ rest
  reach : n.reach? rest = some (.slot s.slot s.fallback)
  loops_eq : s.loops.length = loops.length + n.loopsTo rest
  branches_iff : ∀ c, c ∈ s.branches ↔ c ∈ branches ∨ n.Passes base rest c

namespace SlotSite.At

variable {s : SlotSite} {base rest : Path} {loops loops' : List Nat}
  {branches : List (Path × Nat)} {n m : Node} {i j : Nat}

theorem here (base : Path) (loops : List Nat) (branches : List (Path × Nat)) (info : SlotInfo)
    (fallback : List Node) :
    SlotSite.At ⟨base, info, fallback, loops, branches⟩ base loops branches
      (.slot info fallback) [] where
  path_eq := by simp
  reach := rfl
  loops_eq := by simp [Node.loopsTo, Node.loopsToAll]
  branches_iff c := by simp [Node.Passes]

/-- From a child of a node that is no chain. -/
theorem step (h : s.At (base.child i) loops' branches m rest) (hn : ¬n.IsChain)
    (hm : n.children[i]? = some m)
    (hl : loops'.length + m.loopsTo rest = loops.length + n.loopsTo (i :: rest)) :
    s.At base loops branches n (i :: rest) where
  path_eq := by simpa [Path.child] using h.path_eq
  reach := by simpa [Node.reach?_cons hn, hm] using h.reach
  loops_eq := by rw [h.loops_eq, hl]
  branches_iff c := by rw [h.branches_iff, Node.passes_cons hn hm]

/-- From a node of a branch. -/
theorem branchStep {members : List Branch} {key : Option Key} {location : Location} {b : Branch}
    (h : s.At ((base.child i).child j) loops (branches ++ [(base, i)]) m rest)
    (hb : members[i]? = some b) (hm : b.children[j]? = some m) :
    s.At base loops branches (.chain members key location) (i :: j :: rest) where
  path_eq := by simpa [Path.child] using h.path_eq
  reach := by simpa [Node.reach?, hb, hm] using h.reach
  loops_eq := by
    rw [h.loops_eq, Node.loopsTo, Branch.loopsToAll_cons hb, Node.loopsToAll_cons hm]
  branches_iff c := by
    rw [h.branches_iff, Node.passes_chain hb hm, List.mem_append, List.mem_singleton, or_assoc]

end SlotSite.At

/-! ## The slots of a tree -/

theorem Node.slotSitesAll_subset {parent : Path} {index i : Nat} {loops : List Nat}
    {branches : List (Path × Nat)} {ns : List Node} {n : Node} (hn : ns[i]? = some n) :
    n.slotSites (parent.child (index + i)) loops branches ⊆
      Node.slotSitesAll parent index loops branches ns := by
  induction ns generalizing index i with
  | nil => simp at hn
  | cons m ns ih =>
    rw [Node.slotSitesAll]
    cases i with
    | zero =>
      cases hn
      exact List.subset_append_left _ _
    | succ i =>
      have h : n.slotSites (parent.child (index + 1 + i)) loops branches ⊆ _ := ih hn
      rw [Nat.add_right_comm] at h
      exact List.subset_append_of_subset_right _ h

theorem Branch.slotSitesAll_subset {parent : Path} {index i : Nat} {loops : List Nat}
    {branches : List (Path × Nat)} {bs : List Branch} {b : Branch} (hb : bs[i]? = some b) :
    Node.slotSitesAll (parent.child (index + i)) 0 loops (branches ++ [(parent, index + i)])
        b.children ⊆ Branch.slotSitesAll parent index loops branches bs := by
  induction bs generalizing index i with
  | nil => simp at hb
  | cons b' bs ih =>
    obtain ⟨info, children⟩ := b'
    rw [Branch.slotSitesAll]
    cases i with
    | zero =>
      cases hb
      exact List.subset_append_left _ _
    | succ i =>
      have h : Node.slotSitesAll (parent.child (index + 1 + i)) 0 loops
          (branches ++ [(parent, index + 1 + i)]) b.children ⊆ _ := ih hb
      rw [Nat.add_right_comm] at h
      exact List.subset_append_of_subset_right _ h

mutual

theorem Node.slotSites_reach (n : Node) (base : Path) (loops : List Nat)
    (branches : List (Path × Nat)) :
    ∀ s ∈ n.slotSites base loops branches, ∃ rest, s.At base loops branches n rest := by
  match n with
  | .element info children =>
    intro s hs
    obtain ⟨i, m, rest, hm, h⟩ := Node.slotSitesAll_reach children base 0 loops branches s hs
    rw [Nat.zero_add] at h
    exact ⟨i :: rest, h.step (by simp [Node.IsChain]) hm
      (by rw [Node.loopsTo, Node.loopsToAll_cons hm])⟩
  | .text .. => exact fun s hs => absurd hs List.not_mem_nil
  | .interpolation .. => exact fun s hs => absurd hs List.not_mem_nil
  | .slot info fallback =>
    intro s hs
    rw [Node.slotSites] at hs
    rcases List.mem_cons.mp hs with rfl | hs
    · exact ⟨[], .here base loops branches info fallback⟩
    · obtain ⟨i, m, rest, hm, h⟩ := Node.slotSitesAll_reach fallback base 0 loops branches s hs
      rw [Nat.zero_add] at h
      exact ⟨i :: rest, h.step (by simp [Node.IsChain]) hm
        (by rw [Node.loopsTo, Node.loopsToAll_cons hm])⟩
  | .chain members key location =>
    intro s hs
    obtain ⟨i, b, j, m, rest, hb, hm, h⟩ :=
      Branch.slotSitesAll_reach members base 0 loops branches s hs
    rw [Nat.zero_add] at h
    exact ⟨i :: j :: rest, h.branchStep hb hm⟩
  | .loop info children =>
    intro s hs
    obtain ⟨i, m, rest, hm, h⟩ :=
      Node.slotSitesAll_reach children base 0 (loops ++ [info.depth]) branches s hs
    rw [Nat.zero_add] at h
    refine ⟨i :: rest, h.step (by simp [Node.IsChain]) hm ?_⟩
    rw [Node.loopsTo, Node.loopsToAll_cons hm, List.length_append, List.length_singleton]
    omega
  | .comment .. => exact fun s hs => absurd hs List.not_mem_nil

theorem Node.slotSitesAll_reach (ns : List Node) (parent : Path) (index : Nat) (loops : List Nat)
    (branches : List (Path × Nat)) :
    ∀ s ∈ Node.slotSitesAll parent index loops branches ns, ∃ i n rest,
      ns[i]? = some n ∧ s.At (parent.child (index + i)) loops branches n rest := by
  match ns with
  | [] => exact fun s hs => absurd hs List.not_mem_nil
  | n :: ns =>
    intro s hs
    rw [Node.slotSitesAll] at hs
    rcases List.mem_append.mp hs with hs | hs
    · obtain ⟨rest, h⟩ := Node.slotSites_reach n _ loops branches s hs
      exact ⟨0, n, rest, rfl, h⟩
    · obtain ⟨i, m, rest, hm, h⟩ :=
        Node.slotSitesAll_reach ns parent (index + 1) loops branches s hs
      rw [Nat.add_right_comm] at h
      exact ⟨i + 1, m, rest, hm, h⟩

theorem Branch.slotSitesAll_reach (bs : List Branch) (parent : Path) (index : Nat)
    (loops : List Nat) (branches : List (Path × Nat)) :
    ∀ s ∈ Branch.slotSitesAll parent index loops branches bs, ∃ i b j m rest,
      bs[i]? = some b ∧ b.children[j]? = some m ∧
        s.At ((parent.child (index + i)).child j) loops
          (branches ++ [(parent, index + i)]) m rest := by
  match bs with
  | [] => exact fun s hs => absurd hs List.not_mem_nil
  | .mk info children :: bs =>
    intro s hs
    rw [Branch.slotSitesAll] at hs
    rcases List.mem_append.mp hs with hs | hs
    · obtain ⟨j, m, rest, hm, h⟩ := Node.slotSitesAll_reach children _ 0 loops _ s hs
      rw [Nat.zero_add] at h
      exact ⟨0, .mk info children, j, m, rest, rfl, hm, h⟩
    · obtain ⟨i, b, j, m, rest, hb, hm, h⟩ :=
        Branch.slotSitesAll_reach bs parent (index + 1) loops branches s hs
      rw [Nat.add_right_comm] at h
      exact ⟨i + 1, b, j, m, rest, hb, hm, h⟩

end

/-- The walk comes to every slot that a path leads to. -/
theorem Node.exists_slotSite {rest : Path} {n : Node} {info : SlotInfo} {fallback : List Node}
    (h : n.reach? rest = some (.slot info fallback)) (base : Path) (loops : List Nat)
    (branches : List (Path × Nat)) :
    ∃ s ∈ n.slotSites base loops branches, s.path = base ++ rest := by
  fun_induction Node.reach? rest n generalizing base loops branches with
  | case1 n =>
    cases h
    refine ⟨⟨base, info, fallback, loops, branches⟩, ?_, by simp⟩
    rw [Node.slotSites]
    exact List.mem_cons_self
  | case2 i j rest members key location ih =>
    obtain ⟨b, hb, h⟩ := Option.bind_eq_some_iff.mp h
    obtain ⟨m, hm, h⟩ := Option.bind_eq_some_iff.mp h
    obtain ⟨s, hs, hpath⟩ :=
      ih m h ((base.child i).child j) loops (branches ++ [(base, i)])
    refine ⟨s, ?_, by simpa [Path.child] using hpath⟩
    rw [Node.slotSites]
    refine Branch.slotSitesAll_subset hb ?_
    rw [Nat.zero_add]
    refine Node.slotSitesAll_subset hm ?_
    rwa [Nat.zero_add]
  | case3 i rest n hn ih =>
    obtain ⟨m, hm, h⟩ := Option.bind_eq_some_iff.mp h
    have hsub (loops' : List Nat) :
        ∃ s ∈ Node.slotSitesAll base 0 loops' branches n.children,
          s.path = base ++ i :: rest := by
      obtain ⟨s, hs, hpath⟩ := ih m h (base.child i) loops' branches
      refine ⟨s, Node.slotSitesAll_subset hm ?_, by simpa [Path.child] using hpath⟩
      rwa [Nat.zero_add]
    cases n with
    | element info children =>
      rw [Node.slotSites]
      exact hsub loops
    | slot info fallback =>
      obtain ⟨s, hs, hpath⟩ := hsub loops
      rw [Node.slotSites]
      exact ⟨s, List.mem_cons_of_mem _ hs, hpath⟩
    | loop info children =>
      rw [Node.slotSites]
      exact hsub _
    | _ => simp [Node.children] at hm

/-! ## The order of the slots -/

/-- The paths come in the order of the text: a node before what is below it, and before its later
siblings. -/
def SlotSite.Increasing (sites : List SlotSite) : Prop :=
  sites.Pairwise fun s t => s.path < t.path

theorem Path.append_lt_append {parent p q : Path} (h : p < q) : parent ++ p < parent ++ q :=
  List.Lex.append_left _ h parent

theorem Path.child_lt {parent p q : Path} {i j : Nat} (h : i < j) :
    parent.child i ++ p < parent.child j ++ q := by
  simp only [Path.child, List.append_assoc]
  exact Path.append_lt_append (List.Lex.rel h)

mutual

theorem Node.slotSites_increasing (n : Node) (base : Path) (loops : List Nat)
    (branches : List (Path × Nat)) :
    SlotSite.Increasing (n.slotSites base loops branches) := by
  match n with
  | .element info children =>
    exact Node.slotSitesAll_increasing children base 0 loops branches
  | .text .. => exact .nil
  | .interpolation .. => exact .nil
  | .slot info fallback =>
    rw [Node.slotSites]
    refine List.pairwise_cons.mpr ⟨fun s hs => ?_,
      Node.slotSitesAll_increasing fallback base 0 loops branches⟩
    obtain ⟨i, m, rest, -, h⟩ := Node.slotSitesAll_reach fallback base 0 loops branches s hs
    have hlt : base ++ [] < base ++ (0 + i) :: rest := Path.append_lt_append List.Lex.nil
    rw [h.path_eq]
    simpa [Path.child] using hlt
  | .chain members key location =>
    exact Branch.slotSitesAll_increasing members base 0 loops branches
  | .loop info children => exact Node.slotSitesAll_increasing children base 0 _ branches
  | .comment .. => exact .nil

theorem Node.slotSitesAll_increasing (ns : List Node) (parent : Path) (index : Nat)
    (loops : List Nat) (branches : List (Path × Nat)) :
    SlotSite.Increasing (Node.slotSitesAll parent index loops branches ns) := by
  match ns with
  | [] => exact .nil
  | n :: ns =>
    rw [Node.slotSitesAll]
    refine List.pairwise_append.mpr ⟨Node.slotSites_increasing n _ loops branches,
      Node.slotSitesAll_increasing ns parent (index + 1) loops branches, fun s hs t ht => ?_⟩
    obtain ⟨r, h⟩ := Node.slotSites_reach n _ loops branches s hs
    obtain ⟨i, m, r', -, h'⟩ := Node.slotSitesAll_reach ns parent (index + 1) loops branches t ht
    rw [h.path_eq, h'.path_eq]
    exact Path.child_lt (by omega)

theorem Branch.slotSitesAll_increasing (bs : List Branch) (parent : Path) (index : Nat)
    (loops : List Nat) (branches : List (Path × Nat)) :
    SlotSite.Increasing (Branch.slotSitesAll parent index loops branches bs) := by
  match bs with
  | [] => exact .nil
  | .mk info children :: bs =>
    rw [Branch.slotSitesAll]
    refine List.pairwise_append.mpr ⟨Node.slotSitesAll_increasing children _ 0 loops _,
      Branch.slotSitesAll_increasing bs parent (index + 1) loops branches, fun s hs t ht => ?_⟩
    obtain ⟨j, m, r, -, h⟩ := Node.slotSitesAll_reach children _ 0 loops _ s hs
    obtain ⟨i, b, j', m', r', -, -, h'⟩ :=
      Branch.slotSitesAll_reach bs parent (index + 1) loops branches t ht
    rw [h.path_eq, h'.path_eq]
    simp only [Path.child, List.append_assoc]
    exact Path.append_lt_append (List.Lex.rel (by omega))

end

/-! ## The whole tree -/

namespace Template

variable {nodes : List Node}

/-- Slots are listed in the order of the text, each once. -/
theorem slotSites_increasing (nodes : List Node) : SlotSite.Increasing (slotSites nodes) :=
  Node.slotSitesAll_increasing nodes [] 0 [] []

theorem passes_cons {i : Nat} {n : Node} (hn : nodes[i]? = some n) (path : Path)
    (c : Path × Nat) : Passes nodes (i :: path) c ↔ n.Passes [i] path c := by
  obtain ⟨c, k⟩ := c
  constructor
  · rintro ⟨hpre, m, hm, hchain⟩
    cases c with
    | nil => cases hm
    | cons l stem =>
      obtain ⟨rfl, hbelow⟩ := List.cons_prefix_cons.mp hpre
      exact ⟨stem, m, by simp, hbelow, by simpa [reach?, hn] using hm, hchain⟩
  · rintro ⟨stem, m, rfl, hpre, hm, hchain⟩
    exact ⟨by simpa using hpre, m, by simpa [reach?, hn] using hm, hchain⟩

/-- A slot that the walk lists is at its path, and the walk counts the loops around it and notes the
branches around it. -/
theorem slotSites_reach {s : SlotSite} (hs : s ∈ slotSites nodes) :
    reach? nodes s.path = some (.slot s.slot s.fallback) ∧
      s.loops.length = loopsAround nodes s.path ∧
      ∀ c, c ∈ s.branches ↔ Passes nodes s.path c := by
  obtain ⟨i, n, rest, hn, h⟩ := Node.slotSitesAll_reach nodes [] 0 [] [] s hs
  have hpath : s.path = i :: rest := by simpa [Path.child] using h.path_eq
  rw [hpath]
  refine ⟨?_, ?_, fun c => ?_⟩
  · simpa [reach?, hn] using h.reach
  · rw [loopsAround, Node.loopsToAll_cons hn]
    simpa using h.loops_eq
  · rw [h.branches_iff, passes_cons hn]
    simp [Path.child]

/-- The walk lists every slot that a path leads to. -/
theorem exists_slotSite {path : Path} {info : SlotInfo} {fallback : List Node}
    (h : reach? nodes path = some (.slot info fallback)) :
    ∃ s ∈ slotSites nodes, s.path = path := by
  cases path with
  | nil => cases h
  | cons i rest =>
    obtain ⟨n, hn, h⟩ := Option.bind_eq_some_iff.mp h
    obtain ⟨s, hs, hpath⟩ := Node.exists_slotSite h (Path.child [] (0 + i)) [] []
    exact ⟨s, Node.slotSitesAll_subset hn hs, by simpa [Path.child] using hpath⟩

end Template

end UiTemplate
