import UiTemplate.Template.Parse
import UiTemplate.Proofs.Result
import UiTemplate.Proofs.Template.Tree

/-!
# Well-formed trees

- `Node.WellFormed`: what every node of a tree that was read satisfies, given the number of loops
  around it and the place in a chain and the loop that its start tag must ask for.
- `RawAttribute.Itemized`, `Grouped`: the attributes of a start tag and the siblings of a chain, with
  a case for everything that each of them can do.
- `RawAttribute.items_structures`: a start tag asks for one place in a chain and one loop at most.
- `groupFrom_wellFormed`: the branches of a chain stand in their order.
- `Template.parse_wellFormed`: trees that were read are well formed.
-/

namespace UiTemplate

/-! ## What attributes come to -/

namespace RawAttribute

section Cases

variable {a : RawAttribute}

/-- The place that an attribute gives in a chain is that of its name. -/
theorem chainRole_cases {s : Structure} (h : a.chainRole = .ok s) :
    (∃ e, a.name = "v-if" ∧ a.expression = .ok e ∧ s = .onlyIf e) ∨
      (∃ e, a.name = "v-else-if" ∧ a.expression = .ok e ∧ s = .elseIf e) ∨
      ((a.isChain = true → a.name = "v-else") ∧
        (∀ v, a.value = some v → Text.allBlank v.toList = true) ∧ s = .otherwise) := by
  unfold chainRole at h
  split at h
  · rename_i hname
    obtain ⟨e, he, h⟩ := Except.bind_eq_ok.mp h
    cases h
    exact .inl ⟨e, beq_iff_eq.mp hname, he, rfl⟩
  · rename_i hif
    split at h
    · rename_i hname
      obtain ⟨e, he, h⟩ := Except.bind_eq_ok.mp h
      cases h
      exact .inr (.inl ⟨e, beq_iff_eq.mp hname, he, rfl⟩)
    · rename_i helseIf
      split at h
      · rename_i hblank
        cases h
        refine .inr (.inr ⟨fun hchain => ?_, fun v hv => ?_, rfl⟩)
        · simpa [isChain, hif, helseIf] using hchain
        · rw [hv] at hblank
          exact hblank
      · cases h

/-- A loop has the names of its head, and the source that the head gives. -/
theorem loopRole_cases {s : Structure} (h : a.loopRole = .ok s) :
    ∃ v head e, a.requiredValue = .ok v ∧ LoopHead.read? v a.valueStart = some head ∧
      expressionAt head.source head.sourceStart = .ok e ∧
      s = .forEach e head.item head.index := by
  obtain ⟨v, hv, h⟩ := Except.bind_eq_ok.mp h
  split at h
  · cases h
  · rename_i head hhead
    obtain ⟨e, he, h⟩ := Except.bind_eq_ok.mp h
    cases h
    exact ⟨v, head, e, hv, hhead, he, rfl⟩

/-- A plain attribute binds HTML or what its name says, is not supported, or is fixed. -/
theorem plainItem_cases {locate : Nat → Location} {item : StartItem}
    (h : a.plainItem locate = .ok item) :
    (∃ e, a.name = "v-html" ∧ a.expression = .ok e ∧
        item = .directive (.binding ⟨.html, "innerHTML", e, none, locate a.start⟩)) ∨
      (∃ kind argument e, a.bound? = some (kind, argument) ∧ argument ≠ "" ∧
        a.expression = .ok e ∧
        item = .directive (.binding ⟨kind, argument, e, none, locate a.start⟩)) ∨
      item = .directive (.unsupported a.name a.value (locate a.start)) ∨
      item = .fixed ⟨a.name, a.value, locate a.start⟩ := by
  unfold plainItem at h
  dsimp only at h
  split at h
  · rename_i hname
    obtain ⟨e, he, h⟩ := Except.bind_eq_ok.mp h
    cases h
    exact .inl ⟨e, beq_iff_eq.mp hname, he, rfl⟩
  · split at h
    · rename_i kind argument hbound
      split at h
      · cases h
        exact .inr (.inr (.inl rfl))
      · rename_i hargument
        obtain ⟨e, he, h⟩ := Except.bind_eq_ok.mp h
        cases h
        simp only [Bool.or_eq_true, decide_eq_true_eq, not_or] at hargument
        exact .inr (.inl ⟨kind, argument, e, hbound, hargument.1, he, rfl⟩)
    · split at h
      · cases h
        exact .inr (.inr (.inl rfl))
      · cases h
        exact .inr (.inr (.inr rfl))

end Cases

/-- What attributes mean one by one: each asks for a place in a chain or for a loop, which an element
has but once, or is a plain one. -/
inductive Itemized (locate : Nat → Location) :
    Bool → Bool → List RawAttribute → List StartItem → Prop
  | nil {inChain inLoop : Bool} : Itemized locate inChain inLoop [] []
  | branch {inLoop : Bool} {a : RawAttribute} {rest : List RawAttribute} {s : Structure}
      {more : List StartItem} (hchain : a.isChain = true) (hs : a.chainRole = .ok s)
      (hrest : Itemized locate true inLoop rest more) :
      Itemized locate false inLoop (a :: rest)
        (.directive (.structural s (locate a.start)) :: more)
  | loop {inChain : Bool} {a : RawAttribute} {rest : List RawAttribute} {s : Structure}
      {more : List StartItem} (hchain : a.isChain = false) (hloop : a.isLoop = true)
      (hs : a.loopRole = .ok s) (hrest : Itemized locate inChain true rest more) :
      Itemized locate inChain false (a :: rest)
        (.directive (.structural s (locate a.start)) :: more)
  | plain {inChain inLoop : Bool} {a : RawAttribute} {rest : List RawAttribute} {item : StartItem}
      {more : List StartItem} (hchain : a.isChain = false) (hloop : a.isLoop = false)
      (hitem : a.plainItem locate = .ok item) (hrest : Itemized locate inChain inLoop rest more) :
      Itemized locate inChain inLoop (a :: rest) (item :: more)

/-- Attributes that have a meaning have it by these cases. -/
theorem itemized_of_items {locate : Nat → Location} {inChain inLoop : Bool}
    {attributes : List RawAttribute} {is : List StartItem}
    (h : items locate inChain inLoop attributes = .ok is) :
    Itemized locate inChain inLoop attributes is := by
  induction attributes generalizing inChain inLoop is with
  | nil =>
    cases h
    exact .nil
  | cons a rest ih =>
    unfold items at h
    split at h
    · rename_i hchain
      split at h
      · cases h
      · rename_i hin
        obtain rfl := Bool.not_eq_true _ ▸ hin
        obtain ⟨s, hs, h⟩ := Except.bind_eq_ok.mp h
        obtain ⟨more, hrest, h⟩ := Except.bind_eq_ok.mp h
        cases h
        exact .branch hchain hs (ih hrest)
    · rename_i hchain
      rw [Bool.not_eq_true] at hchain
      split at h
      · rename_i hloop
        split at h
        · cases h
        · rename_i hin
          obtain rfl := Bool.not_eq_true _ ▸ hin
          obtain ⟨s, hs, h⟩ := Except.bind_eq_ok.mp h
          obtain ⟨more, hrest, h⟩ := Except.bind_eq_ok.mp h
          cases h
          exact .loop hchain hloop hs (ih hrest)
      · rename_i hloop
        rw [Bool.not_eq_true] at hloop
        obtain ⟨item, hitem, h⟩ := Except.bind_eq_ok.mp h
        obtain ⟨more, hrest, h⟩ := Except.bind_eq_ok.mp h
        cases h
        exact .plain hchain hloop hitem (ih hrest)

end RawAttribute

/-! ## What forming chains comes to -/

/-- The nodes that siblings form behind a chain that may still go on. There is a case for everything
that a sibling can do. -/
inductive Grouped : Option OpenChain → List Sibling → List Node → Prop
  | done (chain : Option OpenChain) : Grouped chain [] (OpenChain.closeAll chain)
  | opens {chain : Option OpenChain} {s : Sibling} {rest : List Sibling} {more : List Node}
      {condition : Expression} (hrole : s.role = some (.onlyIf condition))
      (hrest : Grouped (some ⟨[(ChainRole.onlyIf condition).branch s], s.location, []⟩) rest more) :
      Grouped chain (s :: rest) (OpenChain.closeAll chain ++ more)
  | goesOn {c : OpenChain} {s : Sibling} {rest : List Sibling} {nodes : List Node}
      {condition : Expression} (hrole : s.role = some (.elseIf condition))
      (hrest : Grouped (some (c.extend ((ChainRole.elseIf condition).branch s))) rest nodes) :
      Grouped (some c) (s :: rest) nodes
  | ends {c : OpenChain} {s : Sibling} {rest : List Sibling} {more : List Node}
      (hrole : s.role = some .otherwise) (hrest : Grouped none rest more) :
      Grouped (some c) (s :: rest) ((c.extend (ChainRole.otherwise.branch s)).close ++ more)
  | waits {c : OpenChain} {s : Sibling} {rest : List Sibling} {nodes : List Node}
      (hrole : s.role = none) (hskip : s.node.isSkippable = true)
      (hrest : Grouped (some { c with parked := c.parked ++ [s.node] }) rest nodes) :
      Grouped (some c) (s :: rest) nodes
  | stands {chain : Option OpenChain} {s : Sibling} {rest : List Sibling} {more : List Node}
      (hrole : s.role = none) (hrest : Grouped none rest more) :
      Grouped chain (s :: rest) (OpenChain.closeAll chain ++ s.node :: more)

/-- Siblings whose chains can be formed do so by these cases. -/
theorem grouped_of_groupFrom {chain : Option OpenChain} {siblings : List Sibling}
    {nodes : List Node} (h : groupFrom chain siblings = .ok nodes) :
    Grouped chain siblings nodes := by
  induction siblings generalizing chain nodes with
  | nil =>
    cases h
    exact .done chain
  | cons s rest ih =>
    unfold groupFrom at h
    split at h
    · rename_i condition hrole
      obtain ⟨more, hrest, h⟩ := Except.bind_eq_ok.mp h
      cases h
      exact .opens hrole (ih hrest)
    · rename_i condition hrole
      split at h
      · cases h
      · exact .goesOn hrole (ih h)
    · rename_i hrole
      split at h
      · cases h
      · obtain ⟨more, hrest, h⟩ := Except.bind_eq_ok.mp h
        cases h
        exact .ends hrole (ih hrest)
    · rename_i hrole
      split at h
      · obtain ⟨more, hrest, h⟩ := Except.bind_eq_ok.mp h
        cases h
        exact .stands hrole (ih hrest)
      · split at h
        · rename_i hskip
          exact .waits hrole hskip (ih h)
        · obtain ⟨more, hrest, h⟩ := Except.bind_eq_ok.mp h
          cases h
          exact .stands hrole (ih hrest)

/-- Siblings are settled by forming their chains, if there is no flaw among them. -/
theorem settle_eq_ok {read : List Sibling × Option Flaw} {nodes : List Node}
    (h : settle read = .ok nodes) : read.2 = none ∧ groupFrom none read.1 = .ok nodes := by
  rw [settle, Except.bind_eq_ok] at h
  obtain ⟨grouped, hgroup, h⟩ := h
  split at h
  · rename_i hnone
    cases h
    exact ⟨hnone, hgroup⟩
  · cases h

/-! ## What directives ask for -/

/-- The loop that a structural directive asks for: source, item and index. -/
def Structure.loop? : Structure → Option (Expression × String × Option String)
  | .forEach source item index => some (source, item, index)
  | _ => none

/-- All places in a chain that directives ask for. -/
def chainRoles (directives : List Directive) : List ChainRole :=
  directives.filterMap fun d => d.structure?.bind ChainRole.ofStructure?

/-- All loops that directives ask for. -/
def loops (directives : List Directive) : List (Expression × String × Option String) :=
  directives.filterMap fun d => d.structure?.bind Structure.loop?

/-- Directives ask for the place `role` in a chain and for the loop `loop`, for no other ones, and
bind nothing under a key. -/
structure Asks (directives : List Directive) (role : Option ChainRole)
    (loop : Option (Expression × String × Option String)) : Prop where
  chain : chainRoles directives = role.toList
  loop : loops directives = loop.toList
  unkeyed : ∀ b ∈ bindings directives, b.key = none

/-- The place in a chain that a branch stands for: its condition is absent exactly in the last
place. -/
def BranchInfo.role? (info : BranchInfo) : Option ChainRole :=
  match info.kind, info.condition with
  | .onlyIf, some condition => some (.onlyIf condition)
  | .elseIf, some condition => some (.elseIf condition)
  | .otherwise, none => some .otherwise
  | _, _ => none

/-- The kinds of the branches of a chain that may go on. -/
def BranchKind.areOpen (kinds : List BranchKind) : Prop :=
  ∃ n, kinds = .onlyIf :: List.replicate n .elseIf

/-- The kinds of the branches of a chain. -/
def BranchKind.areChain (kinds : List BranchKind) : Prop :=
  areOpen kinds ∨ ∃ before, areOpen before ∧ kinds = before ++ [.otherwise]

/-- Whether a node by itself renders without a dynamic value: a text, a comment, or something of the
host without directives. -/
def Node.IsPlain : Node → Prop
  | .element info _ => info.kind = .native ∧ info.directives = []
  | .text .. => True
  | .comment .. => True
  | _ => False

/-! ## Well-formed trees -/

mutual

/-- A node inside `depth` loops is well formed. The start tag behind it asks for the place `role`
in a chain, as the branch that holds the node says, and for the loop `loop`, as the loop around it
says; a node in no branch and in no loop of its own asks for neither. -/
inductive Node.WellFormed :
    Nat → Option ChainRole → Option (Expression × String × Option String) → Node → Prop where
  | element {depth : Nat} {role : Option ChainRole}
      {loop : Option (Expression × String × Option String)} {info : ElementInfo}
      {children : List Node} (asks : Asks info.directives role loop)
      (static : info.isStatic = true ↔
        info.kind = .native ∧ info.directives = [] ∧ ∀ n ∈ Node.withinAll children, n.IsPlain)
      (below : Node.WellFormedAll depth children) :
      Node.WellFormed depth role loop (.element info children)
  | slot {depth : Nat} {role : Option ChainRole}
      {loop : Option (Expression × String × Option String)} {info : SlotInfo}
      {fallback : List Node} (asks : Asks info.directives role loop)
      (oneName : info.staticName = none ∨ info.dynamicName = none)
      (unkeyed : info.keys = {}) (unresolved : info.resolution = none)
      (below : Node.WellFormedAll depth fallback) :
      Node.WellFormed depth role loop (.slot info fallback)
  | text {depth : Nat} {value : String} {location : Location} :
      Node.WellFormed depth none none (.text value location)
  | comment {depth : Nat} {value : String} {location : Location} :
      Node.WellFormed depth none none (.comment value location)
  | interpolation {depth : Nat} {expression : Expression} {location : Location} :
      Node.WellFormed depth none none (.interpolation expression none location)
  | chain {depth : Nat} {branches : List Branch} {location : Location}
      (order : BranchKind.areChain (branches.map fun b => b.info.kind))
      (below : Branch.WellFormedAll depth branches) :
      Node.WellFormed depth none none (.chain branches none location)
  | loop {depth : Nat} {role : Option ChainRole} {info : LoopInfo} {child : Node}
      (nesting : info.depth = depth) (unkeyed : info.key = none)
      (below : Node.WellFormed (depth + 1) role (some (info.source, info.item, info.index)) child) :
      Node.WellFormed depth role none (.loop info [child])

/-- Nodes inside `depth` loops, in no branch and in no loop of their own, are well formed. -/
inductive Node.WellFormedAll : Nat → List Node → Prop where
  | nil {depth : Nat} : Node.WellFormedAll depth []
  | cons {depth : Nat} {node : Node} {rest : List Node}
      (first : Node.WellFormed depth none none node) (others : Node.WellFormedAll depth rest) :
      Node.WellFormedAll depth (node :: rest)

/-- Branches inside `depth` loops are well formed: each has one node, whose start tag asks for the
place that the branch stands for. -/
inductive Branch.WellFormedAll : Nat → List Branch → Prop where
  | nil {depth : Nat} : Branch.WellFormedAll depth []
  | cons {depth : Nat} {info : BranchInfo} {node : Node} {role : ChainRole} {rest : List Branch}
      (place : info.role? = some role) (unkeyed : info.key = none)
      (below : Node.WellFormed depth (some role) none node)
      (others : Branch.WellFormedAll depth rest) :
      Branch.WellFormedAll depth (.mk info [node] :: rest)

end

/-- Well-formed nodes may stand one behind the other. -/
theorem Node.WellFormedAll.append {depth : Nat} {ns ns' : List Node}
    (h : Node.WellFormedAll depth ns) (h' : Node.WellFormedAll depth ns') :
    Node.WellFormedAll depth (ns ++ ns') := by
  induction ns with
  | nil => exact h'
  | cons n ns ih =>
    cases h with
    | cons hn hr => exact .cons hn (ih hr)

/-- So may branches. -/
theorem Branch.WellFormedAll.append {depth : Nat} {bs bs' : List Branch}
    (h : Branch.WellFormedAll depth bs) (h' : Branch.WellFormedAll depth bs') :
    Branch.WellFormedAll depth (bs ++ bs') := by
  induction bs with
  | nil => exact h'
  | cons b bs ih =>
    cases h with
    | cons hp hk hn hr => exact .cons hp hk hn (ih hr)

/-- The property holds of every well-formed node. -/
def Node.WellFormed.Implies (P : Node → Prop) : Prop :=
  ∀ {depth : Nat} {role : Option ChainRole} {loop : Option (Expression × String × Option String)}
    {n : Node}, n.WellFormed depth role loop → P n

section Within

variable {P : Node → Prop}

mutual

/-- What holds of every well-formed node holds of all nodes in one. -/
theorem Node.WellFormed.forall_within (hP : Node.WellFormed.Implies P) {depth : Nat}
    {role : Option ChainRole} {loop : Option (Expression × String × Option String)} (n : Node)
    (h : n.WellFormed depth role loop) : ∀ m ∈ n.within, P m := by
  match n, h with
  | .element _ children, h@(.element _ _ below) =>
    exact List.forall_mem_cons.mpr ⟨hP h, Node.WellFormedAll.forall_within hP children below⟩
  | .slot _ fallback, h@(.slot _ _ _ _ below) =>
    exact List.forall_mem_cons.mpr ⟨hP h, Node.WellFormedAll.forall_within hP fallback below⟩
  | .text .., h => exact List.forall_mem_singleton.mpr (hP h)
  | .comment .., h => exact List.forall_mem_singleton.mpr (hP h)
  | .interpolation .., h => exact List.forall_mem_singleton.mpr (hP h)
  | .chain branches _ _, h@(.chain _ below) =>
    exact List.forall_mem_cons.mpr ⟨hP h, Branch.WellFormedAll.forall_within hP branches below⟩
  | .loop _ [child], h@(.loop _ _ below) =>
    refine List.forall_mem_cons.mpr ⟨hP h, ?_⟩
    rw [Node.withinAll, Node.withinAll, List.append_nil]
    exact Node.WellFormed.forall_within hP child below

/-- What well-formedness implies holds of every node within. -/
theorem Node.WellFormedAll.forall_within (hP : Node.WellFormed.Implies P) {depth : Nat}
    (ns : List Node) (h : Node.WellFormedAll depth ns) : ∀ m ∈ Node.withinAll ns, P m := by
  match ns, h with
  | [], _ => exact fun m hm => absurd hm List.not_mem_nil
  | n :: rest, .cons first others =>
    exact List.forall_mem_append.mpr
      ⟨Node.WellFormed.forall_within hP n first, Node.WellFormedAll.forall_within hP rest others⟩

/-- So it does within branches. -/
theorem Branch.WellFormedAll.forall_within (hP : Node.WellFormed.Implies P) {depth : Nat}
    (bs : List Branch) (h : Branch.WellFormedAll depth bs) : ∀ m ∈ Branch.withinAll bs, P m := by
  match bs, h with
  | [], _ => exact fun m hm => absurd hm List.not_mem_nil
  | .mk _ [child] :: rest, .cons _ _ below others =>
    refine List.forall_mem_append.mpr ⟨?_, Branch.WellFormedAll.forall_within hP rest others⟩
    rw [Node.withinAll, Node.withinAll, List.append_nil]
    exact Node.WellFormed.forall_within hP child below

end

end Within

/-! ## Static nodes -/

/-- A well-formed node is static exactly if all in it is plain. -/
theorem Node.WellFormed.isStatic_iff {depth : Nat} {role : Option ChainRole}
    {loop : Option (Expression × String × Option String)} {n : Node}
    (h : n.WellFormed depth role loop) : n.isStatic = true ↔ ∀ m ∈ n.within, m.IsPlain := by
  cases h with
  | element _ static _ =>
    rw [Node.within, List.forall_mem_cons, Node.IsPlain, and_assoc]
    exact static
  | slot => simp [Node.isStatic, Node.within, Node.IsPlain]
  | text => simp [Node.isStatic, Node.within, Node.IsPlain]
  | comment => simp [Node.isStatic, Node.within, Node.IsPlain]
  | interpolation => simp [Node.isStatic, Node.within, Node.IsPlain]
  | chain => simp [Node.isStatic, Node.within, Node.IsPlain]
  | loop => simp [Node.isStatic, Node.within, Node.IsPlain]

/-- Nodes are static exactly if all nodes within them are plain. -/
theorem Node.WellFormedAll.all_isStatic_iff {depth : Nat} {ns : List Node}
    (h : Node.WellFormedAll depth ns) :
    ns.all Node.isStatic = true ↔ ∀ m ∈ Node.withinAll ns, m.IsPlain := by
  induction ns with
  | nil => simp [Node.withinAll]
  | cons n ns ih =>
    cases h with
    | cons hn hr =>
      rw [List.all_cons, Bool.and_eq_true, hn.isStatic_iff, ih hr, Node.withinAll,
        List.forall_mem_append]

/-! ## Start tags -/

theorem roleOf_eq_head? (directives : List Directive) :
    roleOf directives = (chainRoles directives).head? :=
  List.head?_filterMap.symm

theorem loopOf_eq_head? (directives : List Directive) :
    loopOf directives = (loops directives).head? := by
  rw [loops, List.head?_filterMap, loopOf]
  congr 1
  funext d
  cases d.structure? with
  | none => rfl
  | some s => cases s <;> rfl

theorem head?_toList_of_length_le_one {α : Type} {as : List α} (h : as.length ≤ 1) :
    as = as.head?.toList := by
  match as, h with
  | [], _ => rfl
  | [a], _ => rfl

namespace RawAttribute

/-- The directive of a branch gives its role and no loop. -/
theorem chainRole_ok {a : RawAttribute} {s : Structure} (h : a.chainRole = .ok s) :
    (∃ role, ChainRole.ofStructure? s = some role) ∧ s.loop? = none := by
  obtain ⟨e, -, -, rfl⟩ | ⟨e, -, -, rfl⟩ | ⟨-, -, rfl⟩ := chainRole_cases h
  · exact ⟨⟨_, rfl⟩, rfl⟩
  · exact ⟨⟨_, rfl⟩, rfl⟩
  · exact ⟨⟨_, rfl⟩, rfl⟩

/-- That of a loop gives the loop and no role. -/
theorem loopRole_ok {a : RawAttribute} {s : Structure} (h : a.loopRole = .ok s) :
    ChainRole.ofStructure? s = none ∧ ∃ loop, s.loop? = some loop := by
  obtain ⟨v, head, e, -, -, -, rfl⟩ := loopRole_cases h
  exact ⟨rfl, _, rfl⟩

/-- An attribute that neither makes a chain nor a loop is no structural directive, and binds nothing
under a key. -/
theorem plainItem_ok {locate : Nat → Location} {a : RawAttribute} {item : StartItem}
    (h : a.plainItem locate = .ok item) :
    ∀ d, item.directive? = some d →
      d.structure? = none ∧ ∀ b, d.binding? = some b → b.key = none := by
  obtain ⟨e, -, -, rfl⟩ | ⟨kind, argument, e, -, -, -, rfl⟩ | rfl | rfl := plainItem_cases h
  · rintro d ⟨⟩
    exact ⟨rfl, by rintro b ⟨⟩; rfl⟩
  · rintro d ⟨⟩
    exact ⟨rfl, by rintro b ⟨⟩; rfl⟩
  · rintro d ⟨⟩
    exact ⟨rfl, by rintro b ⟨⟩⟩
  · rintro d ⟨⟩

/-- The directives of a start tag ask for at most one place in a chain and at most one loop, and for
none where the element already has one. No key is given yet. -/
theorem items_structures {locate : Nat → Location} {inChain inLoop : Bool}
    {attributes : List RawAttribute} {is : List StartItem}
    (h : items locate inChain inLoop attributes = .ok is) :
    (chainRoles (is.filterMap StartItem.directive?)).length ≤ (if inChain then 0 else 1) ∧
      (loops (is.filterMap StartItem.directive?)).length ≤ (if inLoop then 0 else 1) ∧
      ∀ b ∈ bindings (is.filterMap StartItem.directive?), b.key = none := by
  replace h := itemized_of_items h
  induction h with
  | nil => exact ⟨Nat.zero_le _, Nat.zero_le _, fun b hb => absurd hb List.not_mem_nil⟩
  | branch _ hs _ ih =>
    obtain ⟨⟨role, hrole⟩, hloop⟩ := chainRole_ok hs
    obtain ⟨hc, hl, hb⟩ := ih
    refine ⟨?_, ?_, ?_⟩
    · simpa [chainRoles, StartItem.directive?, Directive.structure?, hrole] using hc
    · simpa [loops, StartItem.directive?, Directive.structure?, hloop] using hl
    · simpa [bindings, StartItem.directive?, Directive.binding?] using hb
  | loop _ _ hs _ ih =>
    obtain ⟨hrole, loop, hloop⟩ := loopRole_ok hs
    obtain ⟨hc, hl, hb⟩ := ih
    refine ⟨?_, ?_, ?_⟩
    · simpa [chainRoles, StartItem.directive?, Directive.structure?, hrole] using hc
    · simpa [loops, StartItem.directive?, Directive.structure?, hloop] using hl
    · simpa [bindings, StartItem.directive?, Directive.binding?] using hb
  | @plain _ _ a rest item more _ _ hitem _ ih =>
    obtain ⟨hc, hl, hb⟩ := ih
    rw [List.filterMap_cons]
    cases hd : item.directive? with
    | none => exact ⟨hc, hl, hb⟩
    | some d =>
      -- A plain attribute asks for no place and no loop, and has no key.
      obtain ⟨hs, hk⟩ := plainItem_ok hitem d hd
      refine ⟨?_, ?_, ?_⟩
      · simpa [chainRoles, hs] using hc
      · simpa [loops, hs] using hl
      · intro b hmem
        obtain ⟨d', hd', hb'⟩ := List.mem_filterMap.mp hmem
        rcases List.mem_cons.mp hd' with rfl | hd'
        · exact hk b hb'
        · exact hb b (List.mem_filterMap.mpr ⟨d', hd', hb'⟩)

/-- The directives of a start tag ask for what is read off them, and for nothing else. -/
theorem items_asks {locate : Nat → Location} {attributes : List RawAttribute} {is : List StartItem}
    (h : items locate false false attributes = .ok is) :
    Asks (is.filterMap StartItem.directive?) (roleOf (is.filterMap StartItem.directive?))
      (loopOf (is.filterMap StartItem.directive?)) := by
  obtain ⟨hc, hl, hb⟩ := items_structures h
  refine ⟨?_, ?_, hb⟩
  · rw [roleOf_eq_head?]
    exact head?_toList_of_length_le_one hc
  · rw [loopOf_eq_head?]
    exact head?_toList_of_length_le_one hl

end RawAttribute

/-! ## Elements and slots -/

/-- Leaving out bound values does not change what directives ask for. -/
theorem Asks.filter {directives : List Directive} {role : Option ChainRole}
    {loop : Option (Expression × String × Option String)} (h : Asks directives role loop)
    {p : Directive → Bool} (hp : ∀ d, d.structure? ≠ none → p d = true) :
    Asks (directives.filter p) role loop := by
  have kept {α : Type} (f : Structure → Option α) :
      (directives.filter p).filterMap (fun d => d.structure?.bind f) =
        directives.filterMap fun d => d.structure?.bind f := by
    rw [List.filterMap_filter]
    congr 1
    funext d
    cases hs : d.structure? with
    | none => simp
    | some s => simp [hp d (by simp [hs])]
  refine ⟨(kept _).trans h.chain, (kept _).trans h.loop, fun b hb => h.unkeyed b ?_⟩
  obtain ⟨d, hd, hb⟩ := List.mem_filterMap.mp hb
  exact List.mem_filterMap.mpr ⟨d, (List.mem_filter.mp hd).1, hb⟩

/-- A slot keeps the directives that ask for its role and its loop. -/
theorem SlotInfo.ofStart_asks {attributes : List Attribute} {directives : List Directive}
    {role : Option ChainRole} {loop : Option (Expression × String × Option String)}
    (h : Asks directives role loop) (selfClosing : Bool) (location : Location) :
    Asks (SlotInfo.ofStart attributes directives selfClosing location).directives role loop := by
  refine h.filter fun d hd => ?_
  cases d with
  | structural s l => rfl
  | binding b => exact absurd rfl hd
  | unsupported name value l => exact absurd rfl hd

/-- The node of a start tag is well formed if its children are and it has not two names. -/
theorem Node.ofStart_wellFormed {depth : Nat} {platform : Platform} {tag : String}
    {attributes : List Attribute} {directives : List Directive} {selfClosing : Bool}
    {location : Location} {children : List Node} {role : Option ChainRole}
    {loop : Option (Expression × String × Option String)} (hd : Asks directives role loop)
    (hc : Node.WellFormedAll depth children)
    (hn : (Node.ofStart platform tag attributes directives selfClosing location
      children).hasTwoNames = false) :
    (Node.ofStart platform tag attributes directives selfClosing location children).WellFormed
      depth role loop := by
  unfold Node.ofStart at hn ⊢
  split at hn
  · rename_i htag
    rw [if_pos htag]
    refine .slot (SlotInfo.ofStart_asks hd _ _) ?_ rfl rfl hc
    rw [Node.hasTwoNames, Bool.and_eq_false_iff] at hn
    simpa only [Option.isSome_eq_false_iff, Option.isNone_iff_eq_none] using hn
  · rename_i htag
    rw [if_neg htag]
    refine .element hd ?_ hc
    simp only [Bool.and_eq_true, beq_iff_eq, List.isEmpty_iff, hc.all_isStatic_iff, and_assoc]

/-- A node that asks for a loop is well-formed with the loop around it. -/
theorem Node.looped_wellFormed {depth : Nat} {n : Node} {role : Option ChainRole}
    {directives : List Directive}
    (h : n.WellFormed (if (loopOf directives).isSome then depth + 1 else depth) role
      (loopOf directives)) (location : Location) :
    (n.looped directives depth location).WellFormed depth role none := by
  unfold Node.looped
  split
  · rename_i hl
    rw [hl] at h
    exact h
  · rename_i source item index hl
    rw [hl] at h
    exact .loop rfl rfl h

/-! ## Chains -/

/-- The node is well formed, and asks for the place in a chain that the sibling has. -/
def Sibling.WellFormed (depth : Nat) (s : Sibling) : Prop :=
  s.node.WellFormed depth s.role none

/-- The chain is well formed so far and may go on. -/
structure OpenChain.WellFormed (depth : Nat) (c : OpenChain) : Prop where
  order : BranchKind.areOpen (c.branches.map fun b => b.info.kind)
  branches : Branch.WellFormedAll depth c.branches
  parked : Node.WellFormedAll depth c.parked

/-- A well-formed sibling with a role is a well-formed branch. -/
theorem ChainRole.branch_wellFormed {depth : Nat} {role : ChainRole} {s : Sibling}
    (h : s.WellFormed depth) (hr : s.role = some role) :
    Branch.WellFormedAll depth [role.branch s] := by
  rw [Sibling.WellFormed, hr] at h
  cases role with
  | onlyIf condition => exact .cons rfl rfl h .nil
  | elseIf condition => exact .cons rfl rfl h .nil
  | otherwise => exact .cons rfl rfl h .nil

/-- One without a role stands for itself. -/
theorem Sibling.WellFormed.single {depth : Nat} {s : Sibling} (h : s.WellFormed depth)
    (hr : s.role = none) : Node.WellFormedAll depth [s.node] := by
  rw [Sibling.WellFormed, hr] at h
  exact .cons h .nil

namespace OpenChain.WellFormed

variable {depth : Nat} {c : OpenChain}

/-- A branch with a condition opens a chain. -/
theorem start {s : Sibling} {condition : Expression} (hs : s.WellFormed depth)
    (hr : s.role = some (.onlyIf condition)) :
    OpenChain.WellFormed depth ⟨[(ChainRole.onlyIf condition).branch s], s.location, []⟩ :=
  ⟨⟨0, rfl⟩, ChainRole.branch_wellFormed hs hr, .nil⟩

/-- A chain that is closed is a well-formed node, with comments behind it. -/
theorem close (h : c.WellFormed depth) : Node.WellFormedAll depth c.close :=
  .cons (.chain (.inl h.order) h.branches) h.parked

/-- One more branch with a condition. -/
theorem extend (h : c.WellFormed depth) {s : Sibling} {condition : Expression}
    (hs : s.WellFormed depth) (hr : s.role = some (.elseIf condition)) :
    (c.extend ((ChainRole.elseIf condition).branch s)).WellFormed depth := by
  obtain ⟨n, hn⟩ := h.order
  refine ⟨⟨n + 1, ?_⟩, h.branches.append (ChainRole.branch_wellFormed hs hr), .nil⟩
  rw [OpenChain.extend, List.map_append, hn, List.replicate_succ']
  rfl

/-- The last branch, which has no condition. -/
theorem finish (h : c.WellFormed depth) {s : Sibling} (hs : s.WellFormed depth)
    (hr : s.role = some .otherwise) :
    Node.WellFormedAll depth (c.extend (ChainRole.otherwise.branch s)).close := by
  refine .cons (.chain (.inr ⟨_, h.order, ?_⟩) ?_) .nil
  · rw [OpenChain.extend, List.map_append]
    rfl
  · exact h.branches.append (ChainRole.branch_wellFormed hs hr)

/-- Comments may be kept behind its branches. -/
theorem park (h : c.WellFormed depth) {n : Node} (hn : Node.WellFormedAll depth [n]) :
    OpenChain.WellFormed depth { c with parked := c.parked ++ [n] } :=
  ⟨h.order, h.branches, h.parked.append hn⟩

end OpenChain.WellFormed

theorem OpenChain.closeAll_wellFormed {depth : Nat} {chain : Option OpenChain}
    (h : ∀ c ∈ chain, c.WellFormed depth) :
    Node.WellFormedAll depth (OpenChain.closeAll chain) := by
  cases chain with
  | none => exact .nil
  | some c => exact (h c rfl).close

/-- Forming chains of well-formed siblings gives well-formed nodes. -/
theorem groupFrom_wellFormed {depth : Nat} {chain : Option OpenChain} {siblings : List Sibling}
    {nodes : List Node} (hc : ∀ c ∈ chain, c.WellFormed depth)
    (hs : ∀ s ∈ siblings, s.WellFormed depth) (h : groupFrom chain siblings = .ok nodes) :
    Node.WellFormedAll depth nodes := by
  replace h := grouped_of_groupFrom h
  have no_chain : ∀ c ∈ (none : Option OpenChain), c.WellFormed depth := nofun
  induction h with
  | done chain => exact OpenChain.closeAll_wellFormed hc
  | opens hrole _ ih =>
    obtain ⟨hn, hs⟩ := List.forall_mem_cons.mp hs
    refine (OpenChain.closeAll_wellFormed hc).append (ih ?_ hs)
    rintro c ⟨⟩
    exact OpenChain.WellFormed.start hn hrole
  | goesOn hrole _ ih =>
    obtain ⟨hn, hs⟩ := List.forall_mem_cons.mp hs
    refine ih ?_ hs
    rintro c' ⟨⟩
    exact (hc _ rfl).extend hn hrole
  | ends hrole _ ih =>
    obtain ⟨hn, hs⟩ := List.forall_mem_cons.mp hs
    exact ((hc _ rfl).finish hn hrole).append (ih no_chain hs)
  | waits hrole _ _ ih =>
    obtain ⟨hn, hs⟩ := List.forall_mem_cons.mp hs
    refine ih ?_ hs
    rintro c' ⟨⟩
    exact (hc _ rfl).park (hn.single hrole)
  | stands hrole _ ih =>
    obtain ⟨hn, hs⟩ := List.forall_mem_cons.mp hs
    exact (OpenChain.closeAll_wellFormed hc).append ((hn.single hrole).append (ih no_chain hs))

/-- Well-formed siblings are settled into well-formed nodes. -/
theorem settle_wellFormed {depth : Nat} {read : List Sibling × Option Flaw} {nodes : List Node}
    (hs : ∀ s ∈ read.1, s.WellFormed depth) (h : settle read = .ok nodes) :
    Node.WellFormedAll depth nodes :=
  groupFrom_wellFormed (fun c hc => by cases hc) hs (settle_eq_ok h).2

/-! ## Templates -/

section Lower

variable {platform : Platform} {locate : Nat → Location}

mutual

/-- What stands in the text becomes a well-formed sibling, if anything. -/
theorem Raw.lower_wellFormed {depth : Nat} (r : Raw) {s : Sibling}
    (h : Raw.lower platform locate depth r = .ok s) : s.WellFormed depth := by
  match r with
  | .text value start =>
    cases h
    exact .text
  | .comment value start =>
    cases h
    exact .comment
  | .interpolation source start =>
    obtain ⟨e, -, h⟩ := Except.bind_eq_ok.mp h
    cases h
    exact .interpolation
  | .element tag attributes selfClosing start children =>
    rw [Raw.lower] at h
    obtain ⟨items, hi, h⟩ := Except.bind_eq_ok.mp h
    obtain ⟨nodes, hn, h⟩ := Except.bind_eq_ok.mp h
    have hc := settle_wellFormed (Raw.lowerEach_wellFormed children) hn
    dsimp only at h
    split at h
    · cases h
    · rename_i hnames
      cases h
      exact Node.looped_wellFormed (Node.ofStart_wellFormed (RawAttribute.items_asks hi) hc
        (by simpa using hnames)) _

theorem Raw.lowerEach_wellFormed {depth : Nat} (rs : List Raw) :
    ∀ s ∈ (Raw.lowerEach platform locate depth rs).1, s.WellFormed depth := by
  match rs with
  | [] => exact fun s hs => absurd hs List.not_mem_nil
  | r :: rest =>
    rw [Raw.lowerEach]
    split
    · exact fun s hs => absurd hs List.not_mem_nil
    · rename_i s hs
      exact List.forall_mem_cons.mpr ⟨Raw.lower_wellFormed r hs, Raw.lowerEach_wellFormed rest⟩

end

end Lower

/-- Every tree that was read is well-formed. -/
theorem Template.read_wellFormed {options : ParseOptions} {source : List Char} {nodes : List Node}
    (h : Template.read options source = .ok nodes) : Node.WellFormedAll 0 nodes := by
  obtain ⟨raw, -, h⟩ := Except.bind_eq_ok.mp h
  exact settle_wellFormed (Raw.lowerEach_wellFormed _) h

/-- To parse a text is to read its characters. -/
theorem Template.parse_eq_ok {options : ParseOptions} {source : String} {nodes : List Node} :
    parse options source = .ok nodes ↔ read options source.toList = .ok nodes := by
  unfold parse
  cases read options source.toList with
  | error flaw => simp
  | ok nodes' => simp

/-- What holds of every well-formed node holds of all nodes of a tree that was read. -/
theorem Template.parse_forall_within {P : Node → Prop} (hP : Node.WellFormed.Implies P)
    {options : ParseOptions} {source : String} {nodes : List Node}
    (h : Template.parse options source = .ok nodes) : ∀ n ∈ Node.withinAll nodes, P n :=
  Node.WellFormedAll.forall_within hP nodes (Template.read_wellFormed (Template.parse_eq_ok.mp h))

/-- Every tree that was read is well formed: chains, loops and the directives behind them fit each
other, the depth of a loop counts the loops around it, static elements are those without anything
dynamic, and nothing is resolved or bound under a key yet. -/
theorem Template.parse_wellFormed {options : ParseOptions} {source : String} {nodes : List Node}
    (h : Template.parse options source = .ok nodes) : Node.WellFormedAll 0 nodes :=
  Template.read_wellFormed (Template.parse_eq_ok.mp h)

/-- A chain of a loop with a static element in it and of a slot. -/
def loopOrSlot : String :=
  "<view v-if=\"x\" v-for=\"y in xs\"><text>z</text></view> <slot v-else name=\"s\"/>"

/-- A loop and a slot with a fallback in the branches of a chain. -/
theorem Template.parse_wellFormed_loopOrSlot :
    ∃ nodes, Template.parse {} loopOrSlot = .ok nodes ∧
      (Node.withinAll nodes).map Node.isStatic = [false, false, false, true, true, false] ∧
      Node.WellFormedAll 0 nodes := by
  have hrun : (Template.parse {} loopOrSlot).toOption.map (fun nodes =>
      (Node.withinAll nodes).map Node.isStatic) =
        some [false, false, false, true, true, false] := by
    decide +kernel
  cases hp : Template.parse {} loopOrSlot with
  | error e =>
    rw [hp] at hrun
    cases hrun
  | ok nodes =>
    rw [hp] at hrun
    exact ⟨nodes, rfl, Option.some.inj hrun, Template.parse_wellFormed hp⟩

end UiTemplate
