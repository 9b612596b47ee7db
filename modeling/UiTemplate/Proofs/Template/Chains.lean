import UiTemplate.Proofs.Printing.Static

/-!
# Grouping siblings into chains

- `Among`: a node as it is written, between its siblings; `Among.isStray` and `Among.isBetween` say
  what becomes of it when chains are formed.
- `Node.members`: a node, or the nodes of the branches of a chain, with their places in it.
- `groupFrom_forms`: what forming chains comes to, after a chain that may go on.
- `Raw.settle_lowerEach`: siblings of which each can be read fail at the first branch without a
  chain, and otherwise are all there in their order, but for what stands between two branches.
-/

namespace UiTemplate

/-! ## Siblings as they are written -/

/-- The kind of the branch in a place of a chain. -/
def ChainRole.kind : ChainRole → BranchKind
  | onlyIf _ => .onlyIf
  | elseIf _ => .elseIf
  | otherwise => .otherwise

/-- The kind of branch that an attribute makes of its element. -/
def RawAttribute.branchKind? (a : RawAttribute) : Option BranchKind :=
  if a.name == "v-if" then some .onlyIf
  else if a.name == "v-else-if" then some .elseIf
  else if a.name == "v-else" then some .otherwise
  else none

namespace Raw

/-- The kind of branch that a node is by its attributes. -/
def branchKind? : Raw → Option BranchKind
  | element _ attributes _ _ _ => attributes.findSome? RawAttribute.branchKind?
  | _ => none

/-- Whether a node is a comment or a blank text. -/
def isSkippable : Raw → Bool
  | comment .. => true
  | text value _ => Text.allBlank value.toList
  | _ => false

/-- Whether a branch may follow a node in its chain. -/
def opensChain (r : Raw) : Bool :=
  r.branchKind? == some .onlyIf || r.branchKind? == some .elseIf

/-- Whether a node is a branch that has to follow another. -/
def goesOnChain (r : Raw) : Bool :=
  r.branchKind? == some .elseIf || r.branchKind? == some .otherwise

/-- The byte at which a node starts. -/
def start : Raw → Nat
  | element _ _ _ start _ => start
  | text _ start => start
  | interpolation _ start => start
  | comment _ start => start

/-- The first node that is neither a comment nor a blank text. -/
def solid? (rs : List Raw) : Option Raw :=
  rs.find? fun r => !r.isSkippable

end Raw

/-- A node between the siblings before it, the nearest first, and those after it. -/
structure Among where
  before : List Raw
  node : Raw
  after : List Raw

namespace Among

/-- Whether the nearest sibling before the node that is neither a comment nor a blank text is a
branch that another may follow. -/
def followsBranch (c : Among) : Bool :=
  (Raw.solid? c.before).any Raw.opensChain

/-- Whether the node is a branch that has to follow another, and follows none. -/
def isStray (c : Among) : Bool :=
  c.node.goesOnChain && !c.followsBranch

/-- Whether the node is a comment or a blank text between two branches of one chain. -/
def isBetween (c : Among) : Bool :=
  c.node.isSkippable && c.followsBranch && (Raw.solid? c.after).any Raw.goesOnChain

/-- What is wrong with a branch that follows no other. -/
def strayFlaw (c : Among) : Flaw :=
  ⟨if c.node.branchKind? = some .elseIf then .strayElseIf else .strayElse, c.node.start⟩

end Among

/-- Each of the nodes between its siblings, after those `before` them. -/
def Raw.amongAll (before : List Raw) : List Raw → List Among
  | [] => []
  | r :: rest => ⟨before, r, rest⟩ :: amongAll (r :: before) rest

/-! ## The nodes of a chain -/

/-- The nodes of a branch with their place in the chain. -/
def Branch.members (b : Branch) : List (Option ChainRole × Node) :=
  b.children.map fun n => (b.info.role?, n)

/-- The nodes of the branches of a chain in their order, with their places in it; any other node by
itself, in no place. -/
def Node.members : Node → List (Option ChainRole × Node)
  | chain branches _ _ => branches.flatMap Branch.members
  | n => [(none, n)]

/-- A sibling as a member. -/
def Sibling.member (s : Sibling) : Option ChainRole × Node :=
  (s.role, s.node)

/-- The siblings that were read from nodes, but for those between two branches of one chain. -/
def Among.keptMembers (cs : List Among) (siblings : List Sibling) :
    List (Option ChainRole × Node) :=
  ((cs.zip siblings).filter fun c => !c.1.isBetween).map fun c => c.2.member

theorem ChainRole.members_branch (role : ChainRole) (s : Sibling) :
    (role.branch s).members = [(some role, s.node)] := by
  cases role <;> rfl

/-! ## What is read from a node -/

/-- What forming chains looks at in a sibling is what the node it was read from shows. -/
structure Raw.Reads (r : Raw) (s : Sibling) : Prop where
  kind : s.role.map ChainRole.kind = r.branchKind?
  skippable : s.node.isSkippable = r.isSkippable
  start : s.start = r.start
  alone : s.node.members = [(none, s.node)]

namespace RawAttribute

theorem chainRole_kind {a : RawAttribute} {s : Structure} (hchain : a.isChain = true)
    (h : a.chainRole = .ok s) :
    (ChainRole.ofStructure? s).map ChainRole.kind = a.branchKind? := by
  obtain ⟨e, hname, -, rfl⟩ | ⟨e, hname, -, rfl⟩ | ⟨hname, -, rfl⟩ := chainRole_cases h
  · rw [branchKind?, hname]
    rfl
  · rw [branchKind?, hname]
    rfl
  · rw [branchKind?, hname hchain]
    rfl

theorem branchKind?_of_not_isChain {a : RawAttribute} (h : ¬a.isChain = true) :
    a.branchKind? = none := by
  simp only [isChain, Bool.or_eq_true, not_or] at h
  rw [branchKind?, if_neg h.1.1, if_neg h.1.2, if_neg h.2]

/-- The place in a chain that a start tag asks for is of the kind that its attributes show. -/
theorem items_kind {locate : Nat → Location} {inChain inLoop : Bool}
    {attributes : List RawAttribute} {is : List StartItem}
    (h : items locate inChain inLoop attributes = .ok is) :
    (roleOf (is.filterMap StartItem.directive?)).map ChainRole.kind =
      attributes.findSome? branchKind? := by
  replace h := itemized_of_items h
  have notChain {a : RawAttribute} (h : a.isChain = false) : a.branchKind? = none :=
    branchKind?_of_not_isChain (by simp [h])
  induction h with
  | nil => rfl
  | branch hchain hs _ _ =>
    obtain ⟨⟨role, hrole⟩, -⟩ := chainRole_ok hs
    have hkind := chainRole_kind hchain hs
    rw [hrole, Option.map_some] at hkind
    rw [List.findSome?_cons, ← hkind]
    simp only [roleOf, List.filterMap_cons, StartItem.directive?, List.findSome?_cons,
      Directive.structure?, Option.bind_some, hrole, Option.map_some]
  | loop hchain _ hs _ ih =>
    rw [List.findSome?_cons, notChain hchain, ← ih]
    simp only [roleOf, List.filterMap_cons, StartItem.directive?, List.findSome?_cons,
      Directive.structure?, Option.bind_some, (loopRole_ok hs).1]
  | @plain _ _ a rest item more hchain _ hitem _ ih =>
    rw [List.findSome?_cons, notChain hchain, ← ih]
    cases hd : item.directive? with
    | none => simp only [List.filterMap_cons, hd]
    | some d =>
      simp only [roleOf, List.filterMap_cons, hd, List.findSome?_cons,
        (plainItem_ok hitem d hd).1, Option.bind_none]

end RawAttribute

/-- The node of a start tag is neither a chain nor something that may stand in one. -/
theorem Node.ofStart_alone (platform : Platform) (tag : String) (attributes : List Attribute)
    (directives : List Directive) (selfClosing : Bool) (location : Location)
    (children : List Node) (depth : Nat) :
    let n := (Node.ofStart platform tag attributes directives selfClosing location children).looped
      directives depth location
    n.isSkippable = false ∧ n.members = [(none, n)] := by
  unfold Node.looped Node.ofStart
  split
  · split <;> exact ⟨rfl, rfl⟩
  · exact ⟨rfl, rfl⟩

theorem Raw.lower_reads {platform : Platform} {locate : Nat → Location} {depth : Nat} {r : Raw}
    {s : Sibling} (h : lower platform locate depth r = .ok s) : r.Reads s := by
  cases r with
  | text value start =>
    cases h
    exact ⟨rfl, rfl, rfl, rfl⟩
  | comment value start =>
    cases h
    exact ⟨rfl, rfl, rfl, rfl⟩
  | interpolation source start =>
    obtain ⟨e, -, h⟩ := Except.bind_eq_ok.mp h
    cases h
    exact ⟨rfl, rfl, rfl, rfl⟩
  | element tag attributes selfClosing start children =>
    rw [lower] at h
    obtain ⟨items, hitems, h⟩ := Except.bind_eq_ok.mp h
    obtain ⟨nodes, -, h⟩ := Except.bind_eq_ok.mp h
    dsimp only at h
    split at h
    · cases h
    · cases h
      obtain ⟨hskippable, halone⟩ := Node.ofStart_alone platform tag
        (items.filterMap StartItem.attribute?) (items.filterMap StartItem.directive?) selfClosing
        (locate start) nodes depth
      exact ⟨RawAttribute.items_kind hitems, hskippable, rfl, halone⟩

namespace Raw

theorem solid?_cons_skippable {r : Raw} (h : r.isSkippable = true) (rs : List Raw) :
    solid? (r :: rs) = solid? rs := by
  simp [solid?, h]

theorem any_solid?_cons_solid {r : Raw} (h : r.isSkippable = false) (rs : List Raw)
    (f : Raw → Bool) : (solid? (r :: rs)).any f = f r := by
  simp [solid?, h]

section Branch

variable {r : Raw} {kind : BranchKind}

/-- A branch is neither a comment nor a blank text. -/
theorem isSkippable_of_branchKind? (h : r.branchKind? = some kind) : r.isSkippable = false := by
  cases r with
  | element => rfl
  | _ => cases h

theorem opensChain_of_branchKind? (h : r.branchKind? = some kind) :
    r.opensChain = (kind != .otherwise) := by
  rw [opensChain, h]
  cases kind <;> rfl

theorem goesOnChain_of_branchKind? (h : r.branchKind? = some kind) :
    r.goesOnChain = (kind != .onlyIf) := by
  rw [goesOnChain, h]
  cases kind <;> rfl

end Branch

theorem opensChain_of_none {r : Raw} (h : r.branchKind? = none) : r.opensChain = false := by
  rw [opensChain, h]
  rfl

theorem goesOnChain_of_none {r : Raw} (h : r.branchKind? = none) : r.goesOnChain = false := by
  rw [goesOnChain, h]
  rfl

end Raw

/-! ## Forming chains -/

/-- What comes of forming chains: the flaw of the first branch that follows no other, or nodes with
the given members. -/
inductive Groups (members : List (Option ChainRole × Node)) :
    Option Among → Except Flaw (List Node) → Prop where
  | stray (c : Among) : Groups members (some c) (.error c.strayFlaw)
  | formed {nodes : List Node} (h : nodes.flatMap Node.members = members) :
    Groups members none (.ok nodes)

/-- More nodes before those that are formed. -/
theorem Groups.after {members : List (Option ChainRole × Node)} {stray : Option Among}
    {x : Except Flaw (List Node)} (h : Groups members stray x) (before : List Node) :
    Groups (before.flatMap Node.members ++ members) stray
      (x >>= fun more => .ok (before ++ more)) := by
  cases h with
  | stray c => exact .stray c
  | formed h =>
    refine .formed ?_
    rw [List.flatMap_append, h]

namespace OpenChain

/-- The members of a chain that may go on, before the nodes to come: what was parked goes with them
if the chain does not go on. -/
def members (c : OpenChain) (rest : List Raw) : List (Option ChainRole × Node) :=
  c.branches.flatMap Branch.members ++
    if (Raw.solid? rest).any Raw.goesOnChain then [] else c.parked.map fun n => (none, n)

/-- The members of a chain that may be there. -/
def membersOf (chain : Option OpenChain) (rest : List Raw) : List (Option ChainRole × Node) :=
  match chain with
  | none => []
  | some c => c.members rest

/-- What was parked is no chain. -/
def Parks (chain : Option OpenChain) : Prop :=
  ∀ c ∈ chain, ∀ n ∈ c.parked, n.members = [(none, n)]

theorem parks_none : Parks none :=
  fun c h => absurd h (Option.not_mem_none c)

theorem flatMap_members_of_alone {ns : List Node} (h : ∀ n ∈ ns, n.members = [(none, n)]) :
    ns.flatMap Node.members = ns.map fun n => (none, n) := by
  induction ns with
  | nil => rfl
  | cons n ns ih =>
    obtain ⟨hn, hns⟩ := List.forall_mem_cons.mp h
    rw [List.flatMap_cons, hn, ih hns]
    rfl

theorem members_of_parked_nil {c : OpenChain} (h : c.parked = []) (rest : List Raw) :
    c.members rest = c.branches.flatMap Branch.members := by
  rw [members, h]
  simp

/-- One branch more leaves out what was parked. -/
theorem members_extend (c : OpenChain) (role : ChainRole) (s : Sibling) (rest : List Raw) :
    (c.extend (role.branch s)).members rest =
      c.branches.flatMap Branch.members ++ [(some role, s.node)] := by
  rw [members_of_parked_nil rfl, extend, List.flatMap_append, List.flatMap_cons,
    ChainRole.members_branch]
  rfl

/-- A chain that goes on gives the nodes of its branches. -/
theorem members_of_goesOn {rest : List Raw}
    (h : (Raw.solid? rest).any Raw.goesOnChain = true) (c : OpenChain) :
    c.members rest = c.branches.flatMap Branch.members := by
  rw [members, if_pos h, List.append_nil]

/-- A chain that does not go on gives all its members. -/
theorem flatMap_members_closeAll {chain : Option OpenChain} (hparks : Parks chain)
    {rest : List Raw} (h : (Raw.solid? rest).any Raw.goesOnChain = false) :
    (closeAll chain).flatMap Node.members = membersOf chain rest := by
  cases chain with
  | none => rfl
  | some c =>
    rw [closeAll, close, List.flatMap_cons, flatMap_members_of_alone (hparks c rfl), membersOf,
      members, h]
    rfl

end OpenChain

/-! ## One sibling more -/

section Step

variable {r : Raw} {s : Sibling} {before rs : List Raw} {siblings : List Sibling}

theorem Among.keptMembers_of_isBetween (h : Among.isBetween ⟨before, r, rs⟩ = true) :
    keptMembers (Raw.amongAll before (r :: rs)) (s :: siblings) =
      keptMembers (Raw.amongAll (r :: before) rs) siblings := by
  simp [keptMembers, Raw.amongAll, h]

theorem Among.keptMembers_of_not_isBetween (h : Among.isBetween ⟨before, r, rs⟩ = false) :
    keptMembers (Raw.amongAll before (r :: rs)) (s :: siblings) =
      s.member :: keptMembers (Raw.amongAll (r :: before) rs) siblings := by
  simp [keptMembers, Raw.amongAll, h]

/-- A node that is neither a comment nor a blank text stays. -/
theorem Among.keptMembers_of_solid (h : r.isSkippable = false) :
    keptMembers (Raw.amongAll before (r :: rs)) (s :: siblings) =
      s.member :: keptMembers (Raw.amongAll (r :: before) rs) siblings :=
  keptMembers_of_not_isBetween (by simp [isBetween, h])

/-- A branch that has to follow another and follows none is the first such branch. -/
theorem Raw.find?_isStray_of_goesOn (hgoes : r.goesOnChain = true)
    (h : (solid? before).any opensChain = false) :
    (amongAll before (r :: rs)).find? Among.isStray = some ⟨before, r, rs⟩ :=
  List.find?_cons_of_pos (by simp [Among.isStray, Among.followsBranch, hgoes, h])

theorem Raw.find?_isStray_of_follows (h : (solid? before).any opensChain = true) :
    (amongAll before (r :: rs)).find? Among.isStray =
      (amongAll (r :: before) rs).find? Among.isStray :=
  List.find?_cons_of_neg (by simp [Among.isStray, Among.followsBranch, h])

theorem Raw.find?_isStray_of_not_goesOn (h : r.goesOnChain = false) :
    (amongAll before (r :: rs)).find? Among.isStray =
      (amongAll (r :: before) rs).find? Among.isStray :=
  List.find?_cons_of_neg (by simp [Among.isStray, h])

/-- Forming chains of what was read from `rs`, behind the nodes `before` and an open chain, gives
`x`: the flaw of the first branch that follows no other, or nodes with the members that are left. -/
def Forms (chain : Option OpenChain) (before rs : List Raw) (siblings : List Sibling)
    (x : Except Flaw (List Node)) : Prop :=
  Groups (OpenChain.membersOf chain rs ++ Among.keptMembers (Raw.amongAll before rs) siblings)
    ((Raw.amongAll before rs).find? Among.isStray) x

namespace Forms

variable {chain : Option OpenChain} {c : OpenChain} {x : Except Flaw (List Node)}
  {role : ChainRole}

/-- A branch that starts a chain: a chain before it does not go on. -/
theorem start (hkind : r.branchKind? = some .onlyIf) (hrole : s.role = some role)
    (hparks : OpenChain.Parks chain)
    (h : Forms (some ⟨[role.branch s], s.location, []⟩) (r :: before) rs siblings x) :
    Forms chain before (r :: rs) (s :: siblings)
      (x >>= fun more => .ok (OpenChain.closeAll chain ++ more)) := by
  have hsolid := Raw.isSkippable_of_branchKind? hkind
  have hgoes := Raw.goesOnChain_of_branchKind? hkind
  rw [Forms, OpenChain.membersOf, OpenChain.members_of_parked_nil rfl, List.flatMap_cons,
    ChainRole.members_branch, ← hrole] at h
  rw [Forms, Raw.find?_isStray_of_not_goesOn hgoes, Among.keptMembers_of_solid hsolid,
    ← OpenChain.flatMap_members_closeAll hparks
      ((Raw.any_solid?_cons_solid hsolid rs _).trans hgoes)]
  exact h.after _

/-- A branch that has to follow another and follows none. -/
theorem stray {kind : BranchKind} (hkind : r.branchKind? = some kind) (hne : kind ≠ .onlyIf)
    (hstart : s.start = r.start) (hopen : (Raw.solid? before).any Raw.opensChain = false) :
    Forms chain before (r :: rs) (s :: siblings)
      (.error ⟨if kind = .elseIf then .strayElseIf else .strayElse, s.start⟩) := by
  have hgoes : r.goesOnChain = true := by
    rw [Raw.goesOnChain_of_branchKind? hkind]
    simpa using hne
  have hflaw : Among.strayFlaw ⟨before, r, rs⟩ =
      ⟨if kind = .elseIf then .strayElseIf else .strayElse, s.start⟩ := by
    rw [Among.strayFlaw, hkind, hstart]
    simp only [Option.some.injEq]
  rw [Forms, Raw.find?_isStray_of_goesOn hgoes hopen, ← hflaw]
  exact .stray _

/-- A branch after which the chain may go on. -/
theorem goOn (hkind : r.branchKind? = some .elseIf) (hrole : s.role = some role)
    (hopen : (Raw.solid? before).any Raw.opensChain = true)
    (h : Forms (some (c.extend (role.branch s))) (r :: before) rs siblings x) :
    Forms (some c) before (r :: rs) (s :: siblings) x := by
  have hsolid := Raw.isSkippable_of_branchKind? hkind
  have hgoes := Raw.goesOnChain_of_branchKind? hkind
  rw [Forms, OpenChain.membersOf, OpenChain.members_extend, ← hrole, List.append_assoc] at h
  rw [Forms, Raw.find?_isStray_of_follows hopen, Among.keptMembers_of_solid hsolid,
    OpenChain.membersOf, OpenChain.members_of_goesOn
      ((Raw.any_solid?_cons_solid hsolid rs _).trans hgoes)]
  exact h

/-- The last branch of a chain. -/
theorem finish (hkind : r.branchKind? = some .otherwise) (hrole : s.role = some role)
    (hopen : (Raw.solid? before).any Raw.opensChain = true)
    (h : Forms none (r :: before) rs siblings x) :
    Forms (some c) before (r :: rs) (s :: siblings)
      (x >>= fun more => .ok ((c.extend (role.branch s)).close ++ more)) := by
  have hsolid := Raw.isSkippable_of_branchKind? hkind
  have hgoes := Raw.goesOnChain_of_branchKind? hkind
  have hclose : (c.extend (role.branch s)).close.flatMap Node.members =
      c.branches.flatMap Branch.members ++ [s.member] := by
    rw [OpenChain.close, List.flatMap_cons]
    show (c.extend (role.branch s)).branches.flatMap Branch.members ++ [] = _
    rw [List.append_nil, OpenChain.extend, List.flatMap_append, List.flatMap_cons,
      ChainRole.members_branch, ← hrole]
    rfl
  have hafter := h.after (c.extend (role.branch s)).close
  rw [hclose, List.append_assoc] at hafter
  rw [Forms, Raw.find?_isStray_of_follows hopen, Among.keptMembers_of_solid hsolid,
    OpenChain.membersOf, OpenChain.members_of_goesOn
      ((Raw.any_solid?_cons_solid hsolid rs _).trans hgoes)]
  exact hafter

/-- A node in no place of a chain, after which a chain before it does not go on. -/
theorem apart (hkind : r.branchKind? = none) (hrole : s.role = none)
    (halone : s.node.members = [(none, s.node)])
    (hbetween : Among.isBetween ⟨before, r, rs⟩ = false)
    (hmembers : (OpenChain.closeAll chain).flatMap Node.members =
      OpenChain.membersOf chain (r :: rs))
    (h : Forms none (r :: before) rs siblings x) :
    Forms chain before (r :: rs) (s :: siblings)
      (x >>= fun more => .ok (OpenChain.closeAll chain ++ s.node :: more)) := by
  have hafter := h.after (OpenChain.closeAll chain ++ [s.node])
  rw [List.flatMap_append, List.flatMap_singleton, halone, ← hrole, hmembers,
    List.append_assoc] at hafter
  simp only [List.append_assoc, List.singleton_append] at hafter
  rw [Forms, Raw.find?_isStray_of_not_goesOn (Raw.goesOnChain_of_none hkind),
    Among.keptMembers_of_not_isBetween hbetween]
  exact hafter

/-- A comment or a blank text after a chain that may go on. -/
theorem park (hskippable : r.isSkippable = true) (hkind : r.branchKind? = none)
    (hrole : s.role = none) (hopen : (Raw.solid? before).any Raw.opensChain = true)
    (h : Forms (some { c with parked := c.parked ++ [s.node] }) (r :: before) rs siblings x) :
    Forms (some c) before (r :: rs) (s :: siblings) x := by
  rw [Forms, Raw.find?_isStray_of_not_goesOn (Raw.goesOnChain_of_none hkind)]
  cases hnext : (Raw.solid? rs).any Raw.goesOnChain with
  | true =>
    -- It stands between two branches, and is left out on both sides.
    have hbetween : Among.isBetween ⟨before, r, rs⟩ = true := by
      simp [Among.isBetween, Among.followsBranch, hskippable, hopen, hnext]
    rw [Forms, OpenChain.membersOf, OpenChain.members_of_goesOn hnext] at h
    rw [Among.keptMembers_of_isBetween hbetween, OpenChain.membersOf,
      OpenChain.members_of_goesOn (by rw [Raw.solid?_cons_skippable hskippable, hnext])]
    exact h
  | false =>
    have hbetween : Among.isBetween ⟨before, r, rs⟩ = false := by
      simp [Among.isBetween, hnext]
    rw [Forms, OpenChain.membersOf, OpenChain.members, hnext] at h
    rw [Among.keptMembers_of_not_isBetween hbetween, OpenChain.membersOf, OpenChain.members,
      Raw.solid?_cons_skippable hskippable, hnext, Sibling.member, hrole]
    simpa using h

end Forms

end Step

/-- Forming chains, behind an open chain if the nearest node before that is neither a comment nor a
blank text is a branch that another may follow. -/
theorem groupFrom_forms {rs before : List Raw} {siblings : List Sibling}
    (h : List.Forall₂ Raw.Reads rs siblings) (chain : Option OpenChain)
    (hopen : chain.isSome = (Raw.solid? before).any Raw.opensChain)
    (hparks : OpenChain.Parks chain) :
    Forms chain before rs siblings (groupFrom chain siblings) := by
  induction h generalizing before chain with
  | nil =>
    refine .formed ?_
    have hends : (Raw.solid? []).any Raw.goesOnChain = false := rfl
    rw [OpenChain.flatMap_members_closeAll hparks hends]
    exact (List.append_nil _).symm
  | @cons r s rs siblings hr hrest ih =>
    have hkind := hr.kind
    -- What is open after a node that is neither a comment nor a blank text.
    have solid (hsolid : r.isSkippable = false) {chain' : Option OpenChain}
        (hopen : chain'.isSome = r.opensChain) (hparks : OpenChain.Parks chain') :
        Forms chain' (r :: before) rs siblings (groupFrom chain' siblings) :=
      ih chain' (hopen.trans (Raw.any_solid?_cons_solid hsolid before _).symm) hparks
    have unparked {c : OpenChain} (h : c.parked = []) : OpenChain.Parks (some c) := by
      rintro c' ⟨⟩
      simp [h]
    unfold groupFrom
    cases hrole : s.role with
    | none =>
      rw [hrole] at hkind
      cases chain with
      | none =>
        have hbetween : Among.isBetween ⟨before, r, rs⟩ = false := by
          simp [Among.isBetween, Among.followsBranch, ← hopen]
        refine .apart hkind.symm hrole hr.alone hbetween rfl ?_
        cases hskippable : r.isSkippable with
        | true =>
          exact ih none (by rw [Raw.solid?_cons_skippable hskippable, ← hopen])
            OpenChain.parks_none
        | false =>
          exact solid hskippable (Raw.opensChain_of_none hkind.symm).symm OpenChain.parks_none
      | some c =>
        dsimp only
        rw [hr.skippable]
        split
        · rename_i hskippable
          refine .park hskippable hkind.symm hrole hopen.symm (ih _ ?_ ?_)
          · rw [Raw.solid?_cons_skippable hskippable, ← hopen]
            rfl
          · rintro c' ⟨⟩
            exact List.forall_mem_append.mpr ⟨hparks c rfl, List.forall_mem_singleton.mpr hr.alone⟩
        · rename_i hsolid
          rw [Bool.not_eq_true] at hsolid
          have hbetween : Among.isBetween ⟨before, r, rs⟩ = false := by
            simp [Among.isBetween, hsolid]
          have hmembers := OpenChain.flatMap_members_closeAll hparks
            ((Raw.any_solid?_cons_solid hsolid rs _).trans (Raw.goesOnChain_of_none hkind.symm))
          exact .apart hkind.symm hrole hr.alone hbetween hmembers
            (solid hsolid (Raw.opensChain_of_none hkind.symm).symm OpenChain.parks_none)
    | some role =>
      rw [hrole, Option.map_some] at hkind
      have hopens := Raw.opensChain_of_branchKind? hkind.symm
      have hsolid := Raw.isSkippable_of_branchKind? hkind.symm
      cases role with
      | onlyIf condition =>
        exact .start hkind.symm hrole hparks (solid hsolid hopens.symm (unparked rfl))
      | elseIf condition =>
        cases chain with
        | none => exact .stray hkind.symm (by simp [ChainRole.kind]) hr.start hopen.symm
        | some c =>
          exact .goOn hkind.symm hrole hopen.symm (solid hsolid hopens.symm (unparked rfl))
      | otherwise =>
        cases chain with
        | none => exact .stray hkind.symm (by simp [ChainRole.kind]) hr.start hopen.symm
        | some c =>
          exact .finish hkind.symm hrole hopen.symm (solid hsolid hopens.symm OpenChain.parks_none)

/-! ## Siblings that can be read -/

namespace Raw

section

variable {platform : Platform} {locate : Nat → Location} {depth : Nat} {rs : List Raw}
  {siblings : List Sibling}

theorem reads_of_mapM (h : rs.mapM (lower platform locate depth) = .ok siblings) :
    List.Forall₂ Reads rs siblings := by
  induction rs generalizing siblings with
  | nil =>
    cases h
    exact .nil
  | cons r rs ih =>
    rw [List.mapM_cons] at h
    obtain ⟨s, more, hs, hmore, rfl⟩ := Except.cons_eq_ok h
    exact .cons (lower_reads hs) (ih hmore)

theorem lowerEach_of_mapM (h : rs.mapM (lower platform locate depth) = .ok siblings) :
    lowerEach platform locate depth rs = (siblings, none) := by
  induction rs generalizing siblings with
  | nil =>
    cases h
    rfl
  | cons r rs ih =>
    rw [List.mapM_cons] at h
    obtain ⟨s, more, hs, hmore, rfl⟩ := Except.cons_eq_ok h
    rw [lowerEach, hs, ih hmore]

/-- Siblings of which each can be read by itself, with superfluous blanks left out, fail exactly if
there is a branch that has to follow another and follows none, and at the first one. Otherwise the
nodes, with each chain replaced by its branches, are the siblings in their order, but for the
comments and blank texts between two branches of one chain. -/
theorem settle_lowerEach (whitespace : Whitespace)
    (h : (whitespace.kept rs).mapM (lower platform locate depth) = .ok siblings) :
    (∀ flaw, settle (lowerEach platform locate depth (whitespace.kept rs)) = .error flaw ↔
      ∃ c, (amongAll [] (whitespace.kept rs)).find? Among.isStray = some c ∧
        flaw = c.strayFlaw) ∧
    ((∀ c ∈ amongAll [] (whitespace.kept rs), c.isStray = false) →
      ∃ nodes, settle (lowerEach platform locate depth (whitespace.kept rs)) = .ok nodes ∧
        nodes.flatMap Node.members =
          Among.keptMembers (amongAll [] (whitespace.kept rs)) siblings) := by
  have hforms : Forms none [] (whitespace.kept rs) siblings (groupFrom none siblings) :=
    groupFrom_forms (reads_of_mapM h) none rfl OpenChain.parks_none
  rw [Forms, OpenChain.membersOf, List.nil_append] at hforms
  rw [lowerEach_of_mapM h]
  have hsettle : settle (siblings, none) = groupFrom none siblings := by
    show (groupFrom none siblings >>= fun nodes => .ok nodes) = _
    cases groupFrom none siblings <;> rfl
  rw [hsettle]
  generalize groupFrom none siblings = grouped at hforms
  cases hstray : (amongAll [] (whitespace.kept rs)).find? Among.isStray with
  | none =>
    rw [hstray] at hforms
    cases hforms with
    | formed hmembers =>
      refine ⟨fun flaw => ⟨nofun, ?_⟩, fun _ => ⟨_, rfl, hmembers⟩⟩
      rintro ⟨c, hc, -⟩
      cases hc
  | some c =>
    rw [hstray] at hforms
    cases hforms with
    | stray _ =>
      refine ⟨fun flaw => ⟨?_, ?_⟩, fun hnone => ?_⟩
      · rintro ⟨⟩
        exact ⟨c, rfl, rfl⟩
      · rintro ⟨_, ⟨⟩, rfl⟩
        rfl
      · have hfalse := hnone c (List.mem_of_find?_eq_some hstray)
        rw [List.find?_some hstray] at hfalse
        cases hfalse

/-- A chain of three branches with a comment and blanks between them, and a text after it. -/
def threeBranches : String :=
  "<!-- a --><a v-if=\"x\"/> <!-- b --><b v-else-if=\"y\"/><slot v-else/> z"

/-- The comment and the blank text between the first two branches are left out, the comment before
the chain and the text after it are not. -/
theorem settle_lowerEach_threeBranches :
    ∃ rs siblings nodes, read threeBranches.toList = .ok rs ∧
      rs.mapM (lower .web (Location.locate threeBranches.toList) 0) = .ok siblings ∧
      siblings.length = 7 ∧
      (amongAll [] rs).map Among.isBetween = [false, false, true, true, false, false, false] ∧
      settle (lowerEach .web (Location.locate threeBranches.toList) 0 rs) = .ok nodes ∧
      nodes.flatMap Node.members = Among.keptMembers (amongAll [] rs) siblings := by
  have hrun : (read threeBranches.toList).toOption.bind (fun rs =>
      (rs.mapM (lower .web (Location.locate threeBranches.toList) 0)).toOption.map fun siblings =>
        (siblings.length, (amongAll [] rs).map Among.isBetween,
          (amongAll [] rs).all fun c => !c.isStray)) =
      some (7, [false, false, true, true, false, false, false], true) := by
    decide +kernel
  cases hread : read threeBranches.toList with
  | error flaw =>
    rw [hread] at hrun
    cases hrun
  | ok rs =>
    rw [hread] at hrun
    obtain ⟨siblings, hsiblings, hrun⟩ := Option.map_eq_some_iff.mp hrun
    rw [Except.toOption_eq_some] at hsiblings
    obtain ⟨hlength, hrest⟩ := Prod.mk.inj hrun
    obtain ⟨hbetween, hstray⟩ := Prod.mk.inj hrest
    obtain ⟨nodes, hnodes, hmembers⟩ := (settle_lowerEach .preserve hsiblings).2 fun c hc => by
      simpa using List.all_eq_true.mp hstray c hc
    exact ⟨rs, siblings, nodes, rfl, hsiblings, hlength, hbetween, hnodes, hmembers⟩

end

end Raw

end UiTemplate
