import UiTemplate.Diagnostic
import UiTemplate.Helper.Meaning
import UiTemplate.Template.Node

/-!
# Resolving slots

Each slot stands for an outlet. What the outlet is called, and what becomes of the slot's fallback,
hangs on the slot, the loops and the branches around it and the family, and on nothing else;
`Template.resolveSlots` writes it into the tree. `Outlet.report` lists the outlets in the order of
the text and checks that no two of them can meet.
-/

namespace UiTemplate

namespace Resolution

/-- Whether the outlet is in a loop. -/
def isIterated (r : Resolution) : Bool :=
  !r.loopPath.isEmpty

/-- The identity of the outlet at the given positions in the loops around it, unless its name is
computed. -/
def identityAt (r : Resolution) (indices : List Nat) : Option String :=
  match r.base with
  | .fixed name => some (Helper.outletIdentity name indices)
  | .computed _ => none

end Resolution

namespace Outlet

/-! ## Outlets that can meet

The outlet of a slot inside loops is the name of the slot, then a dash and a position for each loop.
So two slots can end up with one outlet although their names differ. -/

/-- Whether a text is `n` times a dash and a number in decimal digits. -/
def isIndexSuffix : Nat → List Char → Bool
  | 0, cs => cs.isEmpty
  | n + 1, '-' :: cs =>
    !(cs.takeWhile Char.isDigit).isEmpty && isIndexSuffix n (cs.dropWhile Char.isDigit)
  | _ + 1, _ => false

/-- Whether `long` is `short` and then `n` positions. -/
def extends? (short long : List Char) (n : Nat) : Bool :=
  short.isPrefixOf long && isIndexSuffix n (long.drop short.length)

/-- Whether the names `a` inside `m` loops and `b` inside `n` loops can be one outlet: the one with
fewer loops around it spells the other one with the positions that it lacks. -/
def namesOverlap (a : List Char) (m : Nat) (b : List Char) (n : Nat) : Bool :=
  if m ≤ n then extends? b a (n - m) else extends? a b (m - n)

/-! ## What a slot stands for -/

/-- The name an outlet is registered under. -/
def normalize (capabilities : Capabilities) (name : String) : String :=
  if name = "" || name = "default" then capabilities.defaultOutlet else name

/-- The name of a slot's outlet. A name that is computed to the same text always is fixed. -/
def baseOf (capabilities : Capabilities) (slot : SlotInfo) : OutletBase :=
  match slot.dynamicName with
  | some e =>
    match e.constant? with
    | some name => .fixed (normalize capabilities name)
    | none => .computed e
  | none => .fixed (normalize capabilities (slot.staticName.getD "default"))

/-- What becomes of a fallback. -/
def policyFor (capabilities : Capabilities) (fallback : List Node) : FallbackPolicy :=
  if fallback.isEmpty then .none
  else if capabilities.introspectsOutlets then .inline
  else .dualBranch

/-- How a slot inside the given loops and branch is resolved. -/
def resolve (capabilities : Capabilities) (loops : List Nat) (branch : Option Nat) (slot : SlotInfo)
    (fallback : List Node) : Resolution where
  base := baseOf capabilities slot
  loopPath := loops
  branch := branch
  fallback := policyFor capabilities fallback

end Outlet

/-! ## In the tree -/

mutual

/-- The node with its slots resolved. -/
def Node.resolveSlots (capabilities : Capabilities) (loops : List Nat) (branch : Option Nat) :
    Node → Node
  | .element info children =>
    .element info (Node.resolveSlotsAll capabilities loops branch children)
  | .text value location => .text value location
  | .interpolation expression key location => .interpolation expression key location
  | .slot info fallback =>
    .slot { info with resolution := some (Outlet.resolve capabilities loops branch info fallback) }
      (Node.resolveSlotsAll capabilities loops branch fallback)
  | .chain branches key location =>
    .chain (Branch.resolveSlotsAll capabilities loops 0 branches) key location
  | .loop info children =>
    .loop info (Node.resolveSlotsAll capabilities (loops ++ [info.depth]) branch children)
  | .comment value location => .comment value location

/-- The nodes with their slots resolved. -/
def Node.resolveSlotsAll (capabilities : Capabilities) (loops : List Nat) (branch : Option Nat) :
    List Node → List Node
  | [] => []
  | n :: rest =>
    n.resolveSlots capabilities loops branch :: Node.resolveSlotsAll capabilities loops branch rest

/-- The branches from an index on with their slots resolved. -/
def Branch.resolveSlotsAll (capabilities : Capabilities) (loops : List Nat) (index : Nat) :
    List Branch → List Branch
  | [] => []
  | .mk info children :: rest =>
    .mk info (Node.resolveSlotsAll capabilities loops (some index) children) ::
      Branch.resolveSlotsAll capabilities loops (index + 1) rest

end

/-- The tree with its slots resolved. -/
def Template.resolveSlots (capabilities : Capabilities) (nodes : List Node) : List Node :=
  Node.resolveSlotsAll capabilities [] none nodes

/-! ## Sites -/

/-- A slot with what is around it: the depths of the loops, and the chains with the index of the
branch. -/
structure SlotSite where
  path : Path
  slot : SlotInfo
  fallback : List Node
  loops : List Nat
  branches : List (Path × Nat)

mutual

/-- The slots of a node in the order of the text. -/
def Node.slotSites (path : Path) (loops : List Nat) (branches : List (Path × Nat)) :
    Node → List SlotSite
  | .element _ children => Node.slotSitesAll path 0 loops branches children
  | .text .. => []
  | .interpolation .. => []
  | .slot info fallback =>
    ⟨path, info, fallback, loops, branches⟩ :: Node.slotSitesAll path 0 loops branches fallback
  | .chain members _ _ => Branch.slotSitesAll path 0 loops branches members
  | .loop info children => Node.slotSitesAll path 0 (loops ++ [info.depth]) branches children
  | .comment .. => []

/-- The slots of the children of a node from an index on. -/
def Node.slotSitesAll (parent : Path) (index : Nat) (loops : List Nat)
    (branches : List (Path × Nat)) : List Node → List SlotSite
  | [] => []
  | n :: rest =>
    n.slotSites (parent.child index) loops branches ++
      Node.slotSitesAll parent (index + 1) loops branches rest

/-- The slots of the branches of a chain from an index on. -/
def Branch.slotSitesAll (parent : Path) (index : Nat) (loops : List Nat)
    (branches : List (Path × Nat)) : List Branch → List SlotSite
  | [] => []
  | .mk _ children :: rest =>
    Node.slotSitesAll (parent.child index) 0 loops (branches ++ [(parent, index)]) children ++
      Branch.slotSitesAll parent (index + 1) loops branches rest

end

/-- The slots of a tree in the order of the text. -/
def Template.slotSites (nodes : List Node) : List SlotSite :=
  Node.slotSitesAll [] 0 [] [] nodes

/-! ## The report -/

namespace SlotSite

/-- Whether two slots lie in different branches of one chain, so that they never render together. -/
def isExclusive (a b : SlotSite) : Bool :=
  a.branches.any fun (chain, i) => b.branches.any fun (chain', j) => chain == chain' && i != j

/-- How the slot is resolved. -/
def resolution (capabilities : Capabilities) (s : SlotSite) : Resolution :=
  Outlet.resolve capabilities s.loops (s.branches.getLast?.map Prod.snd) s.slot s.fallback

/-- Whether two slots can have one outlet. Names that are computed meet if they are written
alike. -/
def clashes (capabilities : Capabilities) (a b : SlotSite) : Bool :=
  match Outlet.baseOf capabilities a.slot, Outlet.baseOf capabilities b.slot with
  | .fixed x, .fixed y =>
    Outlet.namesOverlap x.toList a.loops.length y.toList b.loops.length
  | .computed x, .computed y => x.source == y.source && a.loops.length == b.loops.length
  | _, _ => false

/-- The name of the slot's outlet as messages show it. -/
def shownName (capabilities : Capabilities) (s : SlotSite) : String :=
  match Outlet.baseOf capabilities s.slot with
  | .fixed name => name
  | .computed e => e.source

/-- The first slot among earlier ones that this one collides with. -/
def collision? (capabilities : Capabilities) (seen : List SlotSite) (s : SlotSite) :
    Option SlotSite :=
  seen.find? fun earlier => earlier.clashes capabilities s && !earlier.isExclusive s

/-- What is wrong with an event on the slot. -/
def eventFault? (s : SlotSite) : Option Diagnostic :=
  ((bindings s.slot.directives).find? fun b => b.kind == .event).map fun b =>
    ⟨.eventOnSlot b.name, s.path, b.location⟩

end SlotSite

/-- What is listed of an outlet. -/
structure OutletSummary where
  path : Path
  base : OutletBase
  iterated : Bool
  fallback : FallbackPolicy

/-- The outlets of a tree, and what is wrong with them. -/
structure SlotReport where
  outlets : List OutletSummary
  errors : List Diagnostic

namespace Outlet

/-- What is listed of a slot's outlet. -/
def summarize (capabilities : Capabilities) (s : SlotSite) : OutletSummary :=
  let r := s.resolution capabilities
  ⟨s.path, r.base, r.isIterated, r.fallback⟩

/-- What is wrong with slots, given the slots before them that do not collide. A slot that collides
is not compared with later ones. -/
def faults (capabilities : Capabilities) (seen : List SlotSite) : List SlotSite → List Diagnostic
  | [] => []
  | s :: rest =>
    s.eventFault?.toList ++
      match s.collision? capabilities seen with
      | some earlier =>
        ⟨.collision (s.shownName capabilities) earlier.path, s.path, s.slot.location⟩ ::
          faults capabilities seen rest
      | none => faults capabilities (seen ++ [s]) rest

/-- The report on the slots of a tree. -/
def report (capabilities : Capabilities) (nodes : List Node) : SlotReport :=
  let sites := Template.slotSites nodes
  ⟨sites.map (summarize capabilities), faults capabilities [] sites⟩

end Outlet

end UiTemplate
