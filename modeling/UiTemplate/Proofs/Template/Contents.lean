import UiTemplate.Proofs.Compile.Annotate
import UiTemplate.Proofs.Printing.Condense
import UiTemplate.Proofs.Result
import UiTemplate.Proofs.Template.Extent
import UiTemplate.Proofs.Template.WellFormed

/-!
# What trees contain

Expressions, locations and numbers come into a tree in a few places only; what holds of them there
holds of all in the tree.

- `Node.Meets`: the expressions, locations and numbers of a node meet a demand.
- `Template.read_meets`: in a tree that was read, expressions were read from texts, locations are
  those of bytes of the template, and numbers are smaller than the template is long.
- `Template.resolveSlots_meets`, `Template.extract_meets`: resolving slots and extracting bound
  values bring in nothing else.
-/

namespace UiTemplate

/-- What is asked of the expressions, the locations and the numbers in a tree. -/
structure Demand where
  expression : Expression → Prop
  location : Location → Prop
  number : Nat → Prop

variable {D : Demand}

/-! ## Demands on nodes -/

/-- The expressions of a structural directive. -/
def Structure.expressions : Structure → List Expression
  | .onlyIf condition => [condition]
  | .elseIf condition => [condition]
  | .otherwise => []
  | .forEach source _ _ => [source]

/-- The expression and the location of a directive meet the demand. -/
def Directive.Meets (D : Demand) : Directive → Prop
  | .structural s location => (∀ e ∈ s.expressions, D.expression e) ∧ D.location location
  | .binding b => D.expression b.expression ∧ D.location b.location
  | .unsupported _ _ location => D.location location

/-- The expression of an outlet's name. -/
def OutletBase.expression? : OutletBase → Option Expression
  | .fixed _ => none
  | .computed e => some e

/-- A resolution meets the demand. -/
structure Resolution.Meets (D : Demand) (r : Resolution) : Prop where
  base : ∀ e ∈ r.base.expression?, D.expression e
  loops : ∀ depth ∈ r.loopPath, D.number depth
  branch : ∀ index ∈ r.branch, D.number index

/-- An element by itself meets the demand. -/
structure ElementInfo.Meets (D : Demand) (info : ElementInfo) : Prop where
  attributes : ∀ a ∈ info.attributes, D.location a.location
  directives : ∀ d ∈ info.directives, d.Meets D
  location : D.location info.location

/-- A slot by itself meets the demand. -/
structure SlotInfo.Meets (D : Demand) (info : SlotInfo) : Prop where
  name : ∀ e ∈ info.dynamicName, D.expression e
  attributes : ∀ a ∈ info.attributes, D.location a.location
  directives : ∀ d ∈ info.directives, d.Meets D
  resolution : ∀ r ∈ info.resolution, r.Meets D
  location : D.location info.location

/-- A branch by itself meets the demand. -/
structure BranchInfo.Meets (D : Demand) (info : BranchInfo) : Prop where
  condition : ∀ e ∈ info.condition, D.expression e
  location : D.location info.location

/-- A chain by itself meets the demand. -/
structure ChainMeets (D : Demand) (branches : List Branch) (location : Location) : Prop where
  each : ∀ b ∈ branches, b.info.Meets D
  indices : ∀ index < branches.length, D.number index
  place : D.location location

/-- A loop by itself meets the demand. -/
structure LoopInfo.Meets (D : Demand) (info : LoopInfo) : Prop where
  source : D.expression info.source
  depth : D.number info.depth
  location : D.location info.location

/-- A node by itself meets the demand. -/
def Node.Meets (D : Demand) : Node → Prop
  | .element info _ => info.Meets D
  | .text _ location => D.location location
  | .interpolation e _ location => D.expression e ∧ D.location location
  | .slot info _ => info.Meets D
  | .chain branches _ location => ChainMeets D branches location
  | .loop info _ => info.Meets D
  | .comment _ location => D.location location

/-- Nodes and all nodes below them meet the demand. -/
def Node.MeetAll (D : Demand) (ns : List Node) : Prop :=
  ∀ m ∈ Node.withinAll ns, m.Meets D

theorem Node.meetAll_nil : Node.MeetAll D [] :=
  fun _ hm => absurd hm List.not_mem_nil

theorem Node.meetAll_cons {n : Node} {ns : List Node} :
    Node.MeetAll D (n :: ns) ↔ (∀ m ∈ n.within, m.Meets D) ∧ Node.MeetAll D ns :=
  List.forall_mem_append

theorem Node.meetAll_append {ns ns' : List Node} :
    Node.MeetAll D (ns ++ ns') ↔ Node.MeetAll D ns ∧ Node.MeetAll D ns' := by
  rw [Node.MeetAll, Node.withinAll_append]
  exact List.forall_mem_append

/-! ## Start tags -/

section StartTag

variable {locate : Nat → Location}

/-- What holds of every expression that was parsed holds of one at a place. -/
theorem expressionAt_meets (hE : ∀ text e, Expression.parse text = .ok e → D.expression e)
    {text : String} {start : Nat} {e : Expression} (h : expressionAt text start = .ok e) :
    D.expression e := by
  rw [expressionAt] at h
  split at h
  · rename_i hp
    cases h
    exact hE _ _ hp
  · cases h

theorem RawAttribute.expression_meets
    (hE : ∀ text e, Expression.parse text = .ok e → D.expression e) {a : RawAttribute}
    {e : Expression} (h : a.expression = .ok e) : D.expression e := by
  obtain ⟨v, -, h⟩ := Except.bind_eq_ok.mp h
  exact expressionAt_meets hE h

/-- It holds of the condition of a branch. -/
theorem RawAttribute.chainRole_meets
    (hE : ∀ text e, Expression.parse text = .ok e → D.expression e) {a : RawAttribute}
    {s : Structure} (h : a.chainRole = .ok s) : ∀ e ∈ s.expressions, D.expression e := by
  obtain ⟨e, -, he, rfl⟩ | ⟨e, -, he, rfl⟩ | ⟨-, -, rfl⟩ := RawAttribute.chainRole_cases h
  · exact List.forall_mem_singleton.mpr (RawAttribute.expression_meets hE he)
  · exact List.forall_mem_singleton.mpr (RawAttribute.expression_meets hE he)
  · exact fun e he => absurd he List.not_mem_nil

/-- It holds of what a loop iterates. -/
theorem RawAttribute.loopRole_meets
    (hE : ∀ text e, Expression.parse text = .ok e → D.expression e) {a : RawAttribute}
    {s : Structure} (h : a.loopRole = .ok s) : ∀ e ∈ s.expressions, D.expression e := by
  obtain ⟨v, head, e, -, -, he, rfl⟩ := RawAttribute.loopRole_cases h
  exact List.forall_mem_singleton.mpr (expressionAt_meets hE he)

/-- What an attribute means meets the demand. -/
def StartItem.Meets (D : Demand) : StartItem → Prop
  | .fixed a => D.location a.location
  | .directive d => d.Meets D

/-- An attribute that is no structural directive is at the place where it starts. -/
theorem RawAttribute.plainItem_meets
    (hE : ∀ text e, Expression.parse text = .ok e → D.expression e) {a : RawAttribute}
    (hL : D.location (locate a.start)) {item : StartItem} (h : a.plainItem locate = .ok item) :
    item.Meets D := by
  obtain ⟨e, -, he, rfl⟩ | ⟨kind, argument, e, -, -, he, rfl⟩ | rfl | rfl :=
    RawAttribute.plainItem_cases h
  · exact ⟨RawAttribute.expression_meets hE he, hL⟩
  · exact ⟨RawAttribute.expression_meets hE he, hL⟩
  · exact hL
  · exact hL

/-- What the attributes of a start tag stand for meets the demand, if their places do. -/
theorem RawAttribute.items_meets
    (hE : ∀ text e, Expression.parse text = .ok e → D.expression e) {inChain inLoop : Bool}
    {attributes : List RawAttribute} (hL : ∀ a ∈ attributes, D.location (locate a.start))
    {is : List StartItem} (h : items locate inChain inLoop attributes = .ok is) :
    ∀ item ∈ is, item.Meets D := by
  replace h := itemized_of_items h
  induction h with
  | nil => exact fun _ hi => absurd hi List.not_mem_nil
  | branch _ hs _ ih =>
    obtain ⟨ha, hrest⟩ := List.forall_mem_cons.mp hL
    exact List.forall_mem_cons.mpr ⟨⟨chainRole_meets hE hs, ha⟩, ih hrest⟩
  | loop _ _ hs _ ih =>
    obtain ⟨ha, hrest⟩ := List.forall_mem_cons.mp hL
    exact List.forall_mem_cons.mpr ⟨⟨loopRole_meets hE hs, ha⟩, ih hrest⟩
  | plain _ _ hitem _ ih =>
    obtain ⟨ha, hrest⟩ := List.forall_mem_cons.mp hL
    exact List.forall_mem_cons.mpr ⟨plainItem_meets hE ha hitem, ih hrest⟩

end StartTag

theorem StartItem.directives_meet {is : List StartItem} (h : ∀ item ∈ is, item.Meets D) :
    ∀ d ∈ is.filterMap StartItem.directive?, d.Meets D := by
  intro d hd
  obtain ⟨item, hi, hd⟩ := List.mem_filterMap.mp hd
  have hitem := h item hi
  cases item with
  | fixed a => cases hd
  | directive d' =>
    cases hd
    exact hitem

theorem StartItem.attributes_meet {is : List StartItem} (h : ∀ item ∈ is, item.Meets D) :
    ∀ a ∈ is.filterMap StartItem.attribute?, D.location a.location := by
  intro a ha
  obtain ⟨item, hi, ha⟩ := List.mem_filterMap.mp ha
  have hitem := h item hi
  cases item with
  | directive d => cases ha
  | fixed a' =>
    cases ha
    exact hitem

/-- The condition of a place in a chain. -/
def ChainRole.condition? : ChainRole → Option Expression
  | .onlyIf condition => some condition
  | .elseIf condition => some condition
  | .otherwise => none

/-- The role of a branch has a condition from the directives. -/
theorem roleOf_meets {directives : List Directive} (h : ∀ d ∈ directives, d.Meets D) :
    ∀ role ∈ roleOf directives, ∀ e ∈ role.condition?, D.expression e := by
  intro role hrole e he
  obtain ⟨d, hd, hs⟩ := List.exists_of_findSome?_eq_some hrole
  have hd := h d hd
  cases d with
  | structural s l =>
    have hs : ChainRole.ofStructure? s = some role := hs
    cases s <;> cases hs <;> cases he <;> exact hd.1 _ List.mem_cons_self
  | binding b => cases hs
  | unsupported name value l => cases hs

/-- A loop has its source from the directives. -/
theorem loopOf_meets {directives : List Directive} (h : ∀ d ∈ directives, d.Meets D) :
    ∀ loop ∈ loopOf directives, D.expression loop.1 := by
  intro loop hloop
  obtain ⟨d, hd, hs⟩ := List.exists_of_findSome?_eq_some hloop
  have hd := h d hd
  cases d with
  | structural s l =>
    cases s <;> cases hs
    exact hd.1 _ List.mem_cons_self
  | binding b => cases hs
  | unsupported name value l => cases hs

/-- The node of a tag meets the demand, if what stands in the tag does. -/
theorem Node.ofStart_meets {platform : Platform} {tag : String} {attributes : List Attribute}
    {directives : List Directive} {selfClosing : Bool} {location : Location}
    {children : List Node} (ha : ∀ a ∈ attributes, D.location a.location)
    (hd : ∀ d ∈ directives, d.Meets D) (hl : D.location location)
    (hc : Node.MeetAll D children) :
    ∀ m ∈ (Node.ofStart platform tag attributes directives selfClosing location children).within,
      m.Meets D := by
  unfold Node.ofStart
  split
  · refine List.forall_mem_cons.mpr ⟨⟨?_, ?_, ?_, ?_, hl⟩, hc⟩
    · intro e he
      obtain ⟨b, hb, rfl⟩ := Option.map_eq_some_iff.mp he
      have hb := (List.mem_filter.mp (List.mem_of_getLast? hb)).1
      obtain ⟨d, hmem, hbind⟩ := List.mem_filterMap.mp hb
      have hmeets := hd d hmem
      cases d with
      | binding b' =>
        cases hbind
        exact hmeets.1
      | structural s l => cases hbind
      | unsupported name value l => cases hbind
    · exact fun a hm => ha a (List.mem_filter.mp hm).1
    · exact fun d hm => hd d (List.mem_filter.mp hm).1
    · exact fun r hr => by cases hr
  · exact List.forall_mem_cons.mpr ⟨⟨ha, hd, hl⟩, hc⟩

/-- So does a node with its loop around it. -/
theorem Node.looped_meets {n : Node} {directives : List Directive} {depth : Nat}
    {location : Location} (hn : ∀ m ∈ n.within, m.Meets D)
    (hd : ∀ d ∈ directives, d.Meets D) (hdepth : D.number depth) (hl : D.location location) :
    ∀ m ∈ (n.looped directives depth location).within, m.Meets D := by
  unfold Node.looped
  split
  · exact hn
  · rename_i source item index hloop
    exact List.forall_mem_cons.mpr ⟨⟨loopOf_meets hd _ hloop, hdepth, hl⟩,
      Node.meetAll_cons.mpr ⟨hn, Node.meetAll_nil⟩⟩

/-! ## Chains -/

/-- A node that was read meets the demand, and so does its place in a chain. -/
structure Sibling.Meets (D : Demand) (s : Sibling) : Prop where
  node : ∀ m ∈ s.node.within, m.Meets D
  role : ∀ role ∈ s.role, ∀ e ∈ role.condition?, D.expression e
  location : D.location s.location

/-- A sibling that meets the demand does so as a branch. -/
theorem ChainRole.branch_meets {role : ChainRole} {s : Sibling} (h : s.Meets D)
    (hr : s.role = some role) :
    (role.branch s).info.Meets D ∧ Node.MeetAll D (role.branch s).children := by
  have hnode : Node.MeetAll D [s.node] := Node.meetAll_cons.mpr ⟨h.node, Node.meetAll_nil⟩
  have hrole := h.role role hr
  cases role with
  | onlyIf condition => exact ⟨⟨hrole, h.location⟩, hnode⟩
  | elseIf condition => exact ⟨⟨hrole, h.location⟩, hnode⟩
  | otherwise => exact ⟨⟨(fun e he => by cases he), h.location⟩, hnode⟩

/-- A chain of at most `count` branches meets the demand so far. -/
structure OpenChain.Meets (D : Demand) (count : Nat) (c : OpenChain) : Prop where
  branches : ∀ b ∈ c.branches, b.info.Meets D
  below : ∀ m ∈ Branch.withinAll c.branches, m.Meets D
  length : c.branches.length ≤ count
  location : D.location c.location
  parked : Node.MeetAll D c.parked

theorem Branch.withinAll_singleton (b : Branch) :
    Branch.withinAll [b] = Node.withinAll b.children := by
  obtain ⟨info, children⟩ := b
  exact List.append_nil _

namespace OpenChain.Meets

variable {count : Nat} {c : OpenChain}

/-- A chain that is opened meets the demand of its first branch. -/
theorem start {s : Sibling} (hs : s.Meets D) {role : ChainRole} (hr : s.role = some role) :
    OpenChain.Meets D (count + 1) ⟨[role.branch s], s.location, []⟩ := by
  obtain ⟨hinfo, hbelow⟩ := ChainRole.branch_meets hs hr
  refine ⟨List.forall_mem_singleton.mpr hinfo, ?_, Nat.le_add_left 1 count, hs.location,
    Node.meetAll_nil⟩
  rw [Branch.withinAll_singleton]
  exact hbelow

/-- A chain still meets the demand with one more branch. -/
theorem extend (h : c.Meets D count) {s : Sibling} (hs : s.Meets D) {role : ChainRole}
    (hr : s.role = some role) : (c.extend (role.branch s)).Meets D (count + 1) := by
  obtain ⟨hinfo, hbelow⟩ := ChainRole.branch_meets hs hr
  refine ⟨List.forall_mem_append.mpr ⟨h.branches, List.forall_mem_singleton.mpr hinfo⟩, ?_, ?_,
    h.location, Node.meetAll_nil⟩
  · rw [OpenChain.extend, Branch.withinAll_append, Branch.withinAll_singleton]
    exact List.forall_mem_append.mpr ⟨h.below, hbelow⟩
  · rw [OpenChain.extend, List.length_append]
    exact Nat.succ_le_succ h.length

/-- It does so with a comment kept behind its branches. -/
theorem park (h : c.Meets D count) {n : Node} (hn : ∀ m ∈ n.within, m.Meets D) :
    OpenChain.Meets D (count + 1) { c with parked := c.parked ++ [n] } :=
  ⟨h.branches, h.below, Nat.le_succ_of_le h.length, h.location,
    Node.meetAll_append.mpr ⟨h.parked, Node.meetAll_cons.mpr ⟨hn, Node.meetAll_nil⟩⟩⟩

/-- A chain that is closed gives nodes that meet the demand. -/
theorem close (h : c.Meets D count) (hN : ∀ index < count, D.number index) :
    Node.MeetAll D c.close := by
  refine Node.meetAll_cons.mpr ⟨List.forall_mem_cons.mpr ⟨⟨h.branches, ?_, h.location⟩, h.below⟩,
    h.parked⟩
  exact fun index hi => hN index (Nat.lt_of_lt_of_le hi h.length)

end OpenChain.Meets

theorem OpenChain.closeAll_meets {count : Nat} {chain : Option OpenChain}
    (h : ∀ c ∈ chain, c.Meets D count) (hN : ∀ index < count, D.number index) :
    Node.MeetAll D (OpenChain.closeAll chain) := by
  cases chain with
  | none => exact Node.meetAll_nil
  | some c => exact (h c rfl).close hN

/-- Forming chains of siblings that meet the demand; a chain has no more branches than there are
siblings. -/
theorem groupFrom_meets {count : Nat} {chain : Option OpenChain} {siblings : List Sibling}
    {nodes : List Node} (hc : ∀ c ∈ chain, c.Meets D count) (hs : ∀ s ∈ siblings, s.Meets D)
    (hN : ∀ index < count + siblings.length, D.number index)
    (h : groupFrom chain siblings = .ok nodes) : Node.MeetAll D nodes := by
  replace h := grouped_of_groupFrom h
  have no_chain (count : Nat) : ∀ c ∈ (none : Option OpenChain), c.Meets D count := nofun
  -- The numbers that are left for the siblings behind the first one.
  have later {count : Nat} {s : Sibling} {rest : List Sibling}
      (hN : ∀ index < count + (s :: rest).length, D.number index) :
      ∀ index < count + 1 + rest.length, D.number index := by
    intro index hi
    refine hN index ?_
    rw [List.length_cons]
    omega
  induction h generalizing count with
  | done chain => exact OpenChain.closeAll_meets hc hN
  | opens hrole _ ih =>
    obtain ⟨hn, hs⟩ := List.forall_mem_cons.mp hs
    refine Node.meetAll_append.mpr ⟨OpenChain.closeAll_meets hc fun index hi => hN index (by omega),
      ih ?_ hs (later hN)⟩
    rintro c ⟨⟩
    exact OpenChain.Meets.start hn hrole
  | goesOn hrole _ ih =>
    obtain ⟨hn, hs⟩ := List.forall_mem_cons.mp hs
    refine ih ?_ hs (later hN)
    rintro c' ⟨⟩
    exact (hc _ rfl).extend hn hrole
  | ends hrole _ ih =>
    obtain ⟨hn, hs⟩ := List.forall_mem_cons.mp hs
    have hclose := ((hc _ rfl).extend hn hrole).close fun index hi => later hN index (by omega)
    exact Node.meetAll_append.mpr ⟨hclose, ih (no_chain (count + 1)) hs (later hN)⟩
  | waits hrole _ _ ih =>
    obtain ⟨hn, hs⟩ := List.forall_mem_cons.mp hs
    refine ih ?_ hs (later hN)
    rintro c' ⟨⟩
    exact (hc _ rfl).park hn.node
  | stands hrole _ ih =>
    obtain ⟨hn, hs⟩ := List.forall_mem_cons.mp hs
    refine Node.meetAll_append.mpr ⟨OpenChain.closeAll_meets hc fun index hi => hN index (by omega),
      Node.meetAll_cons.mpr ⟨hn.node, ih (no_chain (count + 1)) hs (later hN)⟩⟩

/-- Siblings that meet the demand are settled into nodes that do. -/
theorem settle_meets {read : List Sibling × Option Flaw} {nodes : List Node}
    (hs : ∀ s ∈ read.1, s.Meets D) (hN : ∀ index < read.1.length, D.number index)
    (h : settle read = .ok nodes) : Node.MeetAll D nodes := by
  have no_chain : ∀ c ∈ (none : Option OpenChain), c.Meets D 0 := nofun
  exact groupFrom_meets no_chain hs (by simpa using hN) (settle_eq_ok h).2

/-! ## Trees that were read -/

/-- The pieces of the children of an element are among its own, and fewer. -/
theorem Raw.Proper.children {tag : String} {attributes : List RawAttribute} {selfClosing : Bool}
    {start : Nat} {children : List Raw}
    (h : (Raw.element tag attributes selfClosing start children).Proper) :
    (∀ p ∈ Raw.piecesAll children,
      p ∈ (Raw.element tag attributes selfClosing start children).pieces) ∧
    (Raw.piecesAll children).length <
      (Raw.element tag attributes selfClosing start children).pieces.length := by
  rw [Raw.pieces]
  cases selfClosing with
  | true =>
    rw [h.1 rfl]
    exact ⟨fun p hp => absurd hp List.not_mem_nil, Nat.zero_lt_succ _⟩
  | false =>
    refine ⟨fun p hp => List.mem_cons_of_mem _ (List.mem_append_left _ hp), ?_⟩
    rw [if_neg Bool.false_ne_true, List.length_cons, List.length_append]
    omega

/-- There are no more siblings than pieces of the text. -/
theorem Raw.lowerEach_length_le (platform : Platform) (locate : Nat → Location) (depth : Nat)
    (rs : List Raw) : (Raw.lowerEach platform locate depth rs).1.length ≤ (Raw.piecesAll rs).length := by
  induction rs with
  | nil => exact Nat.le_refl 0
  | cons r rest ih =>
    have hpos : 0 < r.pieces.length := by
      cases r <;> simp [Raw.pieces]
    rw [Raw.lowerEach, Raw.piecesAll, List.length_append]
    split
    · exact Nat.zero_le _
    · rw [List.length_cons]
      omega

section Lower

variable {platform : Platform} {locate : Nat → Location}

mutual

/-- A node meets the demand if what is read from texts, the locations of its pieces and the numbers
below their count do. -/
theorem Raw.lower_meets (hE : ∀ text e, Expression.parse text = .ok e → D.expression e)
    {depth : Nat} (r : Raw) (hr : r.Proper)
    (hL : ∀ p ∈ r.pieces, ∀ i ∈ p.starts, D.location (locate i))
    (hN : ∀ i < depth + r.pieces.length, D.number i) {s : Sibling}
    (h : Raw.lower platform locate depth r = .ok s) : s.Meets D := by
  match r with
  | .text value start =>
    cases h
    have hl := hL _ List.mem_cons_self start List.mem_cons_self
    exact ⟨List.forall_mem_singleton.mpr hl, (fun _ hr => by cases hr), hl⟩
  | .comment value start =>
    cases h
    have hl := hL _ List.mem_cons_self start List.mem_cons_self
    exact ⟨List.forall_mem_singleton.mpr hl, (fun _ hr => by cases hr), hl⟩
  | .interpolation source start =>
    obtain ⟨e, he, h⟩ := Except.bind_eq_ok.mp h
    cases h
    have hl := hL _ List.mem_cons_self start List.mem_cons_self
    exact ⟨List.forall_mem_singleton.mpr ⟨expressionAt_meets hE he, hl⟩,
      (fun _ hr => by cases hr), hl⟩
  | .element tag attributes selfClosing start children =>
    obtain ⟨hsub, hlt⟩ := hr.children
    have htag := hL (.openTag tag attributes selfClosing start) (by simp [Raw.pieces])
    obtain ⟨hl, hattributes⟩ := List.forall_mem_cons.mp htag
    rw [List.forall_mem_map] at hattributes
    rw [Raw.lower] at h
    obtain ⟨items, hi, h⟩ := Except.bind_eq_ok.mp h
    obtain ⟨nodes, hn, h⟩ := Except.bind_eq_ok.mp h
    have hitems := RawAttribute.items_meets hE hattributes hi
    have hdirectives := StartItem.directives_meet hitems
    -- A loop makes the children one deeper, and its own piece is not theirs.
    have hinner : ∀ i < (if (loopOf (items.filterMap StartItem.directive?)).isSome
        then depth + 1 else depth) + (Raw.piecesAll children).length, D.number i := by
      intro i hlt'
      refine hN i ?_
      split at hlt' <;> omega
    have hchildren : Node.MeetAll D nodes := by
      refine settle_meets (Raw.lowerEach_meets hE children hr.2 (fun p hp => hL p (hsub p hp)) hinner)
        (fun i hlt' => hinner i ?_) hn
      have hle := Raw.lowerEach_length_le platform locate
        (if (loopOf (items.filterMap StartItem.directive?)).isSome then depth + 1 else depth)
        children
      omega
    dsimp only at h
    split at h
    · cases h
    · cases h
      refine ⟨?_, roleOf_meets hdirectives, hl⟩
      exact Node.looped_meets
        (Node.ofStart_meets (StartItem.attributes_meet hitems) hdirectives hl hchildren) hdirectives
        (hN depth (by omega)) hl

/-- All nodes meet the demand if all places do. -/
theorem Raw.lowerEach_meets (hE : ∀ text e, Expression.parse text = .ok e → D.expression e)
    {depth : Nat} (rs : List Raw) (hr : Raw.ProperAll rs)
    (hL : ∀ p ∈ Raw.piecesAll rs, ∀ i ∈ p.starts, D.location (locate i))
    (hN : ∀ i < depth + (Raw.piecesAll rs).length, D.number i) :
    ∀ s ∈ (Raw.lowerEach platform locate depth rs).1, s.Meets D := by
  match rs with
  | [] => exact fun s hs => absurd hs List.not_mem_nil
  | r :: rest =>
    obtain ⟨hLr, hLrest⟩ := List.forall_mem_append.mp hL
    rw [Raw.piecesAll, List.length_append] at hN
    rw [Raw.lowerEach]
    split
    · exact fun s hs => absurd hs List.not_mem_nil
    · rename_i s hs
      refine List.forall_mem_cons.mpr
        ⟨Raw.lower_meets hE r hr.1 hLr (fun i hi => hN i (by omega)) hs, ?_⟩
      exact Raw.lowerEach_meets hE rest hr.2 hLrest fun i hi => hN i (by omega)

end

end Lower

/-- Thinning keeps the places of the pieces that are left. -/
theorem Thinned.starts {ps qs : List Piece} (h : Thinned ps qs) :
    qs.length ≤ ps.length ∧ ∀ q ∈ qs, ∃ p ∈ ps, q.starts = p.starts := by
  induction h with
  | nil => exact ⟨Nat.le_refl 0, fun q hq => absurd hq List.not_mem_nil⟩
  | keep p _ ih =>
    refine ⟨Nat.succ_le_succ ih.1, List.forall_mem_cons.mpr ⟨⟨p, List.mem_cons_self, rfl⟩, ?_⟩⟩
    exact fun q hq => (ih.2 q hq).imp fun p' hp => ⟨List.mem_cons_of_mem _ hp.1, hp.2⟩
  | change hv _ ih =>
    refine ⟨Nat.succ_le_succ ih.1, List.forall_mem_cons.mpr ⟨⟨_, List.mem_cons_self, rfl⟩, ?_⟩⟩
    exact fun q hq => (ih.2 q hq).imp fun p' hp => ⟨List.mem_cons_of_mem _ hp.1, hp.2⟩
  | drop v start _ ih =>
    refine ⟨Nat.le_succ_of_le ih.1, ?_⟩
    exact fun q hq => (ih.2 q hq).imp fun p' hp => ⟨List.mem_cons_of_mem _ hp.1, hp.2⟩

/-- The pieces of a text start inside it, and there are no more of them than bytes. -/
theorem Raw.read_extent {source : List Char} {rs : List Raw} (h : Raw.read source = .ok rs) :
    (∀ p ∈ Raw.piecesAll rs, ∀ i ∈ p.starts, i ≤ Text.byteLength source) ∧
      (Raw.piecesAll rs).length ≤ Text.byteLength source := by
  have hstop : Place.stop ⟨0, source⟩ = Text.byteLength source := Nat.zero_add _
  rw [(Raw.read_pieces h).1, List.length_map]
  constructor
  · refine List.forall_mem_map.mpr fun p hp => ?_
    have hstarts := starts_le_stop ⟨0, source⟩ p hp
    rw [hstop] at hstarts
    cases p with
    | closeTag tag start => exact List.forall_mem_singleton.mpr (Nat.zero_le _)
    | text _ _ => exact hstarts
    | interpolation _ _ => exact hstarts
    | comment _ _ => exact hstarts
    | openTag _ _ _ _ => exact hstarts
  · exact Nat.le_trans (length_pieces_le ⟨0, source⟩) (Text.length_le_byteLength source)

/-- A tree that was read meets a demand that holds of what is read from texts, of the locations of
the template's bytes, and of numbers smaller than the template is long. -/
theorem Template.read_meets {options : ParseOptions} {source : List Char} {nodes : List Node}
    (hE : ∀ text e, Expression.parse text = .ok e → D.expression e)
    (hL : ∀ i ≤ Text.byteLength source, D.location (Location.locate source i))
    (hN : ∀ i < Text.byteLength source, D.number i)
    (h : Template.read options source = .ok nodes) : Node.MeetAll D nodes := by
  obtain ⟨raw, hraw, h⟩ := Except.bind_eq_ok.mp h
  obtain ⟨hstarts, hlength⟩ := Raw.read_extent hraw
  have hproper := (Raw.read_pieces hraw).2
  have lowered {kept : List Raw} (hk : Raw.ProperAll kept)
      (hs : ∀ p ∈ Raw.piecesAll kept, ∀ i ∈ p.starts, i ≤ Text.byteLength source)
      (hlen : (Raw.piecesAll kept).length ≤ Text.byteLength source)
      (h : settle (Raw.lowerEach options.platform (Location.locate source) 0 kept) = .ok nodes) :
      Node.MeetAll D nodes := by
    have hle := Raw.lowerEach_length_le options.platform (Location.locate source) 0 kept
    refine settle_meets (Raw.lowerEach_meets hE kept hk (fun p hp i hi => hL i (hs p hp i hi))
      fun i hi => hN i (by omega)) (fun i hi => hN i (by omega)) h
  cases hw : options.whitespace with
  | preserve =>
    rw [hw] at h
    exact lowered hproper hstarts hlength h
  | condense =>
    rw [hw] at h
    obtain ⟨hle, hsame⟩ := (Raw.thinned_condenseAll none raw).starts
    refine lowered (Raw.properAll_condenseAll none raw hproper) (fun q hq => ?_)
      (Nat.le_trans hle hlength) h
    obtain ⟨p, hp, hpq⟩ := hsame q hq
    rw [hpq]
    exact hstarts p hp

/-! ## Annotated trees -/

section Resolve

variable {capabilities : Capabilities}

/-- Resolving a slot adds the depths of its loops and the number of its branch. -/
theorem Outlet.resolve_meets {loops : List Nat} {branch : Option Nat} {info : SlotInfo}
    {fallback : List Node} (h : info.Meets D) (hl : ∀ depth ∈ loops, D.number depth)
    (hb : ∀ index ∈ branch, D.number index) :
    (resolve capabilities loops branch info fallback).Meets D := by
  refine ⟨fun e he => h.name e ?_, hl, hb⟩
  show info.dynamicName = some e
  have hbase : (baseOf capabilities info).expression? = some e := he
  unfold baseOf at hbase
  split at hbase
  · rename_i name hname
    split at hbase
    · cases hbase
    · cases hbase
      exact hname
  · cases hbase

theorem Branch.map_info_resolveSlotsAll (loops : List Nat) (index : Nat) (bs : List Branch) :
    (Branch.resolveSlotsAll capabilities loops index bs).map Branch.info = bs.map Branch.info := by
  induction bs generalizing index with
  | nil => rfl
  | cons b bs ih =>
    obtain ⟨info, children⟩ := b
    rw [Branch.resolveSlotsAll, List.map_cons, List.map_cons, ih]
    rfl

/-- What is asked of a chain does not hang on the nodes of its branches. -/
theorem ChainMeets.congr {bs bs' : List Branch} {location : Location}
    (h : ChainMeets D bs location) (hinfo : bs'.map Branch.info = bs.map Branch.info) :
    ChainMeets D bs' location := by
  have hlength : bs'.length = bs.length := by simpa using congrArg List.length hinfo
  refine ⟨fun b hb => ?_, hlength ▸ h.indices, h.place⟩
  have hmem : b.info ∈ bs.map Branch.info := hinfo ▸ List.mem_map_of_mem hb
  obtain ⟨b', hb', heq⟩ := List.mem_map.mp hmem
  exact heq ▸ h.each b' hb'

mutual

/-- A node whose slots are resolved meets the demand if the numbers do. -/
theorem Node.resolveSlots_meets {loops : List Nat} {branch : Option Nat}
    (hl : ∀ depth ∈ loops, D.number depth) (hb : ∀ index ∈ branch, D.number index) (n : Node)
    (hn : ∀ m ∈ n.within, m.Meets D) :
    ∀ m ∈ (n.resolveSlots capabilities loops branch).within, m.Meets D := by
  match n with
  | .element info children =>
    obtain ⟨hinfo, hc⟩ := List.forall_mem_cons.mp hn
    exact List.forall_mem_cons.mpr ⟨hinfo, Node.resolveSlotsAll_meets hl hb children hc⟩
  | .text .. => exact hn
  | .interpolation .. => exact hn
  | .slot info fallback =>
    obtain ⟨hinfo, hc⟩ := List.forall_mem_cons.mp hn
    refine List.forall_mem_cons.mpr ⟨?_, Node.resolveSlotsAll_meets hl hb fallback hc⟩
    refine ⟨hinfo.name, hinfo.attributes, hinfo.directives, ?_, hinfo.location⟩
    rintro r ⟨⟩
    exact Outlet.resolve_meets hinfo hl hb
  | .chain branches key location =>
    obtain ⟨hinfo, hc⟩ := List.forall_mem_cons.mp hn
    refine List.forall_mem_cons.mpr ⟨?_, Branch.resolveSlotsAll_meets hl branches ?_ hc⟩
    · exact ChainMeets.congr hinfo (Branch.map_info_resolveSlotsAll loops 0 branches)
    · simpa using hinfo.indices
  | .loop info children =>
    obtain ⟨hinfo, hc⟩ := List.forall_mem_cons.mp hn
    refine List.forall_mem_cons.mpr ⟨hinfo, Node.resolveSlotsAll_meets ?_ hb children hc⟩
    exact List.forall_mem_append.mpr ⟨hl, List.forall_mem_singleton.mpr hinfo.depth⟩
  | .comment .. => exact hn

theorem Node.resolveSlotsAll_meets {loops : List Nat} {branch : Option Nat}
    (hl : ∀ depth ∈ loops, D.number depth) (hb : ∀ index ∈ branch, D.number index)
    (ns : List Node) (hn : Node.MeetAll D ns) :
    Node.MeetAll D (Node.resolveSlotsAll capabilities loops branch ns) := by
  match ns with
  | [] => exact hn
  | n :: rest =>
    obtain ⟨hfirst, hrest⟩ := Node.meetAll_cons.mp hn
    exact Node.meetAll_cons.mpr ⟨Node.resolveSlots_meets hl hb n hfirst,
      Node.resolveSlotsAll_meets hl hb rest hrest⟩

theorem Branch.resolveSlotsAll_meets {loops : List Nat} {index : Nat}
    (hl : ∀ depth ∈ loops, D.number depth) (bs : List Branch)
    (hi : ∀ i < index + bs.length, D.number i) (hn : ∀ m ∈ Branch.withinAll bs, m.Meets D) :
    ∀ m ∈ Branch.withinAll (Branch.resolveSlotsAll capabilities loops index bs), m.Meets D := by
  match bs with
  | [] => exact hn
  | .mk info children :: rest =>
    obtain ⟨hfirst, hrest⟩ := List.forall_mem_append.mp hn
    rw [List.length_cons] at hi
    refine List.forall_mem_append.mpr ⟨Node.resolveSlotsAll_meets hl ?_ children hfirst,
      Branch.resolveSlotsAll_meets hl rest (fun i hlt => hi i (by omega)) hrest⟩
    rintro i ⟨⟩
    exact hi index (by omega)

end

end Resolve

/-- Resolving slots brings in the name of the slot, the depths of loops and the indices of
branches. -/
theorem Template.resolveSlots_meets (capabilities : Capabilities) {nodes : List Node}
    (h : Node.MeetAll D nodes) : Node.MeetAll D (Template.resolveSlots capabilities nodes) :=
  Node.resolveSlotsAll_meets (fun _ hd => absurd hd List.not_mem_nil) (fun _ hi => by cases hi)
    nodes h

/-- A demand says nothing of keys. -/
theorem Directive.strip_meets (d : Directive) : d.strip.Meets D ↔ d.Meets D := by
  cases d <;> exact Iff.rfl

theorem Branch.stripAll_meets (f : SlotInfo → SlotInfo) {bs : List Branch} {location : Location} :
    ChainMeets D (Branch.stripAll f bs) location ↔ ChainMeets D bs location := by
  have hmap : Branch.stripAll f bs =
      bs.map fun b => .mk { b.info with key := none } (Node.stripAll f b.children) := by
    induction bs with
    | nil => rfl
    | cons b bs ih =>
      obtain ⟨info, children⟩ := b
      rw [Branch.stripAll, ih]
      rfl
  have hinfo (b : Branch) : (BranchInfo.Meets D { b.info with key := none }) ↔ b.info.Meets D :=
    ⟨fun h => ⟨h.condition, h.location⟩, fun h => ⟨h.condition, h.location⟩⟩
  rw [hmap]
  constructor
  · intro h
    refine ⟨fun b hb => ?_, by simpa using h.indices, h.place⟩
    exact (hinfo b).mp (h.each _ (List.mem_map_of_mem hb))
  · intro h
    refine ⟨fun b hb => ?_, by simpa using h.indices, h.place⟩
    obtain ⟨b', hb', rfl⟩ := List.mem_map.mp hb
    exact (hinfo b').mpr (h.each b' hb')

/-- What is asked of a node does not hang on keys. -/
theorem Node.strip_meets (n : Node) : (n.strip SlotInfo.unkeyed).Meets D ↔ n.Meets D := by
  cases n with
  | element info children =>
    constructor
    · intro h
      refine ⟨h.attributes, fun d hd => ?_, h.location⟩
      exact d.strip_meets.mp (h.directives _ (List.mem_map_of_mem hd))
    · intro h
      refine ⟨h.attributes, fun d hd => ?_, h.location⟩
      obtain ⟨d', hd', rfl⟩ := List.mem_map.mp hd
      exact d'.strip_meets.mpr (h.directives d' hd')
  | slot info fallback =>
    exact ⟨fun h => ⟨h.name, h.attributes, h.directives, h.resolution, h.location⟩,
      fun h => ⟨h.name, h.attributes, h.directives, h.resolution, h.location⟩⟩
  | chain branches key location => exact Branch.stripAll_meets _
  | loop info children =>
    exact ⟨fun h => ⟨h.source, h.depth, h.location⟩, fun h => ⟨h.source, h.depth, h.location⟩⟩
  | text value location => exact Iff.rfl
  | interpolation e key location => exact Iff.rfl
  | comment value location => exact Iff.rfl

/-- Extracting bound values only gives out keys. -/
theorem Template.extract_meets (capabilities : Capabilities) {nodes : List Node}
    (h : Node.MeetAll D nodes) : Node.MeetAll D (Template.extract capabilities nodes).1 :=
  (Node.forall_within_of_stripAll_eq SlotInfo.unkeyed Node.strip_meets
    (Node.extractAll_strip capabilities nodes {})).mpr h

end UiTemplate
