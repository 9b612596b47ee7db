import UiTemplate.Template.Parse
import UiTemplate.Proofs.Result
import UiTemplate.Proofs.Printing.Tree
import UiTemplate.Proofs.Template.WellFormed

/-!
# Static trees

A tree of static nodes is written without directives, interpolations and slots.

- `Raw.settle_plain`: what is written so is read as a static tree.
- `Raw.isPlainAll_of_static`: only what is written so is read as a static tree.
- `Raw.unlocatedAll_plainAll`: the places in the text are the only ones in the tree.
-/

namespace UiTemplate

/-! ## Trees without places -/

/-- The attribute without its place. -/
def Attribute.unlocated (a : Attribute) : Attribute :=
  { a with location := {} }

/-- The directive without its place. -/
def Directive.unlocated : Directive → Directive
  | .structural kind _ => .structural kind {}
  | .binding b => .binding { b with location := {} }
  | .unsupported name value _ => .unsupported name value {}

/-- The element without its places. -/
def ElementInfo.unlocated (info : ElementInfo) : ElementInfo :=
  { info with
    attributes := info.attributes.map Attribute.unlocated
    directives := info.directives.map Directive.unlocated
    location := {} }

/-- The slot without its places. -/
def SlotInfo.unlocated (info : SlotInfo) : SlotInfo :=
  { info with
    attributes := info.attributes.map Attribute.unlocated
    directives := info.directives.map Directive.unlocated
    location := {} }

mutual

/-- The node without its places in the text. -/
def Node.unlocated : Node → Node
  | .element info children => .element info.unlocated (Node.unlocatedAll children)
  | .text value _ => .text value {}
  | .interpolation expression key _ => .interpolation expression key {}
  | .slot info fallback => .slot info.unlocated (Node.unlocatedAll fallback)
  | .chain branches key _ => .chain (Branch.unlocatedAll branches) key {}
  | .loop info children => .loop { info with location := {} } (Node.unlocatedAll children)
  | .comment value _ => .comment value {}

/-- The nodes without their places in the text. -/
def Node.unlocatedAll : List Node → List Node
  | [] => []
  | n :: rest => n.unlocated :: Node.unlocatedAll rest

/-- The branches without their places in the text. -/
def Branch.unlocatedAll : List Branch → List Branch
  | [] => []
  | .mk info children :: rest =>
    .mk { info with location := {} } (Node.unlocatedAll children) :: Branch.unlocatedAll rest

end

/-! ## Fixed attributes -/

/-- The marks at the front of a directive's name. -/
def directiveMarks : List String := [":", "@", "#", "v-"]

namespace RawAttribute

/-- The attribute is no directive. -/
def IsFixed (a : RawAttribute) : Prop :=
  ∀ mark ∈ directiveMarks, dropMark mark a.name = none

/-- The attribute as a fixed one. -/
def fixed (locate : Nat → Location) (a : RawAttribute) : Attribute :=
  ⟨a.name, a.value, locate a.start⟩

variable {a : RawAttribute} {locate : Nat → Location}

theorem dropMark_eq_none_iff {mark name : String} :
    dropMark mark name = none ↔ ¬mark.toList <+: name.toList := by
  unfold dropMark
  rw [← List.isPrefixOf_iff_prefix]
  split
  · simp_all
  · simp_all

/-- The name of the attribute is not that of a directive. -/
theorem IsFixed.ne (h : a.IsFixed) {name : String} (hp : "v-".toList <+: name.toList) :
    a.name ≠ name := by
  rintro rfl
  exact dropMark_eq_none_iff.mp (h "v-" (by decide)) hp

theorem IsFixed.bound? (h : a.IsFixed) : a.bound? = none := by
  have hv : ¬"v-".toList <+: a.name.toList := dropMark_eq_none_iff.mp (h "v-" (by decide))
  have hbind : dropMark "v-bind:" a.name = none := by
    rw [dropMark_eq_none_iff]
    exact fun hp => hv (List.IsPrefix.trans ⟨"bind:".toList, rfl⟩ hp)
  have hon : dropMark "v-on:" a.name = none := by
    rw [dropMark_eq_none_iff]
    exact fun hp => hv (List.IsPrefix.trans ⟨"on:".toList, rfl⟩ hp)
  have hcolon : dropMark ":" a.name = none := h ":" (by decide)
  have hat : dropMark "@" a.name = none := h "@" (by decide)
  rw [RawAttribute.bound?, hcolon, hat, hbind, hon]
  rfl

theorem IsFixed.isChain (h : a.IsFixed) : a.isChain = false := by
  have hif : a.name ≠ "v-if" := h.ne ⟨"if".toList, rfl⟩
  have helseIf : a.name ≠ "v-else-if" := h.ne ⟨"else-if".toList, rfl⟩
  have helse : a.name ≠ "v-else" := h.ne ⟨"else".toList, rfl⟩
  simp [RawAttribute.isChain, hif, helseIf, helse]

theorem IsFixed.isLoop (h : a.IsFixed) : a.isLoop = false := by
  have hfor : a.name ≠ "v-for" := h.ne ⟨"for".toList, rfl⟩
  simp [RawAttribute.isLoop, hfor]

theorem IsFixed.plainItem (h : a.IsFixed) :
    a.plainItem locate = .ok (.fixed (a.fixed locate)) := by
  have hhtml : a.name ≠ "v-html" := h.ne ⟨"html".toList, rfl⟩
  have hv : dropMark "v-" a.name = none := h "v-" (by decide)
  have hhash : dropMark "#" a.name = none := h "#" (by decide)
  rw [RawAttribute.plainItem, if_neg (by simpa using hhtml), h.bound?]
  simp only [hv, hhash, Option.isSome_none, Bool.or_self, Bool.false_eq_true, if_false]
  rfl

theorem marks_of_bound? (h : a.bound? = none) :
    dropMark ":" a.name = none ∧ dropMark "@" a.name = none := by
  unfold RawAttribute.bound? at h
  cases hcolon : dropMark ":" a.name with
  | some argument => simp [hcolon] at h
  | none =>
    cases hbind : dropMark "v-bind:" a.name with
    | some argument => simp [hcolon, hbind] at h
    | none =>
      cases hat : dropMark "@" a.name with
      | some argument => simp [hcolon, hbind, hat] at h
      | none => exact ⟨rfl, rfl⟩

theorem isFixed_of_plainItem {x : Attribute} (h : a.plainItem locate = .ok (.fixed x)) :
    a.IsFixed := by
  rw [RawAttribute.plainItem] at h
  split at h
  · rw [Except.bind_eq_ok] at h
    obtain ⟨e, -, h⟩ := h
    cases h
  · split at h
    · split at h
      · cases h
      · rw [Except.bind_eq_ok] at h
        obtain ⟨e, -, h⟩ := h
        cases h
    · rename_i hbound
      split at h
      · cases h
      · rename_i hmarks
        rw [Bool.or_eq_true, not_or, Bool.not_eq_true, Bool.not_eq_true, Option.isSome_eq_false_iff,
          Option.isSome_eq_false_iff, Option.isNone_iff_eq_none, Option.isNone_iff_eq_none] at hmarks
        obtain ⟨hcolon, hat⟩ := marks_of_bound? hbound
        intro mark hm
        simp only [directiveMarks, List.mem_cons, List.not_mem_nil, or_false] at hm
        rcases hm with rfl | rfl | rfl | rfl
        · exact hcolon
        · exact hat
        · exact hmarks.2
        · exact hmarks.1

/-- Fixed attributes are read as such. -/
theorem items_fixed (inChain inLoop : Bool) {as : List RawAttribute} (h : ∀ a ∈ as, a.IsFixed) :
    items locate inChain inLoop as = .ok (as.map fun a => .fixed (a.fixed locate)) := by
  induction as generalizing inChain inLoop with
  | nil => rfl
  | cons a as ih =>
    rw [List.forall_mem_cons] at h
    rw [items, h.1.isChain, h.1.isLoop, h.1.plainItem, ih inChain inLoop h.2]
    rfl

/-- Attributes that give no directive are fixed. -/
theorem isFixed_of_items {inChain inLoop : Bool} {as : List RawAttribute} {items : List StartItem}
    (h : RawAttribute.items locate inChain inLoop as = .ok items)
    (hno : items.filterMap StartItem.directive? = []) : ∀ a ∈ as, a.IsFixed := by
  induction as generalizing inChain inLoop items with
  | nil => exact fun _ ha => absurd ha List.not_mem_nil
  | cons a as ih =>
    rw [RawAttribute.items] at h
    split at h
    · split at h
      · cases h
      · obtain ⟨role, more, -, -, rfl⟩ := Except.cons_eq_ok h
        cases hno
    · split at h
      · split at h
        · cases h
        · obtain ⟨role, more, -, -, rfl⟩ := Except.cons_eq_ok h
          cases hno
      · obtain ⟨item, more, hitem, hmore, rfl⟩ := Except.cons_eq_ok h
        cases item with
        | fixed x => exact List.forall_mem_cons.mpr ⟨isFixed_of_plainItem hitem, ih hmore hno⟩
        | directive d => cases hno

end RawAttribute

/-! ## Plain trees -/

namespace Raw

mutual

/-- The node is a text, a comment or an element of the host, and has fixed attributes only. -/
def IsPlain (platform : Platform) : Raw → Prop
  | element tag attributes _ _ children =>
    (tag ≠ "slot" ∧ ElementKind.ofTag tag platform = .native ∧ ∀ a ∈ attributes, a.IsFixed) ∧
      IsPlainAll platform children
  | interpolation .. => False
  | _ => True

/-- The siblings are texts, comments or elements of the host, with fixed attributes only. -/
def IsPlainAll (platform : Platform) : List Raw → Prop
  | [] => True
  | r :: rest => IsPlain platform r ∧ IsPlainAll platform rest

end

mutual

/-- The node that a plain one is read as. An interpolation, which is not plain, stands for its
source. -/
def plain (locate : Nat → Location) : Raw → Node
  | element tag attributes selfClosing start children =>
    .element
      { tag, kind := .native, attributes := attributes.map (RawAttribute.fixed locate)
        directives := [], selfClosing, isStatic := true, location := locate start }
      (plainAll locate children)
  | text value start => .text value (locate start)
  | interpolation source start => .text source (locate start)
  | comment value start => .comment value (locate start)

/-- The nodes that plain siblings are read as. -/
def plainAll (locate : Nat → Location) : List Raw → List Node
  | [] => []
  | r :: rest => plain locate r :: plainAll locate rest

end

theorem isStatic_plain (locate : Nat → Location) (r : Raw) : (plain locate r).isStatic = true := by
  cases r <;> rfl

theorem all_isStatic_plainAll (locate : Nat → Location) (rs : List Raw) :
    (plainAll locate rs).all Node.isStatic = true := by
  induction rs with
  | nil => rfl
  | cons r rs ih => rw [plainAll, List.all_cons, isStatic_plain, ih, Bool.and_self]

end Raw

/-! ## Plain trees are static -/

/-- Siblings outside of chains stay as they are. -/
theorem groupFrom_none {siblings : List Sibling} (h : ∀ s ∈ siblings, s.role = none) :
    groupFrom none siblings = .ok (siblings.map Sibling.node) := by
  induction siblings with
  | nil => rfl
  | cons s siblings ih =>
    rw [List.forall_mem_cons] at h
    rw [groupFrom, h.1, ih h.2]
    rfl

namespace Raw

section

variable (platform : Platform) (locate : Nat → Location)

mutual

theorem lower_plain (depth : Nat) (r : Raw) (h : IsPlain platform r) :
    ∃ s, lower platform locate depth r = .ok s ∧ s.node = plain locate r ∧ s.role = none := by
  match r with
  | .text value start => exact ⟨_, rfl, rfl, rfl⟩
  | .comment value start => exact ⟨_, rfl, rfl, rfl⟩
  | .element tag attributes selfClosing start children =>
    obtain ⟨⟨hslot, hkind, hfixed⟩, hchildren⟩ := h
    have hnodes := settle_plain depth children hchildren
    have hattributes : (attributes.map fun a => StartItem.fixed (a.fixed locate)).filterMap
        StartItem.attribute? = attributes.map (RawAttribute.fixed locate) := by
      rw [List.filterMap_map, ← List.filterMap_eq_map]
      rfl
    have hdirectives : (attributes.map fun a => StartItem.fixed (a.fixed locate)).filterMap
        StartItem.directive? = [] := by
      rw [List.filterMap_map, List.filterMap_eq_nil_iff]
      exact fun _ _ => rfl
    have hnode : Node.ofStart platform tag (attributes.map (RawAttribute.fixed locate)) []
        selfClosing (locate start) (plainAll locate children) =
          plain locate (.element tag attributes selfClosing start children) := by
      rw [Node.ofStart, if_neg hslot, hkind, all_isStatic_plainAll]
      rfl
    refine ⟨⟨plain locate (.element tag attributes selfClosing start children), none, start,
      locate start⟩, ?_, rfl, rfl⟩
    rw [lower, RawAttribute.items_fixed false false hfixed]
    show (settle (lowerEach platform locate _ children) >>= _ : Except Flaw Sibling) = _
    rw [hattributes, hdirectives]
    show (settle (lowerEach platform locate depth children) >>= _ : Except Flaw Sibling) = _
    rw [hnodes]
    show (if (Node.ofStart platform tag _ [] selfClosing (locate start) _).hasTwoNames then _ else _ :
      Except Flaw Sibling) = _
    rw [hnode]
    rfl

theorem lowerEach_plain (depth : Nat) (rs : List Raw) (h : IsPlainAll platform rs) :
    ∃ siblings, lowerEach platform locate depth rs = (siblings, none) ∧
      siblings.map Sibling.node = plainAll locate rs ∧ ∀ s ∈ siblings, s.role = none := by
  match rs with
  | [] => exact ⟨[], rfl, rfl, fun _ hs => absurd hs List.not_mem_nil⟩
  | r :: rest =>
    obtain ⟨s, hs, hnode, hrole⟩ := lower_plain depth r h.1
    obtain ⟨siblings, hrest, hnodes, hroles⟩ := lowerEach_plain depth rest h.2
    refine ⟨s :: siblings, ?_, ?_, List.forall_mem_cons.mpr ⟨hrole, hroles⟩⟩
    · rw [lowerEach, hs, hrest]
    · rw [List.map_cons, hnode, hnodes, plainAll]

/-- Plain siblings are read as the nodes they stand for. -/
theorem settle_plain (depth : Nat) (rs : List Raw) (h : IsPlainAll platform rs) :
    settle (lowerEach platform locate depth rs) = .ok (plainAll locate rs) := by
  obtain ⟨siblings, hsiblings, hnodes, hroles⟩ := lowerEach_plain depth rs h
  rw [hsiblings, settle, group, groupFrom_none hroles, hnodes]
  rfl

end

end

end Raw

/-! ## Static trees are plain -/

/-- A chain that was opened becomes a node, which is not static. -/
theorem groupFrom_some {c : OpenChain} {siblings : List Sibling} {nodes : List Node}
    (h : groupFrom (some c) siblings = .ok nodes) : ∃ n ∈ nodes, n.isStatic = false := by
  have closed (c : OpenChain) (more : List Node) : ∃ n ∈ c.close ++ more, n.isStatic = false :=
    ⟨_, List.mem_cons_self, rfl⟩
  generalize hchain : some c = chain at h
  replace h := grouped_of_groupFrom h
  induction h generalizing c with
  | done chain =>
    subst hchain
    exact ⟨_, List.mem_cons_self, rfl⟩
  | opens hrole _ _ =>
    subst hchain
    exact closed c _
  | goesOn hrole _ ih => exact ih rfl
  | ends hrole _ _ => exact closed _ _
  | waits hrole _ _ ih => exact ih rfl
  | stands hrole _ _ =>
    subst hchain
    exact closed c _

/-- Where all nodes are static no sibling is part of a chain. -/
theorem groupFrom_static {s : Sibling} {rest : List Sibling} {nodes : List Node}
    (h : groupFrom none (s :: rest) = .ok nodes) (hs : ∀ n ∈ nodes, n.isStatic = true) :
    ∃ more, nodes = s.node :: more ∧ groupFrom none rest = .ok more := by
  rw [groupFrom] at h
  split at h
  · rw [Except.bind_eq_ok] at h
    obtain ⟨more, hmore, h⟩ := h
    cases h
    obtain ⟨n, hn, hno⟩ := groupFrom_some hmore
    rw [hs n hn] at hno
    cases hno
  · cases h
  · cases h
  · obtain ⟨more, hmore, h⟩ := Except.bind_eq_ok.mp h
    cases h
    exact ⟨more, rfl, hmore⟩

/-- A static node has no directives, and its children are static. -/
theorem Node.static_ofStart {platform : Platform} {tag : String} {attributes : List Attribute}
    {directives : List Directive} {selfClosing : Bool} {location : Location}
    {children : List Node} {depth : Nat}
    (h : ((Node.ofStart platform tag attributes directives selfClosing location
      children).looped directives depth location).isStatic = true) :
    tag ≠ "slot" ∧ ElementKind.ofTag tag platform = .native ∧ directives = [] ∧
      ∀ n ∈ children, n.isStatic = true := by
  unfold Node.looped at h
  split at h
  · unfold Node.ofStart at h
    split at h
    · cases h
    · rename_i hslot
      simp only [Node.isStatic, Bool.and_eq_true, List.isEmpty_iff, List.all_eq_true,
        beq_iff_eq] at h
      exact ⟨hslot, h.1.1, h.1.2, h.2⟩
  · cases h

namespace Raw

section

variable (platform : Platform) (locate : Nat → Location)

mutual

theorem isPlain_of_static (depth : Nat) (r : Raw) {s : Sibling}
    (h : lower platform locate depth r = .ok s) (hs : s.node.isStatic = true) :
    IsPlain platform r := by
  match r with
  | .text .. => trivial
  | .comment .. => trivial
  | .interpolation source start =>
    rw [lower, Except.bind_eq_ok] at h
    obtain ⟨e, -, h⟩ := h
    cases h
    cases hs
  | .element tag attributes selfClosing start children =>
    rw [lower, Except.bind_eq_ok] at h
    obtain ⟨items, hitems, h⟩ := h
    rw [Except.bind_eq_ok] at h
    obtain ⟨nodes, hnodes, h⟩ := h
    dsimp only at h
    split at h
    · cases h
    · cases h
      obtain ⟨hslot, hkind, hno, hchildren⟩ := Node.static_ofStart hs
      exact ⟨⟨hslot, hkind, RawAttribute.isFixed_of_items hitems hno⟩,
        isPlainAll_of_static _ children hnodes hchildren⟩

/-- What is read as static nodes is plain. -/
theorem isPlainAll_of_static (depth : Nat) (rs : List Raw) {nodes : List Node}
    (h : settle (lowerEach platform locate depth rs) = .ok nodes)
    (hs : ∀ n ∈ nodes, n.isStatic = true) : IsPlainAll platform rs := by
  match rs with
  | [] => trivial
  | r :: rest =>
    obtain ⟨hflaw, hgroup⟩ := settle_eq_ok h
    rw [lowerEach] at hflaw hgroup
    split at hflaw
    · cases hflaw
    · rename_i s hlower
      rw [hlower] at hgroup
      obtain ⟨more, rfl, hmore⟩ := groupFrom_static hgroup hs
      rw [List.forall_mem_cons] at hs
      have hrest : settle (lowerEach platform locate depth rest) = .ok more := by
        have hnone : (lowerEach platform locate depth rest).2 = none := hflaw
        rw [settle, hnone, group, hmore]
        rfl
      exact ⟨isPlain_of_static depth r hlower hs.1, isPlainAll_of_static depth rest hrest hs.2⟩

end

end

/-! ## Places -/

mutual

theorem isPlain_unlocated (platform : Platform) (r : Raw) :
    IsPlain platform r.unlocated ↔ IsPlain platform r := by
  match r with
  | .text .. => exact Iff.rfl
  | .comment .. => exact Iff.rfl
  | .interpolation .. => exact Iff.rfl
  | .element tag attributes selfClosing start children =>
    rw [unlocated, IsPlain, IsPlain, isPlainAll_unlocatedAll platform children,
      List.forall_mem_map]
    exact Iff.rfl

theorem isPlainAll_unlocatedAll (platform : Platform) (rs : List Raw) :
    IsPlainAll platform (unlocatedAll rs) ↔ IsPlainAll platform rs := by
  match rs with
  | [] => exact Iff.rfl
  | r :: rest =>
    rw [unlocatedAll, IsPlainAll, IsPlainAll, isPlain_unlocated platform r,
      isPlainAll_unlocatedAll platform rest]

end

mutual

theorem unlocated_plain (locate : Nat → Location) (r : Raw) :
    (plain locate r).unlocated = plain (fun _ => {}) r.unlocated := by
  match r with
  | .text .. => rfl
  | .comment .. => rfl
  | .interpolation .. => rfl
  | .element tag attributes selfClosing start children =>
    rw [plain, Node.unlocated, unlocatedAll_plainAll locate children, unlocated, plain,
      List.map_map]
    simp only [ElementInfo.unlocated, List.map_map, List.map_nil]
    rfl

/-- The places in the text are the only ones in the tree. -/
theorem unlocatedAll_plainAll (locate : Nat → Location) (rs : List Raw) :
    Node.unlocatedAll (plainAll locate rs) = plainAll (fun _ => {}) (unlocatedAll rs) := by
  match rs with
  | [] => rfl
  | r :: rest =>
    rw [plainAll, Node.unlocatedAll, unlocated_plain locate r, unlocatedAll_plainAll locate rest,
      unlocatedAll, plainAll]

end

end Raw

end UiTemplate
