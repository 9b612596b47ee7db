import UiTemplate.Proofs.Printing.Static
import UiTemplate.Proofs.Template.Located
import UiTemplate.Proofs.Template.LoopHead

/-!
# What becomes of attributes

Where the attributes of a start tag are kept in its node.

- `StartItem.Represents`: a fixed attribute or a directive says what an attribute says.
- `Kept`: the attributes of a start tag in their order, each with the one place where it is kept, or
  overridden by a later name of the same slot.
- `Node.Keeps`: a node keeps the attributes of its start tag.
- `Template.parse_keeps`: every element and every slot of a template does.
-/

namespace UiTemplate

open Text

/-! ## What attributes say -/

/-- The value of the attribute is an expression. -/
def RawAttribute.Holds (a : RawAttribute) (e : Expression) : Prop :=
  ∃ value, a.value = some value ∧ Expression.parse value = .ok e

/-- What a structural directive asks for is what the value of the attribute says. -/
def Structure.Says (a : RawAttribute) : Structure → Prop
  | .onlyIf e => a.Holds e
  | .elseIf e => a.Holds e
  | .otherwise => ∀ value ∈ a.value, allBlank value.toList = true
  | .forEach e item index =>
    ∃ value source, a.value = some value ∧ LoopHead.Written value.toList item index source ∧
      Expression.parse source = .ok e

/-- What the directive asks for is what the value of the attribute says. -/
def Directive.Says (a : RawAttribute) : Directive → Prop
  | .structural s _ => s.Says a
  | .binding b => a.Holds b.expression
  | .unsupported _ value _ => value = a.value

/-- The attribute by its meaning: it has the name, the place and the value of the attribute. -/
def StartItem.Represents (locate : Nat → Location) (a : RawAttribute) : StartItem → Prop
  | .fixed t => t = ⟨a.name, a.value, locate a.start⟩
  | .directive d => a.name ∈ d.written ∧ d.location = locate a.start ∧ d.Says a

namespace RawAttribute

variable {a : RawAttribute} {locate : Nat → Location}

theorem holds_of_expression {e : Expression} (h : a.expression = .ok e) : a.Holds e := by
  obtain ⟨value, hvalue, h⟩ := Except.bind_eq_ok.mp h
  exact ⟨value, value_of_requiredValue hvalue, expressionAt_eq_ok.mp h⟩

theorem chainRole_says {s : Structure} (h : a.chainRole = .ok s) : s.Says a := by
  obtain ⟨e, -, he, rfl⟩ | ⟨e, -, he, rfl⟩ | ⟨-, hblank, rfl⟩ := chainRole_cases h
  · exact holds_of_expression he
  · exact holds_of_expression he
  · exact hblank

theorem loopRole_says {s : Structure} (h : a.loopRole = .ok s) : s.Says a := by
  obtain ⟨value, item, index, source, e, hvalue, hwritten, hparse, rfl⟩ := written_of_loopRole h
  exact ⟨value, source, hvalue, hwritten, hparse⟩

theorem plainItem_represents {item : StartItem} (h : a.plainItem locate = .ok item) :
    item.Represents locate a := by
  obtain ⟨e, hname, he, rfl⟩ | ⟨kind, argument, e, hbound, -, he, rfl⟩ | rfl | rfl :=
    plainItem_cases h
  · exact ⟨List.mem_singleton.mpr hname, rfl, holds_of_expression he⟩
  · exact ⟨name_of_bound? hbound e _, rfl, holds_of_expression he⟩
  · exact ⟨List.mem_singleton_self _, rfl, rfl⟩
  · rfl

/-- Every attribute has one meaning, in the order of the attributes. -/
theorem items_represent {inChain inLoop : Bool} {attributes : List RawAttribute}
    {is : List StartItem} (h : items locate inChain inLoop attributes = .ok is) :
    List.Forall₂ (fun a item => item.Represents locate a) attributes is := by
  replace h := itemized_of_items h
  induction h with
  | nil => exact .nil
  | branch hchain hs _ ih =>
    refine .cons ⟨?_, rfl, chainRole_says hs⟩ ih
    exact List.mem_singleton.mpr (chainRole_written hchain hs).symm
  | loop _ hloop hs _ ih =>
    refine .cons ⟨?_, rfl, loopRole_says hs⟩ ih
    exact List.mem_singleton.mpr (loopRole_written hloop hs).symm
  | plain _ _ hitem _ ih => exact .cons (plainItem_represents hitem) ih

end RawAttribute

/-! ## Where attributes are kept -/

/-- The directive gives the outlet of a slot a computed name. -/
def Directive.NamesSlot (d : Directive) : Prop :=
  ∃ b, d = .binding b ∧ b.kind = .prop ∧ b.name = "name"

/-- The attribute gives a slot its fixed name. -/
def RawAttribute.namesFixed (a : RawAttribute) : Bool :=
  a.name == "name"

/-- The attribute is bound to the computed name of a slot. -/
def RawAttribute.namesComputed (a : RawAttribute) : Bool :=
  a.name == ":name" || a.name == "v-bind:name"

/-- The attributes of a start tag, each with the one place where it is kept: among the fixed
attributes, among the directives, or as the fixed or the computed name of a slot. A name is
overridden if a later attribute of the slot gives a name of the same kind. -/
inductive Kept (locate : Nat → Location) (isSlot : Bool) : List RawAttribute → List Attribute →
    List Directive → Option String → Option Expression → List RawAttribute → Prop where
  | nil : Kept locate isSlot [] [] [] none none []
  | fixed {as ts ds n e o} {a : RawAttribute}
      (hname : isSlot = true → a.namesFixed = false) (h : Kept locate isSlot as ts ds n e o) :
      Kept locate isSlot (a :: as) (⟨a.name, a.value, locate a.start⟩ :: ts) ds n e o
  | directive {as ts ds n e o} {a : RawAttribute} {d : Directive}
      (hd : (StartItem.directive d).Represents locate a) (hname : isSlot = true → ¬d.NamesSlot)
      (h : Kept locate isSlot as ts ds n e o) : Kept locate isSlot (a :: as) ts (d :: ds) n e o
  | fixedName {as ts ds e o} {a : RawAttribute} (hslot : isSlot = true)
      (hname : a.namesFixed = true) (h : Kept locate isSlot as ts ds none e o) :
      Kept locate isSlot (a :: as) ts ds (some (a.value.getD "")) e o
  | computedName {as ts ds n o} {a : RawAttribute} {e : Expression} (hslot : isSlot = true)
      (hname : a.namesComputed = true) (he : a.Holds e) (h : Kept locate isSlot as ts ds n none o) :
      Kept locate isSlot (a :: as) ts ds n (some e) o
  | fixedOverridden {as ts ds n e o} {a : RawAttribute} (hslot : isSlot = true)
      (hname : a.namesFixed = true) (h : Kept locate isSlot as ts ds (some n) e o) :
      Kept locate isSlot (a :: as) ts ds (some n) e (a :: o)
  | computedOverridden {as ts ds n e o} {a : RawAttribute} (hslot : isSlot = true)
      (hname : a.namesComputed = true) (h : Kept locate isSlot as ts ds n (some e) o) :
      Kept locate isSlot (a :: as) ts ds n (some e) (a :: o)

namespace Kept

variable {locate : Nat → Location} {isSlot : Bool} {as o : List RawAttribute} {ts : List Attribute}
  {ds : List Directive} {n : Option String} {e : Option Expression}

/-- Every attribute is in one place. -/
theorem length_eq (h : Kept locate isSlot as ts ds n e o) :
    as.length = ts.length + ds.length + n.toList.length + e.toList.length + o.length := by
  induction h with
  | nil => rfl
  | _ => simp only [List.length_cons, Option.toList_some, Option.toList_none, List.length_nil] at *; omega

/-- A name stands for an attribute that gives it. -/
theorem length_le_countP (h : Kept locate isSlot as ts ds n e o) :
    n.toList.length ≤ as.countP RawAttribute.namesFixed ∧
      e.toList.length ≤ as.countP RawAttribute.namesComputed := by
  have tail (p : RawAttribute → Bool) (a : RawAttribute) (as : List RawAttribute) :
      as.countP p ≤ (a :: as).countP p := (List.sublist_cons_self a as).countP_le
  induction h with
  | nil => exact ⟨Nat.le_refl _, Nat.le_refl _⟩
  | fixedName _ hname _ ih =>
    exact ⟨by simp [hname], ih.2.trans (tail _ _ _)⟩
  | computedName _ hname _ _ ih =>
    exact ⟨ih.1.trans (tail _ _ _), by simp [hname]⟩
  | _ =>
    rename_i ih
    exact ⟨ih.1.trans (tail _ _ _), ih.2.trans (tail _ _ _)⟩

/-- No name is overridden if there is one of each kind at most. -/
theorem overridden_eq_nil (h : Kept locate isSlot as ts ds n e o)
    (hfixed : as.countP RawAttribute.namesFixed ≤ 1)
    (hcomputed : as.countP RawAttribute.namesComputed ≤ 1) : o = [] := by
  have tail (p : RawAttribute → Bool) (a : RawAttribute) (as : List RawAttribute) :
      as.countP p ≤ (a :: as).countP p := (List.sublist_cons_self a as).countP_le
  induction h with
  | nil => rfl
  | fixedOverridden _ hname h _ =>
    have hle := h.length_le_countP.1
    simp only [List.countP_cons, hname, if_true, Option.toList_some, List.length_singleton] at *
    omega
  | computedOverridden _ hname h _ =>
    have hle := h.length_le_countP.2
    simp only [List.countP_cons, hname, if_true, Option.toList_some, List.length_singleton] at *
    omega
  | _ =>
    rename_i ih
    exact ih ((tail _ _ _).trans hfixed) ((tail _ _ _).trans hcomputed)

end Kept

/-! ## Start tags -/

section Start

variable {locate : Nat → Location} {as : List RawAttribute} {is : List StartItem}

/-- An element keeps all of its attributes. -/
theorem kept_element (h : List.Forall₂ (fun a item => item.Represents locate a) as is) :
    Kept locate false as (is.filterMap StartItem.attribute?) (is.filterMap StartItem.directive?)
      none none [] := by
  induction h with
  | nil => exact .nil
  | @cons a item as is hitem _ ih =>
    cases item with
    | fixed t =>
      obtain rfl : t = _ := hitem
      exact .fixed nofun ih
    | directive d => exact .directive hitem nofun ih

theorem namesSlot_iff (d : Directive) :
    (d.binding?.map SlotInfo.ofStart.isName).getD false = true ↔ d.NamesSlot := by
  cases d with
  | binding b =>
    simp only [Directive.binding?, Option.map_some, Option.getD_some, SlotInfo.ofStart.isName,
      Bool.and_eq_true, beq_iff_eq, Directive.NamesSlot, Directive.binding.injEq, exists_eq_left']
  | structural s l =>
    refine iff_of_false Bool.false_ne_true ?_
    rintro ⟨b, hb, -⟩
    cases hb
  | unsupported name value l =>
    refine iff_of_false Bool.false_ne_true ?_
    rintro ⟨b, hb, -⟩
    cases hb

/-- The directives that name a slot, in front of others or not. -/
theorem filter_bindings_cons (d : Directive) (ds : List Directive) :
    (bindings (d :: ds)).filter SlotInfo.ofStart.isName =
      (d.binding?.filter SlotInfo.ofStart.isName).toList ++
        (bindings ds).filter SlotInfo.ofStart.isName := by
  cases d with
  | binding b =>
    show (b :: bindings ds).filter _ = _
    rw [List.filter_cons]
    cases h : SlotInfo.ofStart.isName b <;> simp [Directive.binding?, Option.filter, h]
  | structural s l => rfl
  | unsupported name value l => rfl

theorem namesComputed_of_represents {a : RawAttribute} {d : Directive}
    (h : (StartItem.directive d).Represents locate a) (hd : d.NamesSlot) :
    a.namesComputed = true := by
  obtain ⟨b, rfl, hkind, hname⟩ := hd
  obtain ⟨hwritten, -⟩ := h
  rw [Directive.written, hkind, hname] at hwritten
  rcases List.mem_cons.mp hwritten with h | h
  · rw [RawAttribute.namesComputed, h]
    rfl
  · rw [RawAttribute.namesComputed, List.mem_singleton.mp h]
    rfl

/-- A slot keeps all of its attributes but names that a later one overrides. -/
theorem kept_slot (selfClosing : Bool) (l : Location)
    (h : List.Forall₂ (fun a item => item.Represents locate a) as is) :
    let info := SlotInfo.ofStart (is.filterMap StartItem.attribute?)
      (is.filterMap StartItem.directive?) selfClosing l
    ∃ overridden, Kept locate true as info.attributes info.directives info.staticName
      info.dynamicName overridden := by
  dsimp only [SlotInfo.ofStart]
  induction h with
  | nil => exact ⟨[], .nil⟩
  | @cons a item as is hitem _ ih =>
    obtain ⟨overridden, ih⟩ := ih
    cases item with
    | fixed t =>
      obtain rfl : t = _ := hitem
      simp only [StartItem.attribute?, StartItem.directive?, List.filterMap_cons, List.filter_cons,
        bne]
      cases hname : a.name == "name" with
      | false => exact ⟨overridden, .fixed (fun _ => hname) ih⟩
      | true =>
        simp only [if_true, Bool.not_true, Bool.false_eq_true, if_false, List.getLast?_cons]
        -- The name counts if no other fixed name comes after it.
        cases hlast : ((is.filterMap StartItem.attribute?).filter (·.name == "name")).getLast? with
        | none =>
          rw [hlast] at ih
          exact ⟨overridden, .fixedName rfl hname ih⟩
        | some t =>
          rw [hlast] at ih
          exact ⟨a :: overridden, .fixedOverridden rfl hname ih⟩
    | directive d =>
      simp only [StartItem.attribute?, StartItem.directive?, List.filterMap_cons, List.filter_cons,
        filter_bindings_cons]
      by_cases hd : d.NamesSlot
      · obtain ⟨b, rfl, -⟩ := id hd
        have hname : SlotInfo.ofStart.isName b = true := (namesSlot_iff (.binding b)).mpr hd
        have hcomputed := namesComputed_of_represents hitem hd
        simp only [Directive.binding?, Option.map_some, Option.getD_some, Option.filter, hname,
          Bool.not_true, Bool.false_eq_true, if_true, if_false, Option.toList_some,
          List.singleton_append, List.getLast?_cons]
        cases hlast : ((bindings (is.filterMap StartItem.directive?)).filter
            SlotInfo.ofStart.isName).getLast? with
        | none =>
          rw [hlast] at ih
          exact ⟨overridden, .computedName rfl hcomputed hitem.2.2 ih⟩
        | some b' =>
          rw [hlast] at ih
          exact ⟨a :: overridden, .computedOverridden rfl hcomputed ih⟩
      -- A directive that names no slot is kept, and does not change what the name is.
      · have hname : (d.binding?.map SlotInfo.ofStart.isName).getD false = false :=
          Bool.eq_false_iff.mpr fun h => hd ((namesSlot_iff d).mp h)
        have hfilter : d.binding?.filter SlotInfo.ofStart.isName = none := by
          cases hb : d.binding? with
          | none => rfl
          | some b =>
            rw [hb] at hname
            simpa [Option.filter] using hname
        simp only [hname, hfilter, Bool.not_false, if_true, Option.toList_none, List.nil_append]
        exact ⟨overridden, .directive hitem (fun _ => hd) ih⟩

/-- The node keeps the attributes of a start tag with this name: an element all of them, and a slot
all but overridden names. There is none of these if there is one name of each kind at most. -/
def Node.Keeps (locate : Nat → Location) (tag : String) (as : List RawAttribute) : Node → Prop
  | element info _ =>
    info.tag = tag ∧ Kept locate false as info.attributes info.directives none none [] ∧
      as.length = info.attributes.length + info.directives.length
  | slot info _ =>
    tag = "slot" ∧ ∃ overridden,
      Kept locate true as info.attributes info.directives info.staticName info.dynamicName
        overridden ∧
      as.length = info.attributes.length + info.directives.length + info.staticName.toList.length +
        info.dynamicName.toList.length + overridden.length ∧
      (as.countP RawAttribute.namesFixed ≤ 1 → as.countP RawAttribute.namesComputed ≤ 1 →
        overridden = [])
  | _ => False

theorem Node.keeps_ofStart {platform : Platform} {tag : String} {selfClosing : Bool} {l : Location}
    {children : List Node} (h : List.Forall₂ (fun a item => item.Represents locate a) as is) :
    (ofStart platform tag (is.filterMap StartItem.attribute?) (is.filterMap StartItem.directive?)
      selfClosing l children).Keeps locate tag as := by
  unfold ofStart
  split
  · rename_i htag
    obtain ⟨overridden, hkept⟩ := kept_slot selfClosing l h
    exact ⟨htag, overridden, hkept, hkept.length_eq, hkept.overridden_eq_nil⟩
  · have hkept := kept_element h
    exact ⟨rfl, hkept, hkept.length_eq⟩

end Start

/-! ## Templates -/

/-- The tag and the attributes of a start tag. -/
def Piece.startTag? : Piece → Option (String × List RawAttribute)
  | openTag tag attributes _ _ => some (tag, attributes)
  | _ => none

/-- The start tags of a text in their order. -/
def startTags (source : List Char) : List (String × List RawAttribute) :=
  (pieces ⟨0, source⟩).1.filterMap Piece.startTag?

namespace Node

/-- The elements and slots in nodes, in the order of the text. -/
def tagged (ns : List Node) : List Node :=
  (withinAll ns).filter fun n => n.startTag?.isSome

theorem tagged_append (ns ns' : List Node) : tagged (ns ++ ns') = tagged ns ++ tagged ns' := by
  rw [tagged, withinAll_append, List.filter_append]
  rfl

theorem tagged_cons (n : Node) (ns : List Node) : tagged (n :: ns) = tagged [n] ++ tagged ns :=
  tagged_append [n] ns

theorem tagged_of_isSkippable {n : Node} (h : n.isSkippable = true) : tagged [n] = [] := by
  cases n with
  | comment value l => rfl
  | text value l => rfl
  | _ => cases h

/-- A loop around a node has no start tag of its own. -/
theorem tagged_looped (n : Node) (directives : List Directive) (depth : Nat) (l : Location) :
    tagged [n.looped directives depth l] = tagged [n] := by
  unfold looped
  split
  · rfl
  · simp [tagged, withinAll, within, startTag?]

end Node

/-- The elements and slots in the branches of a chain. -/
def OpenChain.tagged (c : OpenChain) : List Node :=
  (Branch.withinAll c.branches).filter fun n => n.startTag?.isSome

namespace OpenChain

variable {c : OpenChain} {s : Sibling}

theorem tagged_close (h : Node.tagged c.parked = []) : Node.tagged c.close = c.tagged := by
  rw [close, Node.tagged_cons, h, List.append_nil]
  simp [Node.tagged, tagged, Node.withinAll, Node.within, Node.startTag?]

theorem tagged_branch (role : ChainRole) (l : Location) (parked : List Node) :
    tagged ⟨[role.branch s], l, parked⟩ = Node.tagged [s.node] := by
  rw [tagged, role.withinAll_branch, Node.tagged, Node.withinAll, Node.withinAll, List.append_nil]

theorem tagged_extend (role : ChainRole) :
    (c.extend (role.branch s)).tagged = c.tagged ++ Node.tagged [s.node] := by
  rw [← tagged_branch role s.location []]
  simp only [tagged, extend, Branch.withinAll_append, List.filter_append]

end OpenChain

/-- Forming chains moves no element and no slot. -/
theorem tagged_groupFrom {chain : Option OpenChain} {siblings : List Sibling} {nodes : List Node}
    (hparked : ∀ c ∈ chain, Node.tagged c.parked = []) (h : groupFrom chain siblings = .ok nodes) :
    Node.tagged nodes =
      (chain.map OpenChain.tagged).getD [] ++ siblings.flatMap fun s => Node.tagged [s.node] := by
  have closeAll {chain : Option OpenChain} (hparked : ∀ c ∈ chain, Node.tagged c.parked = []) :
      Node.tagged (OpenChain.closeAll chain) = (chain.map OpenChain.tagged).getD [] := by
    cases chain with
    | none => rfl
    | some c => exact OpenChain.tagged_close (hparked c rfl)
  have no_chain : ∀ c ∈ (none : Option OpenChain), Node.tagged c.parked = [] := nofun
  have one {c : OpenChain} (h : Node.tagged c.parked = []) :
      ∀ c' ∈ some c, Node.tagged c'.parked = [] := by
    rintro c' ⟨⟩
    exact h
  replace h := grouped_of_groupFrom h
  induction h with
  | done chain => rw [closeAll hparked, List.flatMap_nil, List.append_nil]
  | opens hrole _ ih =>
    rw [List.flatMap_cons, Node.tagged_append, closeAll hparked, ih (one rfl), Option.map_some,
      Option.getD_some, OpenChain.tagged_branch]
  | goesOn hrole _ ih =>
    rw [List.flatMap_cons, ih (one rfl), Option.map_some, Option.map_some, Option.getD_some,
      Option.getD_some, OpenChain.tagged_extend, List.append_assoc]
  | ends hrole _ ih =>
    rw [List.flatMap_cons, Node.tagged_append, OpenChain.tagged_close rfl, ih no_chain,
      OpenChain.tagged_extend, List.append_assoc]
    rfl
  | @waits c s rest nodes hrole hskip _ ih =>
    -- What waits behind a branch is a comment or a blank text.
    have hnone := Node.tagged_of_isSkippable hskip
    have hpark : Node.tagged (c.parked ++ [s.node]) = [] := by
      rw [Node.tagged_append, hparked c rfl, hnone]
      rfl
    rw [List.flatMap_cons, ih (one hpark), hnone]
    rfl
  | stands hrole _ ih =>
    rw [List.flatMap_cons, Node.tagged_append, closeAll hparked, Node.tagged_cons, ih no_chain]
    rfl

theorem tagged_settle {read : List Sibling × Option Flaw} {nodes : List Node}
    (h : settle read = .ok nodes) :
    read.2 = none ∧ Node.tagged nodes = read.1.flatMap fun s => Node.tagged [s.node] := by
  obtain ⟨hnone, hgroup⟩ := settle_eq_ok h
  exact ⟨hnone, tagged_groupFrom (fun c hc => by cases hc) hgroup⟩

/-- The nodes keep the attributes of the start tags, one node for each tag. -/
def Node.KeepAll (locate : Nat → Location) (tags : List (String × List RawAttribute))
    (ns : List Node) : Prop :=
  List.Forall₂ (fun tag n => n.Keeps locate tag.1 tag.2) tags ns

theorem Node.tagged_ofStart (platform : Platform) (tag : String) (attributes : List Attribute)
    (directives : List Directive) (selfClosing : Bool) (l : Location) (children : List Node) :
    tagged [ofStart platform tag attributes directives selfClosing l children] =
      ofStart platform tag attributes directives selfClosing l children :: tagged children := by
  unfold ofStart
  split <;> simp [tagged, withinAll, within, startTag?]

section Lower

variable {locate : Nat → Location} {platform : Platform}

namespace Raw

mutual

/-- The elements and slots that are read from a node keep the attributes of its start tags. -/
theorem lower_keeps {depth : Nat} (r : Raw) (hr : r.Proper) {s : Sibling}
    (h : lower platform locate depth r = .ok s) :
    Node.KeepAll locate (r.pieces.filterMap Piece.startTag?) (Node.tagged [s.node]) := by
  match r with
  | text value start =>
    cases h
    exact .nil
  | comment value start =>
    cases h
    exact .nil
  | interpolation code start =>
    obtain ⟨e, -, h⟩ := Except.bind_eq_ok.mp h
    cases h
    exact .nil
  | element tag attributes selfClosing start children =>
    obtain ⟨hclosed, hchildren⟩ := hr
    have htags : (element tag attributes selfClosing start children).pieces.filterMap
        Piece.startTag? = (tag, attributes) :: (piecesAll children).filterMap Piece.startTag? := by
      rw [pieces, List.filterMap_cons]
      cases selfClosing with
      | true =>
        rw [hclosed rfl]
        rfl
      | false => simp [Piece.startTag?]
    rw [lower] at h
    obtain ⟨items, hi, h⟩ := Except.bind_eq_ok.mp h
    obtain ⟨nodes, hn, h⟩ := Except.bind_eq_ok.mp h
    obtain ⟨hnone, hnodes⟩ := tagged_settle hn
    dsimp only at h
    split at h
    · cases h
    · cases h
      rw [htags, Node.tagged_looped, Node.tagged_ofStart, hnodes]
      exact .cons (Node.keeps_ofStart (RawAttribute.items_represent hi))
        (lowerEach_keeps children hchildren hnone)

theorem lowerEach_keeps {depth : Nat} (rs : List Raw) (hr : ProperAll rs)
    (h : (lowerEach platform locate depth rs).2 = none) :
    Node.KeepAll locate ((piecesAll rs).filterMap Piece.startTag?)
      ((lowerEach platform locate depth rs).1.flatMap fun s => Node.tagged [s.node]) := by
  match rs with
  | [] => exact .nil
  | r :: rest =>
    rw [lowerEach] at h ⊢
    split at h
    · cases h
    · rename_i s hs
      rw [piecesAll, List.filterMap_append]
      exact List.rel_append (lower_keeps r hr.1 hs) (lowerEach_keeps rest hr.2 h)

end

end Raw

end Lower

/-- Leaving blanks out leaves all start tags. -/
theorem Thinned.startTags_eq {ps qs : List Piece} (h : Thinned ps qs) :
    qs.filterMap Piece.startTag? = ps.filterMap Piece.startTag? := by
  induction h with
  | nil => rfl
  | keep p _ ih => rw [List.filterMap_cons, List.filterMap_cons, ih]
  | change _ _ ih => exact ih
  | drop v start _ ih => exact ih

theorem Raw.startTags_eq {source : List Char} {rs : List Raw} (h : read source = .ok rs) :
    (piecesAll rs).filterMap Piece.startTag? = startTags source := by
  have hsettled (p : Piece) : p.settled.startTag? = p.startTag? := by cases p <;> rfl
  rw [(read_pieces h).1, List.filterMap_map, startTags]
  exact List.filterMap_congr fun p _ => hsettled p

namespace Template

/-- Every element and every slot of a template keeps the attributes of its start tag in their order,
each in one place: the attributes that are fixed, the directives, and the names of a slot. Of two
names of one kind that a slot is given the first one is lost; without such names as many attributes
are kept as are written. -/
theorem parse_keeps (options : ParseOptions) (source : String) (nodes : List Node)
    (h : parse options source = .ok nodes) :
    Node.KeepAll (Location.locate source.toList) (startTags source.toList) (Node.tagged nodes) := by
  have hread := parse_eq_ok.mp h
  obtain ⟨rs, hrs, -⟩ := Except.bind_eq_ok.mp hread
  rw [read_eq options hrs] at hread
  obtain ⟨hnone, htagged⟩ := tagged_settle hread
  have hproper := (Raw.read_pieces hrs).2
  have hkept : Raw.ProperAll (options.whitespace.kept rs) ∧
      (Raw.piecesAll (options.whitespace.kept rs)).filterMap Piece.startTag? =
        startTags source.toList := by
    rw [← Raw.startTags_eq hrs]
    cases options.whitespace with
    | preserve => exact ⟨hproper, rfl⟩
    | condense =>
      exact ⟨Raw.properAll_condenseAll none rs hproper,
        (Raw.thinned_condenseAll none rs).startTags_eq⟩
  rw [htagged, ← hkept.2]
  exact Raw.lowerEach_keeps _ hkept.1 hnone

/-- An element and a slot with attributes of every kind. -/
def everyKind : String :=
  "<p a='1' v-if='x' :b='y' v-c.d><slot v-for='i in l' :name='n' e h=j @f='g'/></p>"

/-- No attribute of the two start tags is lost. -/
theorem parse_keeps_everyKind :
    ∃ nodes, parse {} everyKind = .ok nodes ∧ (Node.tagged nodes).length = 2 ∧
      Node.KeepAll (Location.locate everyKind.toList) (startTags everyKind.toList)
        (Node.tagged nodes) := by
  have hrun : (parse {} everyKind).toOption.map (fun nodes => (Node.tagged nodes).length) =
      some 2 := by
    decide +kernel
  obtain ⟨nodes, hnodes, hlength⟩ := Option.map_eq_some_iff.mp hrun
  rw [Except.toOption_eq_some] at hnodes
  exact ⟨nodes, hnodes, hlength, parse_keeps {} everyKind nodes hnodes⟩

/-- The slot of nodes that are one slot, with its fallback. -/
def soleSlot? : List Node → Option (SlotInfo × List Node)
  | [.slot info fallback] => some (info, fallback)
  | _ => none

theorem eq_of_soleSlot? {nodes : List Node} {info : SlotInfo} {fallback : List Node}
    (h : soleSlot? nodes = some (info, fallback)) : nodes = [.slot info fallback] := by
  unfold soleSlot? at h
  split at h
  · cases h
    rfl
  · cases h

/-- A slot with two fixed names. -/
def twoNames : String :=
  "<slot name='a' name='b'/>"

/-- The first of two names is lost. -/
theorem parse_losesFirstName :
    ∃ as info fallback, startTags twoNames.toList = [("slot", as)] ∧
      parse {} twoNames = .ok [.slot info fallback] ∧ as.map (·.value) = [some "a", some "b"] ∧
      info.staticName = some "b" ∧
      as.length ≠ info.attributes.length + info.directives.length +
        info.staticName.toList.length + info.dynamicName.toList.length := by
  have htags : startTags twoNames.toList =
      [("slot", [⟨"name", some "a", 6, 12⟩, ⟨"name", some "b", 15, 21⟩])] := by
    decide +kernel
  have hrun : ((parse {} twoNames).toOption.bind soleSlot?).map (fun slot =>
      (slot.1.attributes.length, slot.1.directives.length, slot.1.staticName,
        slot.1.dynamicName.toList.length)) = some (0, 0, some "b", 0) := by
    decide +kernel
  obtain ⟨⟨info, fallback⟩, hslot, hshape⟩ := Option.map_eq_some_iff.mp hrun
  obtain ⟨nodes, hnodes, hsole⟩ := Option.bind_eq_some_iff.mp hslot
  obtain rfl := eq_of_soleSlot? hsole
  rw [Except.toOption_eq_some] at hnodes
  simp only [Prod.mk.injEq] at hshape
  obtain ⟨hattributes, hdirectives, hstatic, hdynamic⟩ := hshape
  refine ⟨_, info, fallback, htags, hnodes, rfl, hstatic, ?_⟩
  rw [hattributes, hdirectives, hstatic, hdynamic]
  decide

end Template

end UiTemplate
