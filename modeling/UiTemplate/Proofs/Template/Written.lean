import UiTemplate.Proofs.Expression.PlainName
import UiTemplate.Proofs.Template.Contents
import UiTemplate.Proofs.Template.Joints

/-!
# How the parts of a tree are written

What a tree takes over from the text of its template as it stands there: names, texts and comments.
They can stand where they stood in any other text.

- `LoopHead.read?_isName`: a loop head names its item, and maybe its index.
- `Node.Written`: the names, texts and comments of a node are such as can be read.
- `Template.parse_written`: this holds of all nodes of a tree that was read.
-/

namespace UiTemplate

open Piece

/-! ## Loop heads -/

namespace LoopHead

theorem name?_isName {p q : Place} {name : String} (h : name? p = some (name, q)) : IsName name := by
  unfold name? at h
  split at h
  · rename_i hstart
    cases h
    cases hrest : p.rest with
    | nil => simp [hrest] at hstart
    | cons c cs =>
      rw [hrest] at hstart
      have hc : isNameStart c = true := hstart
      have hpart := (isNameStart_begins hc).1
      refine ⟨c, cs.takeWhile isNamePart, ?_, hc, List.all_takeWhile⟩
      simp [hpart]
  · cases h

theorem names?_isName {p q : Place} {item : String} {index : Option String}
    (h : names? p = some (item, index, q)) : IsName item ∧ ∀ i ∈ index, IsName i := by
  obtain ⟨⟨first, p₁⟩, hfirst, h⟩ := Option.bind_eq_some_iff.mp h
  have hitem := name?_isName hfirst
  dsimp only at h
  split at h
  · obtain ⟨⟨second, p₂⟩, hsecond, h⟩ := Option.bind_eq_some_iff.mp h
    dsimp only at h
    split at h
    · cases h
      refine ⟨hitem, ?_⟩
      rintro i ⟨⟩
      exact name?_isName hsecond
    · cases h
  · split at h
    · cases h
      exact ⟨hitem, fun i hi => nomatch hi⟩
    · cases h

/-- A loop head names its item, and maybe its index. -/
theorem read?_isName {value : String} {start : Nat} {head : LoopHead}
    (h : read? value start = some head) :
    IsName head.item ∧ ∀ i ∈ head.index, IsName i := by
  unfold read? at h
  dsimp only at h
  split at h
  · obtain ⟨⟨item, index, p⟩, hnames, h⟩ := Option.bind_eq_some_iff.mp h
    obtain ⟨q, -, h⟩ := Option.bind_eq_some_iff.mp h
    obtain ⟨r, -, h⟩ := Option.bind_eq_some_iff.mp h
    obtain ⟨source, -, h⟩ := Option.bind_eq_some_iff.mp h
    cases h
    exact names?_isName hnames
  · obtain ⟨names, hnames, h⟩ := Option.bind_eq_some_iff.mp h
    obtain ⟨⟨name, p⟩, hname, rfl⟩ := Option.map_eq_some_iff.mp hnames
    obtain ⟨q, -, h⟩ := Option.bind_eq_some_iff.mp h
    obtain ⟨r, -, h⟩ := Option.bind_eq_some_iff.mp h
    obtain ⟨source, -, h⟩ := Option.bind_eq_some_iff.mp h
    cases h
    exact ⟨name?_isName hname, fun i hi => nomatch hi⟩

end LoopHead

/-! ## Start tags -/

/-- The name of an attribute: characters of such names, at least one. -/
def IsAttributeName (name : String) : Prop :=
  name.toList ≠ [] ∧ ∀ c ∈ name.toList, isNameChar c = true

/-- The names in a directive are such as can be read. -/
def Directive.Written : Directive → Prop
  | .structural (.forEach _ item index) _ => LoopHead.IsName item ∧ ∀ i ∈ index, LoopHead.IsName i
  | .binding b => IsAttributeName b.name
  | _ => True

/-- The names of a start tag are such as can be read. -/
def StartItem.Written : StartItem → Prop
  | .fixed a => IsAttributeName a.name
  | .directive d => d.Written

theorem RawAttribute.WellFormed.isAttributeName {a : RawAttribute} (h : a.WellFormed) :
    IsAttributeName a.name :=
  ⟨h.nonempty, h.chars⟩

/-- What is left of a name when a mark at its front is left out is a name if it is not empty. -/
theorem IsAttributeName.dropMark {mark name rest : String} (h : IsAttributeName name)
    (hd : dropMark mark name = some rest) (hne : rest ≠ "") : IsAttributeName rest := by
  unfold UiTemplate.dropMark at hd
  split at hd
  · cases hd
    refine ⟨fun hnil => hne ?_, fun c hc => h.2 c ?_⟩
    · rw [← String.toList_inj, hnil]
      rfl
    · rw [String.toList_ofList] at hc
      exact List.mem_of_mem_drop hc
  · cases hd

namespace RawAttribute

variable {locate : Nat → Location} {a : RawAttribute}

theorem some_of_orElse {α : Type} {x y : Option α} {r : α} (h : (x <|> y) = some r) :
    x = some r ∨ y = some r := by
  cases x with
  | none => exact .inr h
  | some s => exact .inl h

theorem bound?_isAttributeName (h : a.WellFormed) {kind : BindingKind} {argument : String}
    (hb : a.bound? = some (kind, argument)) (hne : argument ≠ "") : IsAttributeName argument := by
  unfold bound? at hb
  split at hb
  · rename_i rest hmark
    cases hb
    exact (some_of_orElse hmark).elim (h.isAttributeName.dropMark · hne)
      (h.isAttributeName.dropMark · hne)
  · split at hb
    · rename_i rest hmark
      cases hb
      exact (some_of_orElse hmark).elim (h.isAttributeName.dropMark · hne)
        (h.isAttributeName.dropMark · hne)
    · cases hb

theorem plainItem_written (h : a.WellFormed) {item : StartItem}
    (hi : a.plainItem locate = .ok item) : item.Written := by
  obtain ⟨e, -, -, rfl⟩ | ⟨kind, argument, e, hbound, hne, -, rfl⟩ | rfl | rfl :=
    plainItem_cases hi
  · show IsAttributeName "innerHTML"
    exact ⟨by decide, List.all_eq_true.mp (by decide)⟩
  · exact bound?_isAttributeName h hbound hne
  · trivial
  · exact h.isAttributeName

theorem chainRole_isWritten {s : Structure} (h : a.chainRole = .ok s) (location : Location) :
    (Directive.structural s location).Written := by
  obtain ⟨⟨role, hrole⟩, -⟩ := chainRole_ok h
  cases s with
  | forEach source item index => cases hrole
  | _ => trivial

theorem loopRole_isWritten {s : Structure} (h : a.loopRole = .ok s) (location : Location) :
    (Directive.structural s location).Written := by
  obtain ⟨v, head, e, -, hhead, -, rfl⟩ := loopRole_cases h
  exact LoopHead.read?_isName hhead

theorem items_written {inChain inLoop : Bool} {attributes : List RawAttribute}
    (ha : ∀ a ∈ attributes, a.WellFormed) {is : List StartItem}
    (h : items locate inChain inLoop attributes = .ok is) : ∀ item ∈ is, item.Written := by
  replace h := itemized_of_items h
  induction h with
  | nil => exact fun _ hi => absurd hi List.not_mem_nil
  | branch _ hs _ ih =>
    exact List.forall_mem_cons.mpr ⟨chainRole_isWritten hs _, ih (List.forall_mem_cons.mp ha).2⟩
  | loop _ _ hs _ ih =>
    exact List.forall_mem_cons.mpr ⟨loopRole_isWritten hs _, ih (List.forall_mem_cons.mp ha).2⟩
  | plain _ _ hitem _ ih =>
    obtain ⟨hfirst, hrest⟩ := List.forall_mem_cons.mp ha
    exact List.forall_mem_cons.mpr ⟨plainItem_written hfirst hitem, ih hrest⟩

end RawAttribute

theorem StartItem.directives_written {is : List StartItem} (h : ∀ item ∈ is, item.Written) :
    ∀ d ∈ is.filterMap StartItem.directive?, d.Written := by
  intro d hd
  obtain ⟨item, hi, hd⟩ := List.mem_filterMap.mp hd
  have hitem := h item hi
  cases item with
  | fixed a => cases hd
  | directive d' =>
    cases hd
    exact hitem

theorem StartItem.attributes_written {is : List StartItem} (h : ∀ item ∈ is, item.Written) :
    ∀ a ∈ is.filterMap StartItem.attribute?, IsAttributeName a.name := by
  intro a ha
  obtain ⟨item, hi, ha⟩ := List.mem_filterMap.mp ha
  have hitem := h item hi
  cases item with
  | directive d => cases ha
  | fixed a' =>
    cases ha
    exact hitem

/-! ## Nodes -/

/-- An element by itself is written so: it has the name of a tag, its attributes and bound values
have names of attributes, it has children only if it does not close itself, and it closes itself if
tags of this name have no children. -/
structure ElementInfo.Written (info : ElementInfo) (children : List Node) : Prop where
  tag : IsTagName info.tag
  attributes : ∀ a ∈ info.attributes, IsAttributeName a.name
  bindings : ∀ b ∈ UiTemplate.bindings info.directives, IsAttributeName b.name
  closed : info.selfClosing = true → children = []
  void : info.selfClosing = false → info.tag ∉ voidTags
  joined : Node.Joined children

/-- The names, texts and comments of a node are such as can be read, and its children are apart. -/
def Node.Written : Node → Prop
  | .element info children => info.Written children
  | .text value _ => value.toList ≠ [] ∧ spanText value.toList = (value.toList, [])
  | .slot _ fallback => Node.Joined fallback
  | .loop info _ => LoopHead.IsName info.item ∧ ∀ i ∈ info.index, LoopHead.IsName i
  | .comment value _ => Place.Delimits ['-', '-', '>'] value.toList
  | _ => True

/-- Nodes and all nodes below them are written so. -/
def Node.WrittenAll (ns : List Node) : Prop :=
  ∀ m ∈ Node.withinAll ns, m.Written

theorem Node.writtenAll_nil : Node.WrittenAll [] :=
  fun _ hm => absurd hm List.not_mem_nil

theorem Node.writtenAll_cons {n : Node} {ns : List Node} :
    Node.WrittenAll (n :: ns) ↔ (∀ m ∈ n.within, m.Written) ∧ Node.WrittenAll ns :=
  List.forall_mem_append

theorem Node.writtenAll_append {ns ns' : List Node} :
    Node.WrittenAll (ns ++ ns') ↔ Node.WrittenAll ns ∧ Node.WrittenAll ns' := by
  rw [Node.WrittenAll, Node.withinAll_append]
  exact List.forall_mem_append

/-- The start tag of an element is written so, and its children are apart. -/
structure StartWritten (tag : String) (items : List StartItem) (selfClosing : Bool)
    (children : List Node) : Prop where
  isTagName : IsTagName tag
  written : ∀ item ∈ items, item.Written
  closed : selfClosing = true → children = []
  void : selfClosing = false → tag ∉ voidTags
  joined : Node.Joined children

theorem StartWritten.ofStart {platform : Platform} {tag : String} {items : List StartItem}
    {selfClosing : Bool} {location : Location} {children : List Node}
    (h : StartWritten tag items selfClosing children) (hc : Node.WrittenAll children) :
    ∀ m ∈ (Node.ofStart platform tag (items.filterMap StartItem.attribute?)
      (items.filterMap StartItem.directive?) selfClosing location children).within, m.Written := by
  unfold Node.ofStart
  split
  · exact List.forall_mem_cons.mpr ⟨h.joined, hc⟩
  · refine List.forall_mem_cons.mpr ⟨?_, hc⟩
    refine ⟨h.isTagName, StartItem.attributes_written h.written, fun b hb => ?_, h.closed, h.void, h.joined⟩
    obtain ⟨d, hd, hb⟩ := List.mem_filterMap.mp hb
    have hwritten := StartItem.directives_written h.written d hd
    cases d with
    | binding b' =>
      cases hb
      exact hwritten
    | structural s l => cases hb
    | unsupported name value l => cases hb

theorem Node.looped_written {n : Node} {directives : List Directive} {depth : Nat}
    {location : Location} (hn : ∀ m ∈ n.within, m.Written)
    (hd : ∀ d ∈ directives, d.Written) :
    ∀ m ∈ (n.looped directives depth location).within, m.Written := by
  unfold Node.looped
  split
  · exact hn
  · rename_i source item index hloop
    refine List.forall_mem_cons.mpr ⟨?_, Node.writtenAll_cons.mpr ⟨hn, Node.writtenAll_nil⟩⟩
    obtain ⟨d, hmem, hs⟩ := List.exists_of_findSome?_eq_some hloop
    have hwritten := hd d hmem
    cases d with
    | structural s l =>
      cases s <;> cases hs
      exact hwritten
    | binding b => cases hs
    | unsupported name value l => cases hs

/-! ## Chains -/

/-- The nodes of a chain that may go on are written so. -/
structure OpenChain.Written (c : OpenChain) : Prop where
  below : ∀ m ∈ Branch.withinAll c.branches, m.Written
  parked : Node.WrittenAll c.parked

namespace OpenChain.Written

variable {c : OpenChain}

theorem within_branch {role : ChainRole} {s : Sibling} (hs : ∀ m ∈ s.node.within, m.Written) :
    ∀ m ∈ Branch.withinAll [role.branch s], m.Written := by
  have hnode : Node.WrittenAll [s.node] := Node.writtenAll_cons.mpr ⟨hs, Node.writtenAll_nil⟩
  rw [Branch.withinAll_singleton]
  cases role <;> exact hnode

theorem extend (h : c.Written) {s : Sibling} (hs : ∀ m ∈ s.node.within, m.Written)
    (role : ChainRole) : (c.extend (role.branch s)).Written := by
  refine ⟨?_, Node.writtenAll_nil⟩
  rw [OpenChain.extend, Branch.withinAll_append]
  exact List.forall_mem_append.mpr ⟨h.below, within_branch hs⟩

theorem park (h : c.Written) {n : Node} (hn : ∀ m ∈ n.within, m.Written) :
    OpenChain.Written { c with parked := c.parked ++ [n] } :=
  ⟨h.below, Node.writtenAll_append.mpr
    ⟨h.parked, Node.writtenAll_cons.mpr ⟨hn, Node.writtenAll_nil⟩⟩⟩

theorem close (h : c.Written) : Node.WrittenAll c.close :=
  Node.writtenAll_cons.mpr ⟨List.forall_mem_cons.mpr ⟨trivial, h.below⟩, h.parked⟩

end OpenChain.Written

theorem OpenChain.closeAll_written {chain : Option OpenChain} (h : ∀ c ∈ chain, c.Written) :
    Node.WrittenAll (OpenChain.closeAll chain) := by
  cases chain with
  | none => exact Node.writtenAll_nil
  | some c => exact (h c rfl).close

/-- Forming chains brings in nothing that is written. -/
theorem groupFrom_written {chain : Option OpenChain} {siblings : List Sibling} {nodes : List Node}
    (hc : ∀ c ∈ chain, c.Written) (hs : ∀ s ∈ siblings, ∀ m ∈ s.node.within, m.Written)
    (h : groupFrom chain siblings = .ok nodes) : Node.WrittenAll nodes := by
  replace h := grouped_of_groupFrom h
  have no_chain : ∀ c ∈ (none : Option OpenChain), c.Written := nofun
  induction h with
  | done chain => exact OpenChain.closeAll_written hc
  | opens hrole _ ih =>
    obtain ⟨hn, hs⟩ := List.forall_mem_cons.mp hs
    refine Node.writtenAll_append.mpr ⟨OpenChain.closeAll_written hc, ih ?_ hs⟩
    rintro c ⟨⟩
    exact ⟨OpenChain.Written.within_branch hn, Node.writtenAll_nil⟩
  | goesOn hrole _ ih =>
    obtain ⟨hn, hs⟩ := List.forall_mem_cons.mp hs
    refine ih ?_ hs
    rintro c' ⟨⟩
    exact (hc _ rfl).extend hn _
  | ends hrole _ ih =>
    obtain ⟨hn, hs⟩ := List.forall_mem_cons.mp hs
    exact Node.writtenAll_append.mpr ⟨((hc _ rfl).extend hn _).close, ih no_chain hs⟩
  | waits hrole _ _ ih =>
    obtain ⟨hn, hs⟩ := List.forall_mem_cons.mp hs
    refine ih ?_ hs
    rintro c' ⟨⟩
    exact (hc _ rfl).park hn
  | stands hrole _ ih =>
    obtain ⟨hn, hs⟩ := List.forall_mem_cons.mp hs
    exact Node.writtenAll_append.mpr
      ⟨OpenChain.closeAll_written hc, Node.writtenAll_cons.mpr ⟨hn, ih no_chain hs⟩⟩

theorem settle_written {read : List Sibling × Option Flaw} {nodes : List Node}
    (hs : ∀ s ∈ read.1, ∀ m ∈ s.node.within, m.Written) (h : settle read = .ok nodes) :
    Node.WrittenAll nodes :=
  groupFrom_written (fun c hc => by cases hc) hs (settle_eq_ok h).2

/-! ## Trees that were read -/

section Lower

variable {platform : Platform} {locate : Nat → Location}

mutual

/-- What is read from well-formed pieces that are apart is written so. -/
theorem Raw.lower_written {depth : Nat} (r : Raw) (hr : r.Proper) (hj : r.Joined)
    (hwf : ∀ p ∈ r.pieces, p.WellFormed) {s : Sibling}
    (h : Raw.lower platform locate depth r = .ok s) : ∀ m ∈ s.node.within, m.Written := by
  match r with
  | .text value start =>
    cases h
    exact List.forall_mem_singleton.mpr (hwf _ List.mem_cons_self)
  | .comment value start =>
    cases h
    exact List.forall_mem_singleton.mpr (hwf (.comment value start) List.mem_cons_self)
  | .interpolation source start =>
    obtain ⟨e, -, h⟩ := Except.bind_eq_ok.mp h
    cases h
    exact List.forall_mem_singleton.mpr trivial
  | .element tag attributes selfClosing start children =>
    have hsub := hr.children.1
    obtain ⟨htag, hattributes, -, hvoid⟩ :=
      hwf (.openTag tag attributes selfClosing start) (by simp [Raw.pieces])
    rw [Raw.lower] at h
    obtain ⟨items, hi, h⟩ := Except.bind_eq_ok.mp h
    obtain ⟨nodes, hn, h⟩ := Except.bind_eq_ok.mp h
    have hitems := RawAttribute.items_written hattributes hi
    have hchildren : Node.WrittenAll nodes :=
      settle_written (Raw.lowerEach_written children hr.2 hj fun p hp => hwf p (hsub p hp)) hn
    have hstart : StartWritten tag items selfClosing nodes := by
      refine ⟨htag, hitems, fun hclosed => ?_, hvoid, settle_joined hn hj⟩
      rw [hr.1 hclosed] at hn
      cases hn
      rfl
    dsimp only at h
    split at h
    · cases h
    · cases h
      exact Node.looped_written (hstart.ofStart hchildren) (StartItem.directives_written hitems)

theorem Raw.lowerEach_written {depth : Nat} (rs : List Raw) (hr : Raw.ProperAll rs)
    (hj : Raw.JoinedAll rs) (hwf : ∀ p ∈ Raw.piecesAll rs, p.WellFormed) :
    ∀ s ∈ (Raw.lowerEach platform locate depth rs).1, ∀ m ∈ s.node.within, m.Written := by
  match rs with
  | [] => exact fun s hs => absurd hs List.not_mem_nil
  | r :: rest =>
    obtain ⟨hfirst, hrest⟩ := List.forall_mem_append.mp hwf
    rw [Raw.lowerEach]
    split
    · exact fun s hs => absurd hs List.not_mem_nil
    · rename_i s hs
      exact List.forall_mem_cons.mpr ⟨Raw.lower_written r hr.1 hj.1 hfirst hs,
        Raw.lowerEach_written rest hr.2 hj.2.2 hrest⟩

end

end Lower

/-- In a tree that was read all names, texts and comments are such as can be read, and neighbours
are apart. -/
theorem Template.parse_written {options : ParseOptions} {source : String} {nodes : List Node}
    (h : Template.parse options source = .ok nodes) :
    Node.WrittenAll nodes ∧ Node.Joined nodes := by
  have hread := parse_eq_ok.mp h
  obtain ⟨raw, hraw, -⟩ := Except.bind_eq_ok.mp hread
  rw [read_eq options hraw] at hread
  have hwf := options.whitespace.wellFormed_kept (Raw.wellFormed_of_read hraw)
  have hjoined := options.whitespace.joinedAll_kept (Raw.joinedAll_of_read hraw)
  exact ⟨settle_written (Raw.lowerEach_written _ hwf.proper hjoined hwf.pieces) hread,
    settle_joined hread hjoined⟩

end UiTemplate
