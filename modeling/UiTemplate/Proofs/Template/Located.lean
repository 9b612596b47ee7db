import UiTemplate.Proofs.Template.Rejected
import UiTemplate.Proofs.Template.Tree

/-!
# Locations are exact

- `Location.Marks`: a location is that of a mark in the text: its offset counts the bytes before the
  mark, its line the line breaks, and its column the characters after the last one.
- `Location.lineTable_locate`: a table of where the lines begin gives the same locations.
- `Node.IsLocated`: the locations in a node are those of what the node was read from.
- `Raw.lower_located`: the nodes that are read from nodes in their places are located.
- `Template.parse_located`: the nodes of a template are located, and an error that is due to an
  expression lies as far behind the text of the expression as the expression's own error says.
-/

namespace UiTemplate

/-! ## Lines -/

namespace LineTable

/-- The line breaks of a text in two parts are those of the parts. -/
theorem breaks_append (start : Nat) (a b : List Char) :
    breaks start (a ++ b) = breaks start a ++ breaks (start + Text.byteLength a) b := by
  induction a generalizing start with
  | nil => rfl
  | cons c a ih =>
    rw [List.cons_append, breaks, breaks, ih, Text.byteLength, Nat.add_assoc]
    split
    · exact List.cons_append.symm
    · rfl

/-- A line starts after the start of the text and not behind its end. -/
theorem bounds_of_mem_breaks {start n : Nat} {cs : List Char} (h : n ∈ breaks start cs) :
    start < n ∧ n ≤ start + Text.byteLength cs := by
  induction cs generalizing start with
  | nil => cases h
  | cons c cs ih =>
    rw [breaks] at h
    rw [Text.byteLength]
    have hsize := c.utf8Size_pos
    have hmore (hn : n ∈ breaks (start + c.utf8Size) cs) :
        start < n ∧ n ≤ start + (c.utf8Size + Text.byteLength cs) := by
      have hbounds := ih hn
      omega
    split at h
    · rcases List.mem_cons.mp h with rfl | h
      · omega
      · exact hmore h
    · exact hmore h

/-- The lines that do not begin behind a place are those of the text before it. -/
theorem takeWhile_starts (before after : List Char) :
    (ofText (before ++ after)).starts.takeWhile (· ≤ Text.byteLength before) =
      (ofText before).starts := by
  have hnone : (breaks (0 + Text.byteLength before) after).takeWhile
      (· ≤ Text.byteLength before) = [] := by
    cases hbreaks : breaks (0 + Text.byteLength before) after with
    | nil => rfl
    | cons n ns =>
      have hn : n ∈ breaks (0 + Text.byteLength before) after := hbreaks ▸ List.mem_cons_self
      have hbounds := bounds_of_mem_breaks hn
      exact List.takeWhile_cons_of_neg (by simp; omega)
  rw [ofText, breaks_append, ← List.cons_append, List.takeWhile_append_of_pos, hnone,
    List.append_nil]
  · rfl
  · intro n hn
    refine decide_eq_true ?_
    rcases List.mem_cons.mp hn with rfl | hn
    · exact Nat.zero_le _
    · have hbounds := bounds_of_mem_breaks hn
      omega

/-- The last line of a text begins behind its last line break. -/
theorem getD_starts {earlier last : List Char} (hlast : '\n' ∉ last)
    (hearlier : earlier = [] ∨ earlier.getLast? = some '\n') (after : List Char) :
    (ofText (earlier ++ (last ++ after))).starts.getD ((earlier ++ last).count '\n') 0 =
      Text.byteLength earlier := by
  have hcount : (earlier ++ last).count '\n' = (breaks 0 earlier).length := by
    rw [List.count_append, List.count_eq_zero_of_not_mem hlast, length_breaks]
    rfl
  rw [hcount, ofText, breaks_append, ← List.cons_append, List.getD_eq_getElem?_getD,
    List.getElem?_append_left (Nat.lt_succ_self _)]
  rcases hearlier with rfl | hbreak
  · rfl
  · obtain ⟨front, rfl⟩ := List.getLast?_eq_some_iff.mp hbreak
    have hone : breaks (0 + Text.byteLength front) ['\n'] = [Text.byteLength front + 1] := by
      rw [Nat.zero_add]
      rfl
    rw [breaks_append, hone, List.length_append, Text.byteLength_append]
    simp
    rfl

end LineTable

/-! ## Locations -/

namespace Location

/-- The location comes after the text `before`. -/
structure IsAfter (l : Location) (before : List Char) : Prop where
  offset : l.offset = Text.byteLength before
  line : l.line = 1 + before.count '\n'
  column : ∃ earlier last, before = earlier ++ last ∧ '\n' ∉ last ∧
    (earlier = [] ∨ earlier.getLast? = some '\n') ∧ l.column = 1 + last.length

/-- The location is that of a mark in the text. -/
def Marks (source : List Char) (l : Location) (mark : List Char) : Prop :=
  ∃ before after, source = before ++ mark ++ after ∧ l.IsAfter before

/-- The location of a place says how many lines and characters stand before it. -/
theorem isAfter_locate (before after : List Char) :
    (locate (before ++ after) (Text.byteLength before)).IsAfter before := by
  have hsplit := Text.splitBytes_byteLength before after
  refine ⟨rfl, ?_, ?_⟩
  · rw [locate, hsplit]
    exact Nat.add_comm _ _
  · rw [locate, hsplit]
    refine ⟨(before.reverse.dropWhile (· ≠ '\n')).reverse,
      (before.reverse.takeWhile (· ≠ '\n')).reverse, ?_, ?_, ?_, ?_⟩
    · rw [← List.reverse_append, List.takeWhile_append_dropWhile, List.reverse_reverse]
    · intro hmem
      have h := List.all_eq_true.mp List.all_takeWhile _ (List.mem_reverse.mp hmem)
      simp at h
    · rw [List.getLast?_reverse, List.reverse_eq_nil_iff]
      have h := List.head?_dropWhile_not (fun c => decide (c ≠ '\n')) before.reverse
      cases hdrop : before.reverse.dropWhile (· ≠ '\n') with
      | nil => exact .inl rfl
      | cons c cs =>
        rw [hdrop] at h
        have hc : c = '\n' := by simpa using h
        exact .inr (congrArg some hc)
    · rw [List.length_reverse]
      exact Nat.add_comm _ _

/-- The location of the byte at which a mark stands. -/
theorem marks_locate {source mark : List Char} {start : Nat} (h : Stands source start mark) :
    (locate source start).Marks source mark := by
  obtain ⟨before, after, rfl, rfl⟩ := h
  refine ⟨before, after, rfl, ?_⟩
  rw [List.append_assoc]
  exact isAfter_locate before _

/-- The table of lines gives the same location, for every place between two characters. -/
theorem lineTable_locate (before after : List Char) :
    (LineTable.ofText (before ++ after)).locate (before ++ after) (Text.byteLength before) =
      locate (before ++ after) (Text.byteLength before) := by
  have hoffset : min (Text.byteLength before) (Text.byteLength (before ++ after)) =
      Text.byteLength before := by
    rw [Text.byteLength_append]
    exact Nat.min_eq_left (Nat.le_add_right _ _)
  have hline : (LineTable.ofText before).starts.length = before.count '\n' + 1 :=
    congrArg (· + 1) (LineTable.length_breaks 0 before)
  obtain ⟨hplace, hcount, earlier, last, rfl, hlast, hearlier, hcolumn⟩ :=
    isAfter_locate before after
  have hlocate : locate (earlier ++ last ++ after) (Text.byteLength (earlier ++ last)) =
      ⟨1 + (earlier ++ last).count '\n', 1 + last.length, Text.byteLength (earlier ++ last)⟩ := by
    rw [← hplace, ← hcount, ← hcolumn]
    rfl
  rw [hlocate]
  simp only [LineTable.locate, hoffset, LineTable.takeWhile_starts, hline, Nat.add_sub_cancel]
  rw [List.append_assoc, LineTable.getD_starts hlast hearlier, Text.slice?_byteLength,
    Nat.add_comm 1, Nat.add_comm 1]
  rfl

end Location

/-! ## Locations in nodes -/

/-- The name of the attribute that asks for this. -/
def Structure.written : Structure → String
  | .onlyIf _ => "v-if"
  | .elseIf _ => "v-else-if"
  | .otherwise => "v-else"
  | .forEach .. => "v-for"

/-- The names that the attribute of a directive may have. -/
def Directive.written : Directive → List String
  | .structural s _ => [s.written]
  | .binding b =>
    match b.kind with
    | .prop => [":" ++ b.name, "v-bind:" ++ b.name]
    | .event => ["@" ++ b.name, "v-on:" ++ b.name]
    | .html => ["v-html"]
  | .unsupported name _ _ => [name]

/-- The location of a directive is that of the name of its attribute. -/
def Directive.IsLocated (source : List Char) (d : Directive) : Prop :=
  ∃ name ∈ d.written, d.location.Marks source name.toList

/-- The location of an attribute is that of its name. -/
def Attribute.IsLocated (source : List Char) (a : Attribute) : Prop :=
  a.location.Marks source a.name.toList

namespace Node

/-- The tag of an element or a slot, with its location. -/
def startTag? : Node → Option (String × Location)
  | element info _ => some (info.tag, info.location)
  | slot info _ => some ("slot", info.location)
  | _ => none

/-- The node that a loop repeats, and any other node itself. -/
def owner : Node → Node
  | loop _ [n] => n
  | n => n

/-- The node is an element or a slot whose start tag has this location. -/
def IsTagAt (source : List Char) (n : Node) (l : Location) : Prop :=
  ∃ tag, n.startTag? = some (tag, l) ∧ l.Marks source ('<' :: tag.toList)

/-- The locations in a node by itself are those of what it was read from. A loop and a branch have
the location of the element or slot that they belong to, and a chain has that of its first
branch. -/
def IsLocated (source : List Char) : Node → Prop
  | n@(element info _) =>
    n.IsTagAt source info.location ∧ (∀ a ∈ info.attributes, a.IsLocated source) ∧
      ∀ d ∈ info.directives, d.IsLocated source
  | n@(slot info _) =>
    n.IsTagAt source info.location ∧ (∀ a ∈ info.attributes, a.IsLocated source) ∧
      ∀ d ∈ info.directives, d.IsLocated source
  | text _ l => l.Marks source []
  | comment _ l => l.Marks source "<!--".toList
  | interpolation e _ l =>
    ∃ before code after,
      source = before ++ "\x7b\x7b".toList ++ code ++ "\x7d\x7d".toList ++ after ∧
      l.IsAfter (before ++ "\x7b\x7b".toList) ∧ e.source.toList = Text.trim code
  | loop info children => ∃ n, children = [n] ∧ n.IsTagAt source info.location
  | chain branches _ l =>
    (∃ b, branches.head? = some b ∧ b.info.location = l) ∧
      ∀ b ∈ branches, ∃ n, b.children = [n] ∧ n.owner.IsTagAt source b.info.location

/-- All nodes in nodes are located. -/
def LocatedAll (source : List Char) (ns : List Node) : Prop :=
  ∀ m ∈ withinAll ns, m.IsLocated source

end Node

/-! ## Start tags -/

/-- What is left of a name stood behind the mark. -/
theorem eq_append_of_dropMark {mark name rest : String} (h : dropMark mark name = some rest) :
    name = mark ++ rest := by
  unfold dropMark at h
  split at h
  · rename_i hp
    cases h
    obtain ⟨after, hafter⟩ := List.isPrefixOf_iff_prefix.mp hp
    rw [← String.toList_inj, String.toList_append, String.toList_ofList, ← hafter,
      ← String.length_toList, List.drop_left]
  · cases h

/-- What an attribute means is located. -/
def StartItem.IsLocated (source : List Char) : StartItem → Prop
  | .fixed a => a.IsLocated source
  | .directive d => d.IsLocated source

namespace RawAttribute

variable {source : List Char} {a : RawAttribute}

/-- The directive of a branch is written with the name of its attribute. -/
theorem chainRole_written {s : Structure} (hchain : a.isChain = true)
    (h : a.chainRole = .ok s) : s.written = a.name := by
  obtain ⟨e, hname, -, rfl⟩ | ⟨e, hname, -, rfl⟩ | ⟨hname, -, rfl⟩ := chainRole_cases h
  · exact hname.symm
  · exact hname.symm
  · exact (hname hchain).symm

/-- So is that of a loop. -/
theorem loopRole_written {s : Structure} (hloop : a.isLoop = true) (h : a.loopRole = .ok s) :
    s.written = a.name := by
  obtain ⟨v, head, e, -, -, -, rfl⟩ := loopRole_cases h
  exact (beq_iff_eq.mp hloop).symm

theorem mem_of_dropMark_orElse {first second name rest : String}
    (h : (dropMark first name <|> dropMark second name) = some rest) :
    name ∈ [first ++ rest, second ++ rest] := by
  cases hfirst : dropMark first name with
  | some rest' =>
    rw [hfirst] at h
    cases h
    rw [eq_append_of_dropMark hfirst]
    exact List.mem_cons_self
  | none =>
    rw [hfirst] at h
    have hsecond : dropMark second name = some rest := h
    rw [eq_append_of_dropMark hsecond]
    exact List.mem_cons_of_mem _ (List.mem_singleton_self _)

/-- The names that an attribute may have that binds something. -/
theorem name_of_bound? {kind : BindingKind} {argument : String}
    (h : a.bound? = some (kind, argument)) (e : Expression) (l : Location) :
    a.name ∈ (Directive.binding ⟨kind, argument, e, none, l⟩).written := by
  unfold bound? at h
  split at h
  · rename_i hprop
    cases h
    exact mem_of_dropMark_orElse hprop
  · split at h
    · rename_i hevent
      cases h
      exact mem_of_dropMark_orElse hevent
    · cases h

/-- What a plain attribute becomes is at the name of the attribute. -/
theorem plainItem_located (hl : (Location.locate source a.start).Marks source a.name.toList)
    {item : StartItem} (h : a.plainItem (Location.locate source) = .ok item) :
    item.IsLocated source := by
  obtain ⟨e, hname, -, rfl⟩ | ⟨kind, argument, e, hbound, -, -, rfl⟩ | rfl | rfl :=
    plainItem_cases h
  · exact ⟨_, List.mem_singleton_self _, hname ▸ hl⟩
  · exact ⟨_, name_of_bound? hbound e _, hl⟩
  · exact ⟨_, List.mem_singleton_self _, hl⟩
  · exact hl

/-- So is what all attributes of a start tag become. -/
theorem items_located {inChain inLoop : Bool} {attributes : List RawAttribute}
    (hplaced : ∀ a ∈ attributes, a.IsPlaced source) {is : List StartItem}
    (h : items (Location.locate source) inChain inLoop attributes = .ok is) :
    ∀ item ∈ is, item.IsLocated source := by
  have structural {a : RawAttribute} (ha : a.IsPlaced source) {s : Structure}
      (hs : s.written = a.name) :
      (StartItem.directive (.structural s (Location.locate source a.start))).IsLocated source :=
    ⟨_, List.mem_singleton_self _, hs.symm ▸ Location.marks_locate ha.name⟩
  replace h := itemized_of_items h
  induction h with
  | nil => exact fun _ hi => absurd hi List.not_mem_nil
  | branch hchain hs _ ih =>
    obtain ⟨ha, hrest⟩ := List.forall_mem_cons.mp hplaced
    exact List.forall_mem_cons.mpr ⟨structural ha (chainRole_written hchain hs), ih hrest⟩
  | loop _ hloop hs _ ih =>
    obtain ⟨ha, hrest⟩ := List.forall_mem_cons.mp hplaced
    exact List.forall_mem_cons.mpr ⟨structural ha (loopRole_written hloop hs), ih hrest⟩
  | plain _ _ hitem _ ih =>
    obtain ⟨ha, hrest⟩ := List.forall_mem_cons.mp hplaced
    exact List.forall_mem_cons.mpr
      ⟨plainItem_located (Location.marks_locate ha.name) hitem, ih hrest⟩

end RawAttribute

namespace StartItem

variable {source : List Char} {is : List StartItem}

theorem directives_located (h : ∀ item ∈ is, item.IsLocated source) :
    ∀ d ∈ is.filterMap directive?, d.IsLocated source := by
  intro d hd
  obtain ⟨item, hi, hd⟩ := List.mem_filterMap.mp hd
  have hitem := h item hi
  cases item with
  | fixed a => cases hd
  | directive d' =>
    cases hd
    exact hitem

theorem attributes_located (h : ∀ item ∈ is, item.IsLocated source) :
    ∀ a ∈ is.filterMap attribute?, a.IsLocated source := by
  intro a ha
  obtain ⟨item, hi, ha⟩ := List.mem_filterMap.mp ha
  have hitem := h item hi
  cases item with
  | directive d => cases ha
  | fixed a' =>
    cases ha
    exact hitem

end StartItem

namespace Node

variable {source : List Char} {platform : Platform} {tag : String} {attributes : List Attribute}
  {directives : List Directive} {selfClosing : Bool} {l : Location} {children : List Node}

/-- The node of a start tag has the location of the tag. -/
theorem isTagAt_ofStart (hl : l.Marks source ('<' :: tag.toList)) :
    (ofStart platform tag attributes directives selfClosing l children).IsTagAt source l := by
  unfold ofStart
  split
  · rename_i htag
    exact ⟨"slot", rfl, htag ▸ hl⟩
  · exact ⟨tag, rfl, hl⟩

/-- The node of a start tag is where the tag starts, with everything in it. -/
theorem ofStart_located (ha : ∀ a ∈ attributes, a.IsLocated source)
    (hd : ∀ d ∈ directives, d.IsLocated source) (hl : l.Marks source ('<' :: tag.toList))
    (hc : LocatedAll source children) :
    ∀ m ∈ (ofStart platform tag attributes directives selfClosing l children).within,
      m.IsLocated source := by
  have htag : (ofStart platform tag attributes directives selfClosing l children).IsTagAt source l :=
    isTagAt_ofStart hl
  unfold ofStart at htag ⊢
  split
  · rename_i hslot
    rw [if_pos hslot] at htag
    refine List.forall_mem_cons.mpr ⟨⟨htag, ?_, ?_⟩, hc⟩
    · exact fun a hm => ha a (List.mem_filter.mp hm).1
    · exact fun d hm => hd d (List.mem_filter.mp hm).1
  · rename_i hslot
    rw [if_neg hslot] at htag
    exact List.forall_mem_cons.mpr ⟨⟨htag, ha, hd⟩, hc⟩

/-- A loop around the node of a tag is where the tag starts. -/
theorem looped_located {n : Node} {depth : Nat} (hn : ∀ m ∈ n.within, m.IsLocated source)
    (htag : n.IsTagAt source l) :
    ∀ m ∈ (n.looped directives depth l).within, m.IsLocated source := by
  unfold looped
  split
  · exact hn
  · refine List.forall_mem_cons.mpr ⟨⟨n, rfl, htag⟩, ?_⟩
    rw [withinAll, withinAll, List.append_nil]
    exact hn

/-- What is inside the loop around an element or a slot, or there without one. -/
theorem owner_looped {n : Node} {depth : Nat} (htag : n.IsTagAt source l) :
    (n.looped directives depth l).owner = n := by
  obtain ⟨tag, hs, -⟩ := htag
  unfold looped
  split
  · cases n with
    | loop info children => cases hs
    | _ => rfl
  · rfl

end Node

/-! ## Chains -/

/-- A node that was read is located, and so is the branch that it may be. -/
structure Sibling.IsLocated (source : List Char) (s : Sibling) : Prop where
  node : ∀ m ∈ s.node.within, m.IsLocated source
  branch : s.role.isSome = true → s.node.owner.IsTagAt source s.location

/-- What a chain holds that may go on is located. -/
structure OpenChain.IsLocated (source : List Char) (c : OpenChain) : Prop where
  first : ∃ b, c.branches.head? = some b ∧ b.info.location = c.location
  branches : ∀ b ∈ c.branches, ∃ n, b.children = [n] ∧ n.owner.IsTagAt source b.info.location
  below : ∀ m ∈ Branch.withinAll c.branches, m.IsLocated source
  parked : Node.LocatedAll source c.parked

section Chain

variable {source : List Char} {c : OpenChain} {s : Sibling} {role : ChainRole}

theorem ChainRole.location_branch (role : ChainRole) (s : Sibling) :
    (role.branch s).info.location = s.location := by
  cases role <;> rfl

theorem ChainRole.children_branch (role : ChainRole) (s : Sibling) :
    (role.branch s).children = [s.node] := by
  cases role <;> rfl

theorem ChainRole.withinAll_branch (role : ChainRole) (s : Sibling) :
    Branch.withinAll [role.branch s] = s.node.within := by
  cases role <;> simp [branch, Branch.withinAll, Node.withinAll]

namespace OpenChain.IsLocated

/-- A chain that is opened is where its first branch is. -/
theorem start (hs : s.IsLocated source) (hr : s.role = some role) :
    OpenChain.IsLocated source ⟨[role.branch s], s.location, []⟩ := by
  refine ⟨⟨_, rfl, role.location_branch s⟩, List.forall_mem_singleton.mpr ?_, ?_, nofun⟩
  · rw [role.location_branch, role.children_branch]
    exact ⟨s.node, rfl, hs.branch (by rw [hr]; rfl)⟩
  · rw [role.withinAll_branch]
    exact hs.node

/-- A further branch does not move it. -/
theorem extend (h : c.IsLocated source) (hs : s.IsLocated source) (hr : s.role = some role) :
    (c.extend (role.branch s)).IsLocated source := by
  have hnew := start hs hr
  obtain ⟨b, hb, hl⟩ := h.first
  refine ⟨⟨b, ?_, hl⟩, List.forall_mem_append.mpr ⟨h.branches, hnew.branches⟩, ?_, nofun⟩
  · rw [OpenChain.extend, List.head?_append, hb]
    rfl
  · rw [OpenChain.extend, Branch.withinAll_append]
    exact List.forall_mem_append.mpr ⟨h.below, hnew.below⟩

/-- Nor does a comment that is kept behind a branch. -/
theorem park (h : c.IsLocated source) {n : Node} (hn : ∀ m ∈ n.within, m.IsLocated source) :
    OpenChain.IsLocated source { c with parked := c.parked ++ [n] } := by
  refine ⟨h.first, h.branches, h.below, ?_⟩
  rw [Node.LocatedAll, Node.withinAll_append, Node.withinAll, Node.withinAll, List.append_nil]
  exact List.forall_mem_append.mpr ⟨h.parked, hn⟩

/-- A chain that is closed gives located nodes. -/
theorem close (h : c.IsLocated source) : Node.LocatedAll source c.close :=
  List.forall_mem_cons.mpr
    ⟨⟨h.first, h.branches⟩, List.forall_mem_append.mpr ⟨h.below, h.parked⟩⟩

end OpenChain.IsLocated

/-- Siblings that are located are grouped into located nodes. -/
theorem groupFrom_located {chain : Option OpenChain} {siblings : List Sibling}
    {nodes : List Node} (hc : ∀ c ∈ chain, c.IsLocated source)
    (hs : ∀ s ∈ siblings, s.IsLocated source) (h : groupFrom chain siblings = .ok nodes) :
    Node.LocatedAll source nodes := by
  replace h := grouped_of_groupFrom h
  have no_chain : ∀ c ∈ (none : Option OpenChain), c.IsLocated source := nofun
  have closeAll {chain : Option OpenChain} (hc : ∀ c ∈ chain, c.IsLocated source) :
      Node.LocatedAll source (OpenChain.closeAll chain) := by
    cases chain with
    | none => exact nofun
    | some c => exact (hc c rfl).close
  have append {ns ns' : List Node} (h : Node.LocatedAll source ns)
      (h' : Node.LocatedAll source ns') : Node.LocatedAll source (ns ++ ns') := by
    rw [Node.LocatedAll, Node.withinAll_append]
    exact List.forall_mem_append.mpr ⟨h, h'⟩
  induction h with
  | done chain => exact closeAll hc
  | opens hrole _ ih =>
    obtain ⟨hn, hs⟩ := List.forall_mem_cons.mp hs
    refine append (closeAll hc) (ih ?_ hs)
    rintro c ⟨⟩
    exact .start hn hrole
  | goesOn hrole _ ih =>
    obtain ⟨hn, hs⟩ := List.forall_mem_cons.mp hs
    refine ih ?_ hs
    rintro c' ⟨⟩
    exact (hc _ rfl).extend hn hrole
  | ends hrole _ ih =>
    obtain ⟨hn, hs⟩ := List.forall_mem_cons.mp hs
    exact append ((hc _ rfl).extend hn hrole).close (ih no_chain hs)
  | waits hrole _ _ ih =>
    obtain ⟨hn, hs⟩ := List.forall_mem_cons.mp hs
    refine ih ?_ hs
    rintro c' ⟨⟩
    exact (hc _ rfl).park hn.node
  | stands hrole _ ih =>
    obtain ⟨hn, hs⟩ := List.forall_mem_cons.mp hs
    exact append (closeAll hc) (List.forall_mem_append.mpr ⟨hn.node, ih no_chain hs⟩)

/-- So are they settled. -/
theorem settle_located {read : List Sibling × Option Flaw} {nodes : List Node}
    (hs : ∀ s ∈ read.1, s.IsLocated source) (h : settle read = .ok nodes) :
    Node.LocatedAll source nodes :=
  groupFrom_located (fun c hc => by cases hc) hs (settle_eq_ok h).2

end Chain

/-! ## Trees that were read -/

/-- The source of an expression is its text without the blanks at its ends. -/
theorem expressionAt_source {text : String} {start : Nat} {e : Expression}
    (h : expressionAt text start = .ok e) :
    e.source = String.ofList (Text.trim text.toList) := by
  unfold expressionAt at h
  split at h
  · rename_i hparse
    cases h
    exact Expression.source_of_parse hparse
  · cases h

section Lower

variable {source : List Char} {platform : Platform}

mutual

/-- A node that is read from one in its place is located. -/
theorem Raw.lower_located {depth : Nat} (r : Raw) (hr : r.IsPlaced source) {s : Sibling}
    (h : lower platform (Location.locate source) depth r = .ok s) : s.IsLocated source := by
  match r with
  | .text value start =>
    cases h
    exact ⟨List.forall_mem_singleton.mpr (Location.marks_locate hr), nofun⟩
  | .comment value start =>
    cases h
    have hmark : Stands source start "<!--".toList := hr.of_prefix ⟨_, (List.append_assoc ..).symm⟩
    exact ⟨List.forall_mem_singleton.mpr (Location.marks_locate hmark), nofun⟩
  | .interpolation code start =>
    obtain ⟨e, he, h⟩ := Except.bind_eq_ok.mp h
    cases h
    obtain ⟨before, after, rfl, hsource⟩ := hr
    have hbraces := Location.isAfter_locate (before ++ "\x7b\x7b".toList)
      (code.toList ++ ("\x7d\x7d".toList ++ after))
    rw [← List.append_assoc, ← List.append_assoc, ← hsource] at hbraces
    have htrim : e.source.toList = Text.trim code.toList := by
      rw [expressionAt_source he, String.toList_ofList]
    refine ⟨List.forall_mem_singleton.mpr ?_, nofun⟩
    exact ⟨before, code.toList, after, hsource, hbraces, htrim⟩
  | .element tag attributes selfClosing start children =>
    obtain ⟨htag, hattributes, hchildren⟩ := hr
    have hl := Location.marks_locate htag
    rw [lower] at h
    obtain ⟨items, hi, h⟩ := Except.bind_eq_ok.mp h
    obtain ⟨nodes, hn, h⟩ := Except.bind_eq_ok.mp h
    have hitems := RawAttribute.items_located hattributes hi
    have hnodes := settle_located (Raw.lowerEach_located children hchildren) hn
    dsimp only at h
    split at h
    · cases h
    · cases h
      refine ⟨Node.looped_located ?_ (Node.isTagAt_ofStart hl), fun _ => ?_⟩
      · exact Node.ofStart_located (StartItem.attributes_located hitems)
          (StartItem.directives_located hitems) hl hnodes
      · rw [Node.owner_looped (Node.isTagAt_ofStart hl)]
        exact Node.isTagAt_ofStart hl

/-- What stands in the text where it is placed becomes located siblings. -/
theorem Raw.lowerEach_located {depth : Nat} (rs : List Raw) (hr : Raw.IsPlacedAll source rs) :
    ∀ s ∈ (lowerEach platform (Location.locate source) depth rs).1, s.IsLocated source := by
  match rs with
  | [] => exact fun s hs => absurd hs List.not_mem_nil
  | r :: rest =>
    rw [lowerEach]
    split
    · exact fun s hs => absurd hs List.not_mem_nil
    · rename_i s hs
      exact List.forall_mem_cons.mpr
        ⟨Raw.lower_located r hr.1 hs, Raw.lowerEach_located rest hr.2⟩

end

end Lower

namespace Template

/-- **All nodes of a tree that was read are located.** -/
theorem read_located {options : ParseOptions} {source : List Char} {nodes : List Node}
    (h : read options source = .ok nodes) : Node.LocatedAll source nodes := by
  obtain ⟨rs, hrs, -⟩ := Except.bind_eq_ok.mp h
  rw [read_eq options hrs] at h
  exact settle_located (Raw.lowerEach_located _ (Raw.isPlacedAll_of_read hrs options.whitespace)) h

/-- The locations in the nodes of a template are those of what the nodes were read from. If a
template is rejected for a text that is no expression, the error's offset is that of the text,
without the blanks at its ends, and the offset of the expression's own error in it. -/
theorem parse_located (options : ParseOptions) (source : String) :
    (∀ nodes, parse options source = .ok nodes → Node.LocatedAll source.toList nodes) ∧
    ∀ error l, parse options source = .error ⟨.expression error, l⟩ →
      ∃ rs text start, Raw.read source.toList = .ok rs ∧
        (text, start) ∈ Raw.expressionTextsAll rs ∧ Expression.parse text = .error error ∧
        ∃ before after, source.toList = before ++ Text.trim text.toList ++ after ∧
          l.offset = Text.byteLength before + error.offset := by
  constructor
  · exact fun nodes h => read_located (parse_eq_ok.mp h)
  · intro error l h
    unfold parse at h
    split at h
    · cases h
    · rename_i flaw hread
      obtain ⟨fault, offset⟩ := flaw
      cases h
      obtain ⟨rs, hrs, ⟨text, start⟩, htext, hrejects⟩ := read_rejects hread
      have hplaced := Raw.isPlacedAll_of_read hrs .preserve
      have hstands := Raw.expressionTextsAll_stand rs hplaced _ htext
      obtain ⟨before, after, hsource, hstart⟩ := hstands.trim
      refine ⟨rs, text, start, hrs, htext, hrejects.rejected, before, after, hsource, ?_⟩
      rw [← hstart]
      exact hrejects.place

/-- Characters of two bytes before nodes and in them, and a loop whose slot is a branch. -/
def severalLines : String :=
  "é\n<p title=é :k='a'>\n <!-- é -->\x7b\x7b é \x7d\x7d <slot v-for=\"x in  xs\" v-if='x'/></p>"

/-- An expression that is rejected at its sixth byte, behind blanks in the head of a loop. -/
def rejectedLoop : String :=
  "é\n <p v-for=\"x in  [é, this] \"/>"

/-- Two runs over several lines: eight nodes with their locations, and a loop whose source is
refused at its own place. -/
theorem parse_located_severalLines :
    (∃ nodes, parse {} severalLines = .ok nodes ∧ (Node.withinAll nodes).length = 8 ∧
      Node.LocatedAll severalLines.toList nodes) ∧
    ∃ error, parse {} rejectedLoop = .error ⟨.expression error, ⟨2, 22, 25⟩⟩ ∧ error.offset = 5 ∧
      ∃ text before after, Expression.parse text = .error error ∧
        rejectedLoop.toList = before ++ Text.trim text.toList ++ after ∧
        25 = Text.byteLength before + 5 := by
  constructor
  · have hrun : (parse {} severalLines).toOption.map (fun nodes => (Node.withinAll nodes).length) =
        some 8 := by
      decide +kernel
    obtain ⟨nodes, hnodes, hlength⟩ := Option.map_eq_some_iff.mp hrun
    rw [Except.toOption_eq_some] at hnodes
    exact ⟨nodes, hnodes, hlength, (parse_located {} severalLines).1 nodes hnodes⟩
  · have hrun : (match parse {} rejectedLoop with
        | .ok _ => none
        | .error e => some e) =
        some ⟨.expression (.unsupported ⟨.form .this, 5⟩), ⟨2, 22, 25⟩⟩ := by
      decide +kernel
    cases hparse : parse {} rejectedLoop with
    | ok nodes =>
      rw [hparse] at hrun
      cases hrun
    | error e =>
      rw [hparse] at hrun
      cases hrun
      obtain ⟨_, text, _, _, _, hreject, before, after, hsource, hplace⟩ :=
        (parse_located {} rejectedLoop).2 _ _ hparse
      exact ⟨_, rfl, rfl, text, before, after, hreject, hsource, hplace⟩

end Template

end UiTemplate
