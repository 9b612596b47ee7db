import UiTemplate.Proofs.Binding.Lookup

/-!
# What extraction gives out, and where it is found

- `Template.extract_leadsBack`: keys are given out in the order of the text without gaps, the
  entries of every record are in that order, and every key leads back to what it was given to.
- `Node.LeadsBack`: what leading back means, by following the tree and the records in step.
- `Node.extractAll_strip`: extraction changes nothing but keys.
-/

namespace UiTemplate

open Extract

/-! ## Records inside records -/

mutual

/-- The records inside a record. -/
def Record.nested : List (Key × Thunk) → List Record
  | [] => []
  | (_, t) :: rest => t.nested ++ Record.nested rest

/-- The records in a bound value. -/
def Thunk.nested : Thunk → List Record
  | .field _ => []
  | .display _ => []
  | .loop _ _ _ _ record => record :: Record.nested record
  | .merge branches => MergeBranch.nested branches
  | .outletName .. => []
  | .outlet _ => []

/-- The records of branches, and those inside them. -/
def MergeBranch.nested : List MergeBranch → List Record
  | [] => []
  | .mk _ _ record :: rest => record :: Record.nested record ++ MergeBranch.nested rest

end

/-- All records: of the whole template, and of each branch and each loop. -/
def BindingContext.records (c : BindingContext) : List Record :=
  c.root :: Record.nested c.root

theorem Record.nested_append (r r' : Record) :
    Record.nested (r ++ r') = Record.nested r ++ Record.nested r' := by
  induction r with
  | nil => rfl
  | cons entry r ih =>
    obtain ⟨k, t⟩ := entry
    rw [List.cons_append, Record.nested, Record.nested, ih, List.append_assoc]

theorem Thunk.nested_of_isLeaf {t : Thunk} (h : t.isLeaf) : t.nested = [] := by
  cases t with
  | loop => cases h
  | merge => cases h
  | _ => rfl

theorem Record.nested_ofParts {ps : List Part} (h : ∀ p ∈ ps, p.2.isLeaf) :
    Record.nested (Record.ofParts ps) = [] := by
  induction ps with
  | nil => rfl
  | cons p ps ih =>
    obtain ⟨k, t⟩ := p
    have hr := ih fun q hq => h q (List.mem_cons_of_mem _ hq)
    cases k with
    | none => exact hr
    | some key =>
      rw [Record.ofParts_cons, Record.nested,
        Thunk.nested_of_isLeaf (h (some key, t) List.mem_cons_self), hr, List.nil_append]

/-- A part that is one of a scope of its own. -/
theorem Record.nested_ofParts_singleton (k : Option Key) (t : Thunk) :
    Record.nested (Record.ofParts [(k, t)]) ⊆ t.nested := by
  cases k with
  | none => exact List.nil_subset _
  | some key =>
    rw [Record.ofParts_cons, Record.ofParts_nil, Record.nested, Record.nested, List.append_nil]
    exact List.Subset.refl _

mutual

/-- The records inside the one of a node are those of its branches and loops. -/
theorem Node.nested_parts (family : Family) (n : Node) :
    Record.nested (Record.ofParts (n.parts family)) ⊆ (n.scopes family).map Record.ofParts := by
  match n with
  | .element info children =>
    rw [Node.parts, Record.ofParts_append, Record.nested_append,
      Record.nested_ofParts (directiveParts_isLeaf _), List.nil_append]
    exact Node.nested_partsAll family children
  | .text .. => exact List.nil_subset _
  | .interpolation e key l => exact Record.nested_ofParts_singleton key (.display e)
  | .slot info fallback =>
    rw [Node.parts, Record.ofParts_append, Record.nested_append,
      Record.nested_ofParts (SlotInfo.parts_isLeaf _ _), List.nil_append]
    exact Node.nested_partsAll family fallback
  | .chain branches key l =>
    refine List.Subset.trans (Record.nested_ofParts_singleton key _) ?_
    exact Branch.nested_mergedAll family branches
  | .loop info children =>
    refine List.Subset.trans (Record.nested_ofParts_singleton info.key _) ?_
    exact List.cons_subset_cons _ (Node.nested_partsAll family children)
  | .comment .. => exact List.nil_subset _

theorem Node.nested_partsAll (family : Family) (ns : List Node) :
    Record.nested (Record.ofParts (Node.partsAll family ns)) ⊆
      (Node.scopesAll family ns).map Record.ofParts := by
  match ns with
  | [] => exact List.nil_subset _
  | n :: rest =>
    rw [Node.partsAll, Record.ofParts_append, Record.nested_append, Node.scopesAll,
      List.map_append]
    exact List.append_subset.mpr
      ⟨List.subset_append_of_subset_left _ (Node.nested_parts family n),
        List.subset_append_of_subset_right _ (Node.nested_partsAll family rest)⟩

theorem Branch.nested_mergedAll (family : Family) (bs : List Branch) :
    MergeBranch.nested (Branch.mergedAll family bs) ⊆
      (Branch.scopesAll family bs).map Record.ofParts := by
  match bs with
  | [] => exact List.nil_subset _
  | .mk info children :: rest =>
    rw [Branch.mergedAll, MergeBranch.nested, Branch.scopesAll, List.map_append, List.map_cons]
    refine List.append_subset.mpr
      ⟨List.subset_append_of_subset_left _ (List.cons_subset_cons _ ?_),
        List.subset_append_of_subset_right _ (Branch.nested_mergedAll family rest)⟩
    rw [Record.ofParts_append, Record.nested_append,
      Record.nested_ofParts (BranchInfo.parts_isLeaf _), List.nil_append]
    exact Node.nested_partsAll family children

end

/-! ## Leading back -/

/-- What a key stands for in a scope: where keys are numbered anew in loops it is looked up in the
record of the scope, otherwise in the whole template. -/
def BindingContext.lookup (c : BindingContext) (record : Record) (key : Key) : Option Thunk :=
  if c.localKeys then record.get? key else c.thunk? key

/-- The key of a part stands for that part. -/
def BindingContext.Finds (c : BindingContext) (record : Record) (p : Part) : Prop :=
  ∃ key, p.1 = some key ∧ c.lookup record key = some p.2

mutual

/-- Every key in a node leads back to what it was given to. The record is the one of the innermost
branch or loop around the node; at a chain and at a loop the records inside are followed. -/
def Node.LeadsBack (c : BindingContext) (family : Family) (record : Record) : Node → Prop
  | .element info children =>
    (∀ p ∈ directiveParts info.directives, c.Finds record p) ∧
      Node.LeadsBackAll c family record children
  | .text .. => True
  | .interpolation expression key _ => c.Finds record (key, .display expression)
  | .slot info fallback =>
    (∀ p ∈ info.parts family, c.Finds record p) ∧ Node.LeadsBackAll c family record fallback
  | .chain branches key _ =>
    ∃ merged, c.Finds record (key, .merge merged) ∧ Branch.LeadsBackAll c family merged branches
  | .loop info children =>
    ∃ inner, c.Finds record
        (info.key, .loop info.source info.item info.index info.depth inner) ∧
      Node.LeadsBackAll c family inner children
  | .comment .. => True

/-- Every key in nodes leads back to what it was given to. -/
def Node.LeadsBackAll (c : BindingContext) (family : Family) (record : Record) :
    List Node → Prop
  | [] => True
  | n :: rest => n.LeadsBack c family record ∧ Node.LeadsBackAll c family record rest

/-- Every key in branches leads back to what it was given to. The condition of a branch is in the
record of that branch. -/
def Branch.LeadsBackAll (c : BindingContext) (family : Family) :
    List MergeBranch → List Branch → Prop
  | [], [] => True
  | .mk condition key record :: merged, .mk info children :: rest =>
    condition = info.condition ∧ key = info.key ∧ (∀ p ∈ info.parts, c.Finds record p) ∧
      Node.LeadsBackAll c family record children ∧ Branch.LeadsBackAll c family merged rest
  | _, _ => False

end

section LeadsBack

variable {c : BindingContext} {family : Family}

mutual

/-- If all parts of all scopes are found, every key leads back. -/
theorem Node.leadsBack {record : Record} (n : Node)
    (hn : ∀ p ∈ n.parts family, c.Finds record p)
    (hs : ∀ ps ∈ n.scopes family, ∀ p ∈ ps, c.Finds (Record.ofParts ps) p) :
    n.LeadsBack c family record := by
  match n with
  | .element info children =>
    refine ⟨fun p hp => hn p (List.mem_append_left _ hp), ?_⟩
    exact Node.leadsBackAll children (fun p hp => hn p (List.mem_append_right _ hp)) hs
  | .text .. => trivial
  | .interpolation e key l => exact hn _ List.mem_cons_self
  | .slot info fallback =>
    refine ⟨fun p hp => hn p (List.mem_append_left _ hp), ?_⟩
    exact Node.leadsBackAll fallback (fun p hp => hn p (List.mem_append_right _ hp)) hs
  | .chain branches key l =>
    exact ⟨_, hn _ List.mem_cons_self, Branch.leadsBackAll branches hs⟩
  | .loop info children =>
    refine ⟨_, hn _ List.mem_cons_self, ?_⟩
    exact Node.leadsBackAll children (hs _ List.mem_cons_self)
      fun ps hp => hs ps (List.mem_cons_of_mem _ hp)
  | .comment .. => trivial

theorem Node.leadsBackAll {record : Record} (ns : List Node)
    (hn : ∀ p ∈ Node.partsAll family ns, c.Finds record p)
    (hs : ∀ ps ∈ Node.scopesAll family ns, ∀ p ∈ ps, c.Finds (Record.ofParts ps) p) :
    Node.LeadsBackAll c family record ns := by
  match ns with
  | [] => trivial
  | n :: rest =>
    exact ⟨Node.leadsBack n (fun p hp => hn p (List.mem_append_left _ hp))
        fun ps hp => hs ps (List.mem_append_left _ hp),
      Node.leadsBackAll rest (fun p hp => hn p (List.mem_append_right _ hp))
        fun ps hp => hs ps (List.mem_append_right _ hp)⟩

theorem Branch.leadsBackAll (bs : List Branch)
    (hs : ∀ ps ∈ Branch.scopesAll family bs, ∀ p ∈ ps, c.Finds (Record.ofParts ps) p) :
    Branch.LeadsBackAll c family (Branch.mergedAll family bs) bs := by
  match bs with
  | [] => trivial
  | .mk info children :: rest =>
    have hb := hs _ (List.mem_append_left _ List.mem_cons_self)
    refine ⟨rfl, rfl, fun p hp => hb p (List.mem_append_left _ hp), ?_, ?_⟩
    · exact Node.leadsBackAll children (fun p hp => hb p (List.mem_append_right _ hp))
        fun ps hp => hs ps (List.mem_append_left _ (List.mem_cons_of_mem _ hp))
    · exact Branch.leadsBackAll rest fun ps hp => hs ps (List.mem_append_right _ hp)

end

end LeadsBack

/-! ## Nothing but keys changes -/

theorem extractDirectives_strip (ds : List Directive) (a : Allocation) :
    (extractDirectives ds a).1.1.map Directive.strip = ds.map Directive.strip := by
  induction ds generalizing a with
  | nil => rfl
  | cons d ds ih =>
    cases d with
    | structural s l => exact congrArg (_ :: ·) (ih a)
    | unsupported name value l => exact congrArg (_ :: ·) (ih a)
    | binding b =>
      by_cases hb : b.kind = .event
      · rw [extractDirectives_event hb]
        exact congrArg (_ :: ·) (ih a)
      · rw [extractDirectives_bound hb]
        exact congrArg (_ :: ·) (ih _)

theorem extractSlot_keys (capabilities : Capabilities) (slot : SlotInfo) (a : Allocation) :
    ∃ keys, (extractSlot capabilities slot a).1.1 = { slot with keys } := by
  obtain ⟨family, introspects, localKeys, default⟩ := capabilities
  rcases Option.eq_none_or_eq_some slot.resolution with hr | ⟨r, hr⟩
  · exact ⟨slot.keys, by rw [extractSlot_unresolved hr]⟩
  · cases family with
    | calls =>
      rw [extractSlot_calls hr]
      exact ⟨_, rfl⟩
    | markup =>
      obtain ⟨keys, hs, -⟩ := extractIdentity_extracts hr a
      rw [extractSlot_markup hr]
      dsimp only
      rw [hs]
      split
      · exact ⟨_, rfl⟩
      · exact ⟨keys, hs⟩

mutual

theorem Node.extract_strip (capabilities : Capabilities) (n : Node) (a : Allocation) :
    (n.extract capabilities a).1.1.strip SlotInfo.unkeyed = n.strip SlotInfo.unkeyed := by
  match n with
  | .element info children =>
    rw [Node.extract]
    show Node.element { info with
        directives := (extractDirectives info.directives a).1.1.map Directive.strip }
      (Node.stripAll SlotInfo.unkeyed (Node.extractAll capabilities children _).1.1) = _
    rw [extractDirectives_strip, Node.extractAll_strip, Node.strip]
  | .text value location =>
    rw [Node.extract]
    rfl
  | .interpolation e key location =>
    rw [Node.extract]
    rfl
  | .slot info fallback =>
    rw [Node.extract]
    obtain ⟨keys, hk⟩ := extractSlot_keys capabilities info a
    show (Node.slot (extractSlot capabilities info a).1.1
      (Node.extractAll capabilities fallback _).1.1).strip SlotInfo.unkeyed = _
    rw [hk, Node.strip, Node.extractAll_strip, Node.strip]
    rfl
  | .chain branches key location =>
    rw [Node.extract]
    show Node.chain (Branch.stripAll SlotInfo.unkeyed (Branch.extractAll capabilities branches _).1.1) none location
      = _
    rw [Branch.extractAll_strip, Node.strip]
  | .loop info children =>
    by_cases hl : capabilities.localKeys = true
    · rw [Node.extract_loop_local hl, Node.strip, Node.extractAll_strip, Node.strip]
    · rw [Node.extract_loop_shared hl, Node.strip, Node.extractAll_strip, Node.strip]
  | .comment value location =>
    rw [Node.extract]
    rfl

/-- Extraction changes nothing but keys. -/
theorem Node.extractAll_strip (capabilities : Capabilities) (ns : List Node) (a : Allocation) :
    Node.stripAll SlotInfo.unkeyed (Node.extractAll capabilities ns a).1.1 =
      Node.stripAll SlotInfo.unkeyed ns := by
  match ns with
  | [] => rfl
  | n :: rest =>
    rw [Node.extractAll]
    show (n.extract capabilities a).1.1.strip SlotInfo.unkeyed ::
      Node.stripAll SlotInfo.unkeyed (Node.extractAll capabilities rest _).1.1 = _
    rw [Node.extract_strip, Node.extractAll_strip, Node.stripAll]

theorem Branch.extractAll_strip (capabilities : Capabilities) (bs : List Branch) (a : Allocation) :
    Branch.stripAll SlotInfo.unkeyed (Branch.extractAll capabilities bs a).1.1 =
      Branch.stripAll SlotInfo.unkeyed bs := by
  match bs with
  | [] => rfl
  | .mk info children :: rest =>
    rw [Branch.extractAll_cons, Branch.stripAll, Node.extractAll_strip, Branch.extractAll_strip,
      Branch.stripAll]

end

/-! ## The whole template -/

section Extracted

variable (capabilities : Capabilities) (nodes : List Node)

theorem Template.extract_localKeys :
    (Template.extract capabilities nodes).2.localKeys = capabilities.localKeys := rfl

/-- The record of the template is the one of its parts. -/
theorem Template.extract_root :
    (Template.extract capabilities nodes).2.root =
      Record.ofParts
        (Node.partsAll capabilities.family (Template.extract capabilities nodes).1) :=
  (Node.extractAll_extracts capabilities nodes {}).record_eq

theorem Template.extract_firstKeys :
    FirstKeys (Node.numberedAll capabilities (Template.extract capabilities nodes).1) :=
  (Node.extractAll_extracts capabilities nodes {}).firstKeys rfl

theorem Template.extract_restarts (hl : capabilities.localKeys = true) :
    Restarts capabilities (Node.withinAll (Template.extract capabilities nodes).1) :=
  Node.extractAll_restarts hl nodes {}

theorem Template.extract_increasing :
    Increasing (Node.numberedAll capabilities (Template.extract capabilities nodes).1) :=
  .of_firstKeys (Template.extract_firstKeys capabilities nodes)

theorem Template.extract_ordered (hl : capabilities.localKeys = true) :
    Ordered capabilities
      (Node.numberedAll capabilities (Template.extract capabilities nodes).1)
      (Node.withinAll (Template.extract capabilities nodes).1) := by
  refine ⟨Template.extract_increasing capabilities nodes, fun info children hm => ?_⟩
  exact .of_firstKeys (Template.extract_restarts capabilities nodes hl info children hm)

/-- The keys of every branch and of every loop are in the order of the text. -/
theorem Template.extract_scopes :
    ∀ ps ∈ Node.scopesAll capabilities.family (Template.extract capabilities nodes).1,
      Increasing ps := by
  by_cases hl : capabilities.localKeys = true
  · exact Node.scopesAll_increasing _ (Template.extract_ordered capabilities nodes hl)
  · intro ps hp
    exact (Template.extract_increasing capabilities nodes).sublist
      (Node.scopesAll_sublist hl _ ps hp)

/-- The entries of every record are in the order of the text. -/
theorem Template.extract_inOrder :
    ∀ record ∈ (Template.extract capabilities nodes).2.records, record.InOrder := by
  intro record hr
  rw [BindingContext.records, Template.extract_root] at hr
  rcases List.mem_cons.mp hr with rfl | hr
  · exact ((Template.extract_increasing capabilities nodes).sublist
      (Node.partsAll_sublist capabilities _)).inOrder
  · obtain ⟨ps, hp, rfl⟩ := List.mem_map.mp (Node.nested_partsAll _ _ hr)
    exact (Template.extract_scopes capabilities nodes ps hp).inOrder

/-- The parts of a scope are found, if they are in the order of their keys and numbered together
with the whole template or in their own record. -/
theorem Template.extract_finds {ps : List Part} (hi : Increasing ps)
    (hs : ¬capabilities.localKeys = true →
      ps.Sublist (Node.numberedAll capabilities (Template.extract capabilities nodes).1)) :
    ∀ p ∈ ps, (Template.extract capabilities nodes).2.Finds (Record.ofParts ps) p := by
  intro p hp
  by_cases hl : capabilities.localKeys = true
  · obtain ⟨key, hk, hg⟩ := hi.get?_ofParts hp
    refine ⟨key, hk, ?_⟩
    rw [BindingContext.lookup, Template.extract_localKeys, if_pos hl]
    exact hg
  · have hu := Template.extract_increasing capabilities nodes
    obtain ⟨key, hk, hg⟩ := hu.get?_ofParts ((hs hl).subset hp)
    refine ⟨key, hk, ?_⟩
    rw [BindingContext.lookup, BindingContext.thunk?, Template.extract_localKeys, if_neg hl,
      if_neg hl, Record.find?_eq_get?_flat, Template.extract_root,
      Node.flat_partsAll hl _ hu.keyed]
    exact hg

theorem Template.extract_leadsBackAll :
    Node.LeadsBackAll (Template.extract capabilities nodes).2 capabilities.family
      (Template.extract capabilities nodes).2.root (Template.extract capabilities nodes).1 := by
  have hs := Node.partsAll_sublist capabilities (Template.extract capabilities nodes).1
  have hi := (Template.extract_increasing capabilities nodes).sublist hs
  refine Node.leadsBackAll _ ?_ fun ps hp => ?_
  · rw [Template.extract_root]
    exact Template.extract_finds capabilities nodes hi fun _ => hs
  · exact Template.extract_finds capabilities nodes
      (Template.extract_scopes capabilities nodes ps hp) fun hl =>
        Node.scopesAll_sublist hl _ ps hp

end Extracted

theorem Extract.freshKeys_nodup (n : Nat) (a : Allocation) : (freshKeys n a).1.Nodup := by
  rw [freshKeys_eq]
  exact Key.nodup_map_number _ _

/-- **Keys lead back.** Extraction changes nothing but keys. The keys that it writes into the tree
are, in the order of the text, the ones a fresh allocator gives out first, and those never repeat;
where keys are numbered anew in loops, this holds in every loop as well. The entries of every record
are in the order of the allocator, and every key leads back to what it was given to. -/
theorem Template.extract_leadsBack (family : Family) (nodes : List Node) :
    let capabilities := family.capabilities
    let (annotated, context) := Template.extract capabilities nodes
    Node.stripAll SlotInfo.unkeyed annotated = Node.stripAll SlotInfo.unkeyed nodes ∧
      FirstKeys (Node.numberedAll capabilities annotated) ∧
      (family = .markup → ∀ info children, Node.loop info children ∈ Node.withinAll annotated →
        FirstKeys (Node.numberedAll capabilities children)) ∧
      (∀ n, ((freshKeys n).run {}).1.Nodup) ∧
      (∀ record ∈ context.records, record.InOrder) ∧
      Node.LeadsBackAll context family context.root annotated := by
  have hf : family.capabilities.family = family := by cases family <;> rfl
  have hl := Template.extract_leadsBackAll family.capabilities nodes
  rw [hf] at hl
  refine ⟨Node.extractAll_strip _ nodes {}, Template.extract_firstKeys _ nodes, ?_,
    fun n => freshKeys_nodup n {}, Template.extract_inOrder _ nodes, ?_⟩
  · rintro rfl
    exact Template.extract_restarts _ nodes rfl
  · exact hl

end UiTemplate
