import UiTemplate.Proofs.Binding.Numbering

/-!
# Keys lead back to what they are bound to

- `Increasing.get?_ofParts`: in a record whose keys are in the order of their numbers, every part is
  found under its key.
- `Node.scopesAll_increasing`: the keys of every scope of a tree are in that order.
- `Record.find?_eq_get?_flat`, `Node.flat_partsAll`: a look-up through all records of a template
  finds the parts that are numbered together.
-/

namespace UiTemplate

/-! ## Look-up in records -/

namespace Record

/-- The first of two records that has the key decides. -/
theorem get?_append (key : Key) (r r' : Record) :
    get? key (r ++ r') = (get? key r).or (get? key r') := by
  induction r with
  | nil => rfl
  | cons entry r ih =>
    obtain ⟨k, t⟩ := entry
    rw [List.cons_append, get?, get?, ih]
    split <;> rfl

/-- In a record without repeated keys every entry is found under its key. -/
theorem get?_of_mem {r : Record} {key : Key} {t : Thunk} (hn : (r.map Prod.fst).Nodup)
    (hm : (key, t) ∈ r) : get? key r = some t := by
  induction r with
  | nil => exact absurd hm List.not_mem_nil
  | cons entry r ih =>
    obtain ⟨k, u⟩ := entry
    rw [List.map_cons, List.nodup_cons] at hn
    rw [get?]
    rcases List.mem_cons.mp hm with h | h
    · cases h
      rw [if_pos rfl]
    · have hne : k ≠ key := by
        rintro rfl
        exact hn.1 (List.mem_map.mpr ⟨(_, t), h, rfl⟩)
      rw [if_neg hne]
      exact ih hn.2 h

end Record

mutual

/-- The entries of a record and of those inside it, each before the ones inside it. -/
def Record.flat : List (Key × Thunk) → Record
  | [] => []
  | (key, t) :: rest => (key, t) :: (t.flat ++ Record.flat rest)

/-- The entries of the records inside a bound value. -/
def Thunk.flat : Thunk → Record
  | .field _ => []
  | .display _ => []
  | .loop _ _ _ _ record => Record.flat record
  | .merge branches => MergeBranch.flat branches
  | .outletName .. => []
  | .outlet _ => []

/-- The entries of the records of branches. -/
def MergeBranch.flat : List MergeBranch → Record
  | [] => []
  | .mk _ _ record :: rest => Record.flat record ++ MergeBranch.flat rest

end

mutual

/-- A search through inner records is a look-up among all entries. -/
theorem Record.find?_eq_get?_flat (key : Key) (r : Record) :
    Record.find? key r = Record.get? key (Record.flat r) := by
  match r with
  | [] => rfl
  | (k, t) :: rest =>
    rw [Record.find?, Record.flat, Record.get?, Record.get?_append,
      Thunk.find?_eq_get?_flat key t, Record.find?_eq_get?_flat key rest]
    cases Record.get? key t.flat <;> rfl

/-- A key is looked up in a value as in the record of all that is in it. -/
theorem Thunk.find?_eq_get?_flat (key : Key) (t : Thunk) :
    Thunk.find? key t = Record.get? key t.flat := by
  match t with
  | .field _ => rfl
  | .display _ => rfl
  | .loop _ _ _ _ record => exact Record.find?_eq_get?_flat key record
  | .merge branches => exact MergeBranch.find?_eq_get?_flat key branches
  | .outletName .. => rfl
  | .outlet _ => rfl

theorem MergeBranch.find?_eq_get?_flat (key : Key) (bs : List MergeBranch) :
    MergeBranch.find? key bs = Record.get? key (MergeBranch.flat bs) := by
  match bs with
  | [] => rfl
  | .mk _ _ record :: rest =>
    rw [MergeBranch.find?, MergeBranch.flat, Record.get?_append,
      Record.find?_eq_get?_flat key record, MergeBranch.find?_eq_get?_flat key rest]
    cases Record.get? key (Record.flat record) <;> rfl

end

/-! ## Parts in the order of their keys -/

/-- Every part carries a key. -/
def Keyed (parts : List Part) : Prop :=
  ∀ p ∈ parts, ∃ key, p.1 = some key

section Keyed

variable {ps ps' : List Part}

theorem Keyed.left (h : Keyed (ps ++ ps')) : Keyed ps :=
  fun p hp => h p (List.mem_append_left _ hp)

theorem Keyed.right (h : Keyed (ps ++ ps')) : Keyed ps' :=
  fun p hp => h p (List.mem_append_right _ hp)

/-- The first of parts that have keys has one. -/
theorem Keyed.head {k : Option Key} {t : Thunk} (h : Keyed ((k, t) :: ps)) :
    ∃ key, k = some key :=
  h (k, t) List.mem_cons_self

theorem Keyed.tail {p : Part} (h : Keyed (p :: ps)) : Keyed ps :=
  fun q hq => h q (List.mem_cons_of_mem _ hq)

end Keyed

/-- The keys of parts are in the order in which an allocator gives them out. -/
def Increasing (parts : List Part) : Prop :=
  ∃ ns : List Nat, ns.Pairwise (· < ·) ∧ parts.map Prod.fst = ns.map fun n => some (Key.number n)

/-- The entries of a record are in the order in which an allocator gives out their keys. -/
def Record.InOrder (r : Record) : Prop :=
  ∃ ns : List Nat, ns.Pairwise (· < ·) ∧ r.map Prod.fst = ns.map Key.number

namespace Increasing

variable {ps ps' : List Part}

theorem sublist (h : Increasing ps) (hs : ps'.Sublist ps) : Increasing ps' := by
  obtain ⟨ns, hp, he⟩ := h
  have hm := hs.map Prod.fst
  rw [he] at hm
  obtain ⟨ns', hs', he'⟩ := List.sublist_map_iff.mp hm
  exact ⟨ns', hp.sublist hs', he'⟩

/-- Keys that are given out one after the other ascend. -/
theorem of_firstKeys (h : FirstKeys ps) : Increasing ps :=
  ⟨List.range ps.length, List.pairwise_lt_range, (firstKeys_iff ps).mp h⟩

theorem keyed (h : Increasing ps) : Keyed ps := by
  intro p hp
  obtain ⟨ns, -, he⟩ := h
  have hm : p.1 ∈ ps.map Prod.fst := List.mem_map_of_mem hp
  rw [he] at hm
  obtain ⟨n, -, hn⟩ := List.mem_map.mp hm
  exact ⟨Key.number n, hn.symm⟩

/-- Parts with ascending keys become a record in order. -/
theorem inOrder (h : Increasing ps) : (Record.ofParts ps).InOrder := by
  obtain ⟨ns, hp, he⟩ := h
  refine ⟨ns, hp, ?_⟩
  clear hp
  induction ps generalizing ns with
  | nil =>
    rw [List.map_nil] at he
    rw [List.map_eq_nil_iff.mp he.symm]
    rfl
  | cons p ps ih =>
    cases ns with
    | nil => cases he
    | cons n ns =>
      obtain ⟨k, t⟩ := p
      rw [List.map_cons, List.map_cons, List.cons.injEq] at he
      obtain ⟨hk, he⟩ := he
      cases hk
      rw [Record.ofParts_cons, List.map_cons, List.map_cons, ih ns he]

/-- Ascending keys are different. -/
theorem nodup (h : Increasing ps) : ((Record.ofParts ps).map Prod.fst).Nodup := by
  obtain ⟨ns, hp, he⟩ := h.inOrder
  rw [he]
  exact List.Nodup.map Key.number_injective (hp.imp Nat.ne_of_lt)

/-- A part is found under its key in the record of parts. -/
theorem get?_ofParts (h : Increasing ps) {p : Part} (hp : p ∈ ps) :
    ∃ key, p.1 = some key ∧ Record.get? key (Record.ofParts ps) = some p.2 := by
  obtain ⟨key, hk⟩ := h.keyed p hp
  refine ⟨key, hk, Record.get?_of_mem h.nodup ?_⟩
  exact List.mem_filterMap.mpr ⟨p, hp, by rw [hk]; rfl⟩

end Increasing

/-! ## Scopes of a tree -/

mutual

/-- The parts of each branch and of each loop in a node. -/
def Node.scopes (family : Family) : Node → List (List Part)
  | .element _ children => Node.scopesAll family children
  | .text .. => []
  | .interpolation .. => []
  | .slot _ fallback => Node.scopesAll family fallback
  | .chain branches _ _ => Branch.scopesAll family branches
  | .loop _ children => Node.partsAll family children :: Node.scopesAll family children
  | .comment .. => []

/-- The parts of each branch and of each loop in nodes. -/
def Node.scopesAll (family : Family) : List Node → List (List Part)
  | [] => []
  | n :: rest => n.scopes family ++ Node.scopesAll family rest

/-- The parts of branches, and of each branch and of each loop in them. -/
def Branch.scopesAll (family : Family) : List Branch → List (List Part)
  | [] => []
  | .mk info children :: rest =>
    (info.parts ++ Node.partsAll family children) :: Node.scopesAll family children ++
      Branch.scopesAll family rest

end

mutual

/-- The parts of a node are some of those that are numbered, in their order. -/
theorem Node.parts_sublist (capabilities : Capabilities) (n : Node) :
    (n.parts capabilities.family).Sublist (n.numbered capabilities) := by
  match n with
  | .element info children =>
    exact (List.Sublist.refl _).append (Node.partsAll_sublist capabilities children)
  | .text .. => exact .slnil
  | .interpolation .. => exact List.Sublist.refl _
  | .slot info fallback =>
    exact (List.Sublist.refl _).append (Node.partsAll_sublist capabilities fallback)
  | .chain .. => exact (List.nil_sublist _).cons_cons _
  | .loop .. => exact (List.nil_sublist _).cons_cons _
  | .comment .. => exact .slnil

theorem Node.partsAll_sublist (capabilities : Capabilities) (ns : List Node) :
    (Node.partsAll capabilities.family ns).Sublist (Node.numberedAll capabilities ns) := by
  match ns with
  | [] => exact .slnil
  | n :: rest =>
    exact (Node.parts_sublist capabilities n).append (Node.partsAll_sublist capabilities rest)

end

/-- The parts of nodes are in the order of their keys, and so are those of each loop in them. -/
structure Ordered (capabilities : Capabilities) (numbered : List Part) (within : List Node) :
    Prop where
  increasing : Increasing numbered
  loops : ∀ info children, Node.loop info children ∈ within →
    Increasing (Node.numberedAll capabilities children)

theorem Ordered.mono {capabilities : Capabilities} {ps ps' : List Part} {ns ns' : List Node}
    (h : Ordered capabilities ps ns) (hp : ps'.Sublist ps) (hn : ns' ⊆ ns) :
    Ordered capabilities ps' ns' :=
  ⟨h.increasing.sublist hp, fun info children hm => h.loops info children (hn hm)⟩

mutual

/-- In every scope the keys ascend. -/
theorem Node.scopes_increasing {capabilities : Capabilities} (n : Node)
    (h : Ordered capabilities (n.numbered capabilities) n.within) :
    ∀ ps ∈ n.scopes capabilities.family, Increasing ps := by
  match n with
  | .element info children =>
    exact Node.scopesAll_increasing children
      (h.mono (List.sublist_append_right _ _) (List.subset_cons_self _ _))
  | .text .. => exact fun ps hp => absurd hp List.not_mem_nil
  | .interpolation .. => exact fun ps hp => absurd hp List.not_mem_nil
  | .slot info fallback =>
    exact Node.scopesAll_increasing fallback
      (h.mono (List.sublist_append_right _ _) (List.subset_cons_self _ _))
  | .chain branches key location =>
    exact Branch.scopesAll_increasing branches
      (h.mono (List.sublist_cons_self _ _) (List.subset_cons_self _ _))
  | .loop info children =>
    have hc := h.loops info children List.mem_cons_self
    intro ps hp
    rcases List.mem_cons.mp hp with rfl | hp
    · exact hc.sublist (Node.partsAll_sublist capabilities children)
    · refine Node.scopesAll_increasing children ⟨hc, fun i c hm => ?_⟩ ps hp
      exact h.loops i c (List.mem_cons_of_mem _ hm)
  | .comment .. => exact fun ps hp => absurd hp List.not_mem_nil

theorem Node.scopesAll_increasing {capabilities : Capabilities} (ns : List Node)
    (h : Ordered capabilities (Node.numberedAll capabilities ns) (Node.withinAll ns)) :
    ∀ ps ∈ Node.scopesAll capabilities.family ns, Increasing ps := by
  match ns with
  | [] => exact fun ps hp => absurd hp List.not_mem_nil
  | n :: rest =>
    intro ps hp
    rcases List.mem_append.mp hp with hp | hp
    · exact Node.scopes_increasing n
        (h.mono (List.sublist_append_left _ _) (List.subset_append_left _ _)) ps hp
    · exact Node.scopesAll_increasing rest
        (h.mono (List.sublist_append_right _ _) (List.subset_append_right _ _)) ps hp

theorem Branch.scopesAll_increasing {capabilities : Capabilities} (bs : List Branch)
    (h : Ordered capabilities (Branch.numberedAll capabilities bs) (Branch.withinAll bs)) :
    ∀ ps ∈ Branch.scopesAll capabilities.family bs, Increasing ps := by
  match bs with
  | [] => exact fun ps hp => absurd hp List.not_mem_nil
  | .mk info children :: rest =>
    have hb := h.mono (List.sublist_append_left _ _) (List.subset_append_left _ _)
    intro ps hp
    rcases List.mem_append.mp hp with hp | hp
    · rcases List.mem_cons.mp hp with rfl | hp
      · exact hb.increasing.sublist
          ((List.Sublist.refl _).append (Node.partsAll_sublist capabilities children))
      · exact Node.scopesAll_increasing children
          (hb.mono (List.sublist_append_right _ _) (List.Subset.refl _)) ps hp
    · exact Branch.scopesAll_increasing rest
        (h.mono (List.sublist_append_right _ _) (List.subset_append_right _ _)) ps hp

end

/-! ## Where keys are shared -/

mutual

/-- Where loops do not number keys anew, the parts of each scope are among those numbered
together. -/
theorem Node.scopes_sublist {capabilities : Capabilities} (hl : ¬capabilities.localKeys = true)
    (n : Node) :
    ∀ ps ∈ n.scopes capabilities.family, ps.Sublist (n.numbered capabilities) := by
  match n with
  | .element info children =>
    intro ps hp
    exact (Node.scopesAll_sublist hl children ps hp).trans (List.sublist_append_right _ _)
  | .text .. => exact fun ps hp => absurd hp List.not_mem_nil
  | .interpolation .. => exact fun ps hp => absurd hp List.not_mem_nil
  | .slot info fallback =>
    intro ps hp
    exact (Node.scopesAll_sublist hl fallback ps hp).trans (List.sublist_append_right _ _)
  | .chain branches key location =>
    intro ps hp
    exact (Branch.scopesAll_sublist hl branches ps hp).cons _
  | .loop info children =>
    intro ps hp
    rw [Node.numbered, if_neg hl]
    rcases List.mem_cons.mp hp with rfl | hp
    · exact (Node.partsAll_sublist capabilities children).cons _
    · exact (Node.scopesAll_sublist hl children ps hp).cons _
  | .comment .. => exact fun ps hp => absurd hp List.not_mem_nil

/-- With keys for the whole template, every scope has some of them, in their order. -/
theorem Node.scopesAll_sublist {capabilities : Capabilities}
    (hl : ¬capabilities.localKeys = true) (ns : List Node) :
    ∀ ps ∈ Node.scopesAll capabilities.family ns,
      ps.Sublist (Node.numberedAll capabilities ns) := by
  match ns with
  | [] => exact fun ps hp => absurd hp List.not_mem_nil
  | n :: rest =>
    intro ps hp
    rcases List.mem_append.mp hp with hp | hp
    · exact (Node.scopes_sublist hl n ps hp).trans (List.sublist_append_left _ _)
    · exact (Node.scopesAll_sublist hl rest ps hp).trans (List.sublist_append_right _ _)

theorem Branch.scopesAll_sublist {capabilities : Capabilities}
    (hl : ¬capabilities.localKeys = true) (bs : List Branch) :
    ∀ ps ∈ Branch.scopesAll capabilities.family bs,
      ps.Sublist (Branch.numberedAll capabilities bs) := by
  match bs with
  | [] => exact fun ps hp => absurd hp List.not_mem_nil
  | .mk info children :: rest =>
    intro ps hp
    rcases List.mem_append.mp hp with hp | hp
    · refine List.Sublist.trans ?_ (List.sublist_append_left _ _)
      rcases List.mem_cons.mp hp with rfl | hp
      · exact (List.Sublist.refl _).append (Node.partsAll_sublist capabilities children)
      · exact (Node.scopesAll_sublist hl children ps hp).trans (List.sublist_append_right _ _)
    · exact (Branch.scopesAll_sublist hl rest ps hp).trans (List.sublist_append_right _ _)

end

/-- The parts that a node binds by itself. -/
def Node.ownParts (family : Family) : Node → List Part
  | .element info _ => directiveParts info.directives
  | .text .. => []
  | .interpolation expression key _ => [(key, .display expression)]
  | .slot info _ => info.parts family
  | .chain branches key _ => [(key, .merge (Branch.mergedAll family branches))]
  | .loop info children =>
    [(info.key, .loop info.source info.item info.index info.depth
      (Record.ofParts (Node.partsAll family children)))]
  | .comment .. => []

theorem Node.ownParts_subset_numbered (capabilities : Capabilities) (n : Node) :
    n.ownParts capabilities.family ⊆ n.numbered capabilities := by
  cases n with
  | element info children => exact List.subset_append_left _ _
  | slot info fallback => exact List.subset_append_left _ _
  | chain branches key l => exact List.cons_subset_cons _ (List.nil_subset _)
  | loop info children => exact List.cons_subset_cons _ (List.nil_subset _)
  | _ => exact List.Subset.refl _

section Own

variable {capabilities : Capabilities} {m : Node}

mutual

/-- Where loops do not number keys anew, the parts that any node binds are among those numbered
together. -/
theorem Node.ownParts_subset (hl : ¬capabilities.localKeys = true) (n : Node) (h : m ∈ n.within) :
    m.ownParts capabilities.family ⊆ n.numbered capabilities := by
  match n with
  | .element info children =>
    rcases List.mem_cons.mp h with rfl | h
    · exact Node.ownParts_subset_numbered ..
    · exact List.subset_append_of_subset_right _ (Node.ownParts_subset_all hl children h)
  | .text .. =>
    cases List.mem_singleton.mp h
    exact Node.ownParts_subset_numbered ..
  | .interpolation .. =>
    cases List.mem_singleton.mp h
    exact Node.ownParts_subset_numbered ..
  | .slot info fallback =>
    rcases List.mem_cons.mp h with rfl | h
    · exact Node.ownParts_subset_numbered ..
    · exact List.subset_append_of_subset_right _ (Node.ownParts_subset_all hl fallback h)
  | .chain branches key l =>
    rcases List.mem_cons.mp h with rfl | h
    · exact Node.ownParts_subset_numbered ..
    · exact List.subset_cons_of_subset _ (Branch.ownParts_subset_all hl branches h)
  | .loop info children =>
    rcases List.mem_cons.mp h with rfl | h
    · exact Node.ownParts_subset_numbered ..
    · rw [Node.numbered, if_neg hl]
      exact List.subset_cons_of_subset _ (Node.ownParts_subset_all hl children h)
  | .comment .. =>
    cases List.mem_singleton.mp h
    exact Node.ownParts_subset_numbered ..

/-- What is bound for a node is among all that is bound. -/
theorem Node.ownParts_subset_all (hl : ¬capabilities.localKeys = true) (ns : List Node)
    (h : m ∈ Node.withinAll ns) :
    m.ownParts capabilities.family ⊆ Node.numberedAll capabilities ns := by
  match ns with
  | [] => exact absurd h List.not_mem_nil
  | n :: rest =>
    rcases List.mem_append.mp h with h | h
    · exact List.subset_append_of_subset_left _ (Node.ownParts_subset hl n h)
    · exact List.subset_append_of_subset_right _ (Node.ownParts_subset_all hl rest h)

theorem Branch.ownParts_subset_all (hl : ¬capabilities.localKeys = true) (bs : List Branch)
    (h : m ∈ Branch.withinAll bs) :
    m.ownParts capabilities.family ⊆ Branch.numberedAll capabilities bs := by
  match bs with
  | [] => exact absurd h List.not_mem_nil
  | .mk info children :: rest =>
    rw [Branch.numberedAll]
    rcases List.mem_append.mp h with h | h
    · exact List.subset_append_of_subset_left _
        (List.subset_append_of_subset_right _ (Node.ownParts_subset_all hl children h))
    · exact List.subset_append_of_subset_right _ (Branch.ownParts_subset_all hl rest h)

end

end Own

theorem Record.flat_append (r r' : Record) :
    Record.flat (r ++ r') = Record.flat r ++ Record.flat r' := by
  induction r with
  | nil => rfl
  | cons entry r ih =>
    obtain ⟨k, t⟩ := entry
    rw [List.cons_append, Record.flat, Record.flat, ih, List.cons_append, List.append_assoc]

/-- Whether no record is inside a bound value. -/
def Thunk.isLeaf : Thunk → Bool
  | .loop .. => false
  | .merge .. => false
  | _ => true

/-- A value that computes no record has none in it. -/
theorem Thunk.flat_of_isLeaf {t : Thunk} (h : t.isLeaf) : t.flat = [] := by
  cases t with
  | loop => cases h
  | merge => cases h
  | _ => rfl

theorem Record.flat_ofParts {ps : List Part} (h : Keyed ps) (hf : ∀ p ∈ ps, p.2.isLeaf) :
    Record.flat (Record.ofParts ps) = Record.ofParts ps := by
  induction ps with
  | nil => rfl
  | cons p ps ih =>
    obtain ⟨k, t⟩ := p
    obtain ⟨key, rfl⟩ := h.head
    rw [Record.ofParts_cons, Record.flat, Thunk.flat_of_isLeaf (hf (some key, t) List.mem_cons_self),
      List.nil_append, ih h.tail fun q hq => hf q (List.mem_cons_of_mem _ hq)]

theorem directiveParts_isLeaf (ds : List Directive) : ∀ p ∈ directiveParts ds, p.2.isLeaf := by
  intro p hp
  obtain ⟨d, -, hd⟩ := List.mem_filterMap.mp hp
  cases d with
  | binding b =>
    rw [Directive.part?] at hd
    split at hd
    · cases hd
    · cases hd
      rfl
  | structural s l => cases hd
  | unsupported name value l => cases hd

theorem SlotInfo.parts_isLeaf (family : Family) (slot : SlotInfo) :
    ∀ p ∈ slot.parts family, p.2.isLeaf := by
  intro p hp
  rcases List.mem_append.mp hp with hp | hp
  · obtain ⟨t, ht, rfl⟩ := List.mem_map.mp hp
    rw [Option.mem_toList] at ht
    unfold SlotInfo.identity? at ht
    grind [Thunk.isLeaf]
  · obtain ⟨t, ht, rfl⟩ := List.mem_map.mp hp
    rw [Option.mem_toList] at ht
    unfold SlotInfo.outlet? at ht
    grind [Thunk.isLeaf]

theorem BranchInfo.parts_isLeaf (info : BranchInfo) : ∀ p ∈ info.parts, p.2.isLeaf := by
  intro p hp
  obtain ⟨e, -, rfl⟩ := List.mem_map.mp hp
  rfl

mutual

/-- Where loops do not number keys anew, the entries of a record and of those inside it are the
parts numbered together, in their order. -/
theorem Node.flat_parts {capabilities : Capabilities} (hl : ¬capabilities.localKeys = true)
    (n : Node) (h : Keyed (n.numbered capabilities)) :
    Record.flat (Record.ofParts (n.parts capabilities.family)) =
      Record.ofParts (n.numbered capabilities) := by
  match n with
  | .element info children =>
    rw [Node.parts, Node.numbered, Record.ofParts_append, Record.ofParts_append,
      Record.flat_append, Record.flat_ofParts h.left (directiveParts_isLeaf _),
      Node.flat_partsAll hl children h.right]
  | .text .. => rfl
  | .interpolation e key l =>
    exact Record.flat_ofParts h fun p hp => by rw [List.mem_singleton.mp hp]; rfl
  | .slot info fallback =>
    rw [Node.parts, Node.numbered, Record.ofParts_append, Record.ofParts_append,
      Record.flat_append, Record.flat_ofParts h.left (SlotInfo.parts_isLeaf _ _),
      Node.flat_partsAll hl fallback h.right]
  | .chain branches key l =>
    obtain ⟨key, rfl⟩ := h.head
    rw [Node.parts, Node.numbered, Record.ofParts_cons, Record.ofParts_cons, Record.flat,
      Thunk.flat, Branch.flat_mergedAll hl branches h.tail, Record.ofParts_nil, Record.flat,
      List.append_nil]
  | .loop info children =>
    rw [Node.numbered, if_neg hl] at h
    obtain ⟨key, hk⟩ := h.head
    rw [Node.parts, Node.numbered, if_neg hl, hk, Record.ofParts_cons, Record.ofParts_cons,
      Record.flat, Thunk.flat, Node.flat_partsAll hl children h.tail, Record.ofParts_nil,
      Record.flat, List.append_nil]
  | .comment .. => rfl

/-- All that is bound is found in the one record of the template. -/
theorem Node.flat_partsAll {capabilities : Capabilities} (hl : ¬capabilities.localKeys = true)
    (ns : List Node) (h : Keyed (Node.numberedAll capabilities ns)) :
    Record.flat (Record.ofParts (Node.partsAll capabilities.family ns)) =
      Record.ofParts (Node.numberedAll capabilities ns) := by
  match ns with
  | [] => rfl
  | n :: rest =>
    rw [Node.partsAll, Node.numberedAll, Record.ofParts_append, Record.ofParts_append,
      Record.flat_append, Node.flat_parts hl n h.left, Node.flat_partsAll hl rest h.right]

theorem Branch.flat_mergedAll {capabilities : Capabilities} (hl : ¬capabilities.localKeys = true)
    (bs : List Branch) (h : Keyed (Branch.numberedAll capabilities bs)) :
    MergeBranch.flat (Branch.mergedAll capabilities.family bs) =
      Record.ofParts (Branch.numberedAll capabilities bs) := by
  match bs with
  | [] => rfl
  | .mk info children :: rest =>
    rw [Branch.mergedAll, Branch.numberedAll, MergeBranch.flat, Record.ofParts_append,
      Record.ofParts_append, Record.ofParts_append, Record.flat_append,
      Record.flat_ofParts h.left.left (BranchInfo.parts_isLeaf _),
      Node.flat_partsAll hl children h.left.right, Branch.flat_mergedAll hl rest h.right]

end

end UiTemplate
