import UiTemplate.Proofs.Binding.Extraction
import UiTemplate.Proofs.Outlet.Resolve
import UiTemplate.Proofs.Template.Neutral

/-!
# Records up to keys

Two families number the bound values of one template differently.

- `Record.Renamed`: two records have the same entries in the same order, in every record inside them
  as well, under keys that one renaming a record takes to each other.
- `Node.extractAll_renamed`: the records of a tree without slots are the same up to such a renaming,
  whatever the capabilities.
- `Node.extractAll_neutral`, `Node.resolveSlotsAll_of_noSlot`: what is extracted does not hang on the
  platform, nor on the resolution of slots if there are none.
-/

namespace UiTemplate

/-! ## Renamings -/

/-- The key that a record has in the place of a key of another one. -/
def Record.rename (r r' : Record) (key : Key) : Key :=
  (((r.map Prod.fst).zip (r'.map Prod.fst)).lookup key).getD key

mutual

/-- Two bound values that are computed alike, up to the keys inside them. -/
inductive Thunk.Renamed : Thunk → Thunk → Prop where
  | leaf {t : Thunk} : t.isLeaf = true → Thunk.Renamed t t
  | loop {source : Expression} {item : String} {index : Option String} {depth : Nat}
      {r r' : List (Key × Thunk)} :
      Record.Renamed r r' →
      Thunk.Renamed (.loop source item index depth r) (.loop source item index depth r')
  | merge {bs bs' : List MergeBranch} :
      MergeBranch.RenamedAll bs bs' → Thunk.Renamed (.merge bs) (.merge bs')

/-- Two records with the same entries in the same order. The keys of each are all different, and a
renaming takes them to each other and keeps them apart. -/
inductive Record.Renamed : List (Key × Thunk) → List (Key × Thunk) → Prop where
  | mk {r r' : List (Key × Thunk)} :
      (r.map Prod.fst).Nodup → (r'.map Prod.fst).Nodup →
      (r.map Prod.fst).map (Record.rename r r') = r'.map Prod.fst →
      (∀ k ∈ r.map Prod.fst, ∀ l ∈ r.map Prod.fst,
        Record.rename r r' k = Record.rename r r' l → k = l) →
      Record.EntriesRenamed r r' → Record.Renamed r r'

/-- The bound values of two records are, place by place, computed alike. -/
inductive Record.EntriesRenamed : List (Key × Thunk) → List (Key × Thunk) → Prop where
  | nil : Record.EntriesRenamed [] []
  | cons {k k' : Key} {t t' : Thunk} {r r' : List (Key × Thunk)} :
      Thunk.Renamed t t' → Record.EntriesRenamed r r' →
      Record.EntriesRenamed ((k, t) :: r) ((k', t') :: r')

/-- Two chains with the same branches up to keys; the key of a condition goes with those of the
record it is in. -/
inductive MergeBranch.RenamedAll : List MergeBranch → List MergeBranch → Prop where
  | nil : MergeBranch.RenamedAll [] []
  | cons {condition : Option Expression} {key : Option Key} {r r' : List (Key × Thunk)}
      {bs bs' : List MergeBranch} :
      Record.Renamed r r' → MergeBranch.RenamedAll bs bs' →
      MergeBranch.RenamedAll (.mk condition key r :: bs)
        (.mk condition (key.map (Record.rename r r')) r' :: bs')

end

namespace Record

/-- Every record inside has keys that are all different. -/
def Distinct (r : Record) : Prop :=
  ∀ inner ∈ Record.nested r, (inner.map Prod.fst).Nodup

theorem Distinct.append {r r' : Record} :
    Distinct (r ++ r') ↔ Distinct r ∧ Distinct r' := by
  rw [Distinct, nested_append]
  exact List.forall_mem_append

theorem EntriesRenamed.length_eq {r r' : Record} (h : EntriesRenamed r r') :
    r.length = r'.length := by
  induction r generalizing r' with
  | nil =>
    cases h
    rfl
  | cons entry r ih =>
    cases h with
    | cons _ hr => simp [ih hr]

theorem EntriesRenamed.append {r r' s s' : Record} (h : EntriesRenamed r r')
    (hs : EntriesRenamed s s') : EntriesRenamed (r ++ s) (r' ++ s') := by
  induction r generalizing r' with
  | nil =>
    cases h
    exact hs
  | cons entry r ih =>
    cases h with
    | cons ht hr => exact .cons ht (ih hr)

theorem map_lookup_zip {keys keys' : List Key} (hn : keys.Nodup)
    (hl : keys.length = keys'.length) :
    keys.map (fun k => ((keys.zip keys').lookup k).getD k) = keys' := by
  induction keys generalizing keys' with
  | nil =>
    cases keys' with
    | nil => rfl
    | cons => cases hl
  | cons k keys ih =>
    cases keys' with
    | nil => cases hl
    | cons k' keys' =>
      obtain ⟨hk, hn⟩ := List.nodup_cons.mp hn
      have hrest : keys.map (fun l => (((k :: keys).zip (k' :: keys')).lookup l).getD l) =
          keys.map fun l => ((keys.zip keys').lookup l).getD l := by
        refine List.map_congr_left fun l hl' => ?_
        have hne : ¬l = k := fun he => hk (he ▸ hl')
        have hbeq : (l == k) = false := by simpa using hne
        rw [List.zip_cons_cons, List.lookup_cons, hbeq]
      rw [List.map_cons, hrest, ih hn (by simpa using hl)]
      simp

/-- The first key of a record goes to the first one of the other. -/
theorem rename_head (k k' : Key) (t t' : Thunk) (r r' : Record) :
    rename ((k, t) :: r) ((k', t') :: r') k = k' := by
  simp [rename]

/-- Records whose keys are all different are the same up to keys if they are so place by place. -/
theorem EntriesRenamed.renamed {r r' : Record} (h : EntriesRenamed r r')
    (hn : (r.map Prod.fst).Nodup) (hn' : (r'.map Prod.fst).Nodup) : Renamed r r' := by
  have hkeys : (r.map Prod.fst).map (rename r r') = r'.map Prod.fst :=
    map_lookup_zip hn (by simp [h.length_eq])
  refine .mk hn hn' hkeys (fun k hk l hl he => ?_) h
  exact List.inj_on_of_nodup_map (hkeys ▸ hn') hk hl he

end Record

/-! ## Extraction -/

/-- Whether the node is a slot. -/
def Node.isSlot : Node → Bool
  | .slot .. => true
  | _ => false

/-- No slot is among the nodes or below them. -/
def Node.NoSlots (ns : List Node) : Prop :=
  ∀ n ∈ Node.withinAll ns, n.isSlot = false

theorem extractDirectives_renamed (ds : List Directive) (a a' : Allocation) :
    Record.EntriesRenamed (extractDirectives ds a).1.2 (extractDirectives ds a').1.2 := by
  induction ds generalizing a a' with
  | nil => exact .nil
  | cons d ds ih =>
    cases d with
    | structural s l => exact ih a a'
    | unsupported name value l => exact ih a a'
    | binding b =>
      by_cases hb : b.kind = .event
      · rw [extractDirectives_event hb, extractDirectives_event hb]
        exact ih a a'
      · rw [extractDirectives_bound hb, extractDirectives_bound hb]
        exact .cons (.leaf rfl) (ih _ _)

/-- The nodes of a loop are extracted from some allocation on. -/
theorem Node.extract_loop (capabilities : Capabilities) (info : LoopInfo) (children : List Node)
    (a : Allocation) :
    ∃ inner, (Node.extract capabilities (.loop info children) a).1.2 =
      [(Key.number a.next, .loop info.source info.item info.index info.depth
        (Node.extractAll capabilities children inner).1.2)] := by
  by_cases hl : capabilities.localKeys = true
  · exact ⟨_, congrArg (fun x => x.1.2) (Node.extract_loop_local hl info children a)⟩
  · exact ⟨_, congrArg (fun x => x.1.2) (Node.extract_loop_shared hl info children a)⟩

section Renamed

variable (c c' : Capabilities)

mutual

theorem Node.extract_renamed (n : Node) (a a' : Allocation)
    (hs : ∀ m ∈ n.within, m.isSlot = false) (hd : Record.Distinct (n.extract c a).1.2)
    (hd' : Record.Distinct (n.extract c' a').1.2) :
    Record.EntriesRenamed (n.extract c a).1.2 (n.extract c' a').1.2 := by
  match n with
  | .element info children =>
    rw [Node.extract] at hd hd'
    rw [Node.extract, Node.extract]
    have hc := Node.extractAll_renamed children _ _ (List.forall_mem_cons.mp hs).2
      (Record.Distinct.append.mp hd).2 (Record.Distinct.append.mp hd').2
    exact (extractDirectives_renamed info.directives a a').append hc
  | .text value location =>
    rw [Node.extract, Node.extract]
    exact .nil
  | .interpolation e key location =>
    rw [Node.extract, Node.extract]
    exact .cons (.leaf rfl) .nil
  | .slot info fallback => cases (List.forall_mem_cons.mp hs).1
  | .chain branches key location =>
    rw [Node.extract] at hd hd'
    rw [Node.extract, Node.extract]
    refine .cons (.merge (Branch.extractAll_renamed branches _ _ (List.forall_mem_cons.mp hs).2
      (fun r hr => hd r (List.mem_append_left _ hr)) fun r hr => hd' r (List.mem_append_left _ hr)))
      .nil
  | .loop info children =>
    obtain ⟨inner, hr⟩ := Node.extract_loop c info children a
    obtain ⟨inner', hr'⟩ := Node.extract_loop c' info children a'
    rw [hr] at hd
    rw [hr'] at hd'
    rw [hr, hr']
    have hc := Node.extractAll_renamed children inner inner' (List.forall_mem_cons.mp hs).2
      (fun r hr => hd r (List.mem_append_left _ (List.mem_cons_of_mem _ hr)))
      fun r hr => hd' r (List.mem_append_left _ (List.mem_cons_of_mem _ hr))
    exact .cons (.loop (hc.renamed (hd _ List.mem_cons_self) (hd' _ List.mem_cons_self))) .nil
  | .comment value location =>
    rw [Node.extract, Node.extract]
    exact .nil

/-- The records of a tree without slots are the same, place by place. -/
theorem Node.extractAll_renamed (ns : List Node) (a a' : Allocation) (hs : Node.NoSlots ns)
    (hd : Record.Distinct (Node.extractAll c ns a).1.2)
    (hd' : Record.Distinct (Node.extractAll c' ns a').1.2) :
    Record.EntriesRenamed (Node.extractAll c ns a).1.2 (Node.extractAll c' ns a').1.2 := by
  match ns with
  | [] => exact .nil
  | n :: rest =>
    obtain ⟨hn, hrest⟩ := List.forall_mem_append.mp hs
    rw [Node.extractAll] at hd hd'
    rw [Node.extractAll, Node.extractAll]
    obtain ⟨hdn, hdr⟩ := Record.Distinct.append.mp hd
    obtain ⟨hdn', hdr'⟩ := Record.Distinct.append.mp hd'
    exact (Node.extract_renamed n a a' hn hdn hdn').append
      (Node.extractAll_renamed rest _ _ hrest hdr hdr')

theorem Branch.extractAll_renamed (bs : List Branch) (a a' : Allocation)
    (hs : ∀ m ∈ Branch.withinAll bs, m.isSlot = false)
    (hd : ∀ r ∈ MergeBranch.nested (Branch.extractAll c bs a).1.2, (r.map Prod.fst).Nodup)
    (hd' : ∀ r ∈ MergeBranch.nested (Branch.extractAll c' bs a').1.2, (r.map Prod.fst).Nodup) :
    MergeBranch.RenamedAll (Branch.extractAll c bs a).1.2 (Branch.extractAll c' bs a').1.2 := by
  match bs with
  | [] => exact .nil
  | .mk info children :: rest =>
    obtain ⟨hc, hrest⟩ := List.forall_mem_append.mp hs
    rw [Branch.extractAll_cons] at hd hd'
    rw [Branch.extractAll_cons, Branch.extractAll_cons]
    obtain ⟨hown, hmore⟩ := List.forall_mem_append.mp hd
    obtain ⟨hown', hmore'⟩ := List.forall_mem_append.mp hd'
    obtain ⟨hkeys, hin⟩ := List.forall_mem_cons.mp hown
    obtain ⟨hkeys', hin'⟩ := List.forall_mem_cons.mp hown'
    have hbody := Node.extractAll_renamed children _ _ hc (Record.Distinct.append.mp hin).2
      (Record.Distinct.append.mp hin').2
    have hbranches := Branch.extractAll_renamed rest _ _ hrest hmore hmore'
    cases hcond : info.condition with
    | none =>
      simp only [hcond] at hkeys hkeys' hbody hbranches ⊢
      exact .cons (hbody.renamed hkeys hkeys') hbranches
    | some e =>
      simp only [hcond] at hkeys hkeys' hbody hbranches ⊢
      have hrecord := (Record.EntriesRenamed.cons (.leaf rfl) hbody).renamed hkeys hkeys'
      have hbranch : MergeBranch.RenamedAll (.mk (some e) (some (Key.number a.next)) _ :: _)
          (.mk (some e) ((some (Key.number a.next)).map _) _ :: _) := .cons hrecord hbranches
      rw [Option.map_some, Record.rename_head] at hbranch
      exact hbranch

end

end Renamed

/-! ## What extraction does not hang on -/

section Neutral

variable (c : Capabilities)

theorem Extract.inLoop_map {α β : Type} (f : α → β) (step : Extract α) :
    Extract.inLoop c (f <$> step) = f <$> Extract.inLoop c step := by
  unfold Extract.inLoop
  split <;> simp

mutual

theorem Node.extract_neutral (n : Node) :
    n.neutral.extract c = (fun p => (p.1.neutral, p.2)) <$> n.extract c := by
  match n with
  | .element info children =>
    simp [Node.neutral, Node.extract, Node.extractAll_neutral children, ElementInfo.neutral]
  | .text value location => simp [Node.neutral, Node.extract]
  | .interpolation e key location => simp [Node.neutral, Node.extract]
  | .slot info fallback =>
    simp [Node.neutral, Node.extract, Node.extractAll_neutral fallback]
  | .chain branches key location =>
    simp [Node.neutral, Node.extract, Branch.extractAll_neutral branches]
  | .loop info children =>
    simp [Node.neutral, Node.extract, Node.extractAll_neutral children, Extract.inLoop_map]
  | .comment value location => simp [Node.neutral, Node.extract]

theorem Node.extractAll_neutral (ns : List Node) :
    Node.extractAll c (Node.neutralAll ns) =
      (fun p => (Node.neutralAll p.1, p.2)) <$> Node.extractAll c ns := by
  match ns with
  | [] => simp [Node.neutralAll, Node.extractAll]
  | n :: rest =>
    simp [Node.neutralAll, Node.extractAll, Node.extract_neutral n, Node.extractAll_neutral rest]

theorem Branch.extractAll_neutral (bs : List Branch) :
    Branch.extractAll c (Branch.neutralAll bs) =
      (fun p => (Branch.neutralAll p.1, p.2)) <$> Branch.extractAll c bs := by
  match bs with
  | [] => simp [Branch.neutralAll, Branch.extractAll]
  | .mk info children :: rest =>
    simp [Branch.neutralAll, Branch.extractAll, Node.extractAll_neutral children,
      Branch.extractAll_neutral rest]

end

/-- The record of a tree does not hang on what the platform decides. -/
theorem Node.extractAll_record_eq {ns ns' : List Node}
    (h : Node.neutralAll ns = Node.neutralAll ns') (a : Allocation) :
    (Node.extractAll c ns a).1.2 = (Node.extractAll c ns' a).1.2 := by
  have hx := congrFun (Node.extractAll_neutral c ns) a
  rw [h, Node.extractAll_neutral c ns'] at hx
  exact (congrArg (fun x => x.1.2) hx).symm

mutual

theorem Node.resolveSlots_of_noSlot (loops : List Nat) (branch : Option Nat) (n : Node)
    (hs : ∀ m ∈ n.within, m.isSlot = false) : n.resolveSlots c loops branch = n := by
  match n with
  | .element info children =>
    rw [Node.resolveSlots, Node.resolveSlotsAll_of_noSlot loops branch children
      (List.forall_mem_cons.mp hs).2]
  | .text .. => rfl
  | .interpolation .. => rfl
  | .slot .. => cases (List.forall_mem_cons.mp hs).1
  | .chain branches key l =>
    rw [Node.resolveSlots, Branch.resolveSlotsAll_of_noSlot loops 0 branches
      (List.forall_mem_cons.mp hs).2]
  | .loop info children =>
    rw [Node.resolveSlots, Node.resolveSlotsAll_of_noSlot _ branch children
      (List.forall_mem_cons.mp hs).2]
  | .comment .. => rfl

/-- Without slots there is nothing to resolve. -/
theorem Node.resolveSlotsAll_of_noSlot (loops : List Nat) (branch : Option Nat) (ns : List Node)
    (hs : Node.NoSlots ns) : Node.resolveSlotsAll c loops branch ns = ns := by
  match ns with
  | [] => rfl
  | n :: rest =>
    obtain ⟨hn, hrest⟩ := List.forall_mem_append.mp hs
    rw [Node.resolveSlotsAll, Node.resolveSlots_of_noSlot loops branch n hn,
      Node.resolveSlotsAll_of_noSlot loops branch rest hrest]

theorem Branch.resolveSlotsAll_of_noSlot (loops : List Nat) (index : Nat) (bs : List Branch)
    (hs : ∀ m ∈ Branch.withinAll bs, m.isSlot = false) :
    Branch.resolveSlotsAll c loops index bs = bs := by
  match bs with
  | [] => rfl
  | .mk info children :: rest =>
    obtain ⟨hc, hrest⟩ := List.forall_mem_append.mp hs
    rw [Branch.resolveSlotsAll, Node.resolveSlotsAll_of_noSlot loops _ children hc,
      Branch.resolveSlotsAll_of_noSlot loops (index + 1) rest hrest]

end

end Neutral

section NoSlots

mutual

theorem Node.isSlot_neutral (n : Node) :
    (∀ m ∈ n.neutral.within, m.isSlot = false) ↔ ∀ m ∈ n.within, m.isSlot = false := by
  match n with
  | .element info children =>
    rw [Node.neutral, Node.within, Node.within, List.forall_mem_cons, List.forall_mem_cons]
    exact and_congr Iff.rfl (Node.noSlots_neutral children)
  | .text .. => exact Iff.rfl
  | .interpolation .. => exact Iff.rfl
  | .slot info fallback =>
    rw [Node.neutral, Node.within, Node.within, List.forall_mem_cons, List.forall_mem_cons]
    exact and_congr Iff.rfl (Node.noSlots_neutral fallback)
  | .chain branches key l =>
    rw [Node.neutral, Node.within, Node.within, List.forall_mem_cons, List.forall_mem_cons]
    exact and_congr Iff.rfl (Branch.noSlots_neutral branches)
  | .loop info children =>
    rw [Node.neutral, Node.within, Node.within, List.forall_mem_cons, List.forall_mem_cons]
    exact and_congr Iff.rfl (Node.noSlots_neutral children)
  | .comment .. => exact Iff.rfl

/-- Slots do not hang on the platform. -/
theorem Node.noSlots_neutral (ns : List Node) :
    Node.NoSlots (Node.neutralAll ns) ↔ Node.NoSlots ns := by
  match ns with
  | [] => exact Iff.rfl
  | n :: rest =>
    unfold Node.NoSlots
    rw [Node.neutralAll, Node.withinAll, Node.withinAll, List.forall_mem_append,
      List.forall_mem_append]
    exact and_congr (Node.isSlot_neutral n) (Node.noSlots_neutral rest)

theorem Branch.noSlots_neutral (bs : List Branch) :
    (∀ m ∈ Branch.withinAll (Branch.neutralAll bs), m.isSlot = false) ↔
      ∀ m ∈ Branch.withinAll bs, m.isSlot = false := by
  match bs with
  | [] => exact Iff.rfl
  | .mk info children :: rest =>
    rw [Branch.neutralAll, Branch.withinAll, Branch.withinAll, List.forall_mem_append,
      List.forall_mem_append]
    exact and_congr (Node.noSlots_neutral children) (Branch.noSlots_neutral rest)

end

end NoSlots

/-! ## The whole template -/

theorem Record.InOrder.nodup {r : Record} (h : r.InOrder) : (r.map Prod.fst).Nodup := by
  obtain ⟨ns, hp, he⟩ := h
  rw [he]
  exact List.Nodup.map Key.number_injective (hp.imp Nat.ne_of_lt)

theorem Template.extract_distinct (c : Capabilities) (nodes : List Node) :
    ((Template.extract c nodes).2.root.map Prod.fst).Nodup ∧
      Record.Distinct (Template.extract c nodes).2.root :=
  List.forall_mem_cons.mp fun r hr => (Template.extract_inOrder c nodes r hr).nodup

/-- The bound values of trees that differ only in what the platform decides are, without slots, the
same up to keys. -/
theorem Template.extract_renamed (c c' : Capabilities) {nodes nodes' : List Node}
    (hs : Node.NoSlots nodes) (h : Node.neutralAll nodes = Node.neutralAll nodes') :
    Record.Renamed (Template.extract c nodes).2.root (Template.extract c' nodes').2.root := by
  have hroot : (Template.extract c' nodes').2.root = (Template.extract c' nodes).2.root :=
    Node.extractAll_record_eq c' h.symm {}
  obtain ⟨hn, hd⟩ := Template.extract_distinct c nodes
  obtain ⟨hn', hd'⟩ := Template.extract_distinct c' nodes
  rw [hroot]
  exact (Node.extractAll_renamed c c' nodes {} {} hs hd hd').renamed hn hn'

end UiTemplate
