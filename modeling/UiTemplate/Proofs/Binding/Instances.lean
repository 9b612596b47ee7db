import UiTemplate.Proofs.Binding.Reading

/-!
# Instances of nodes

A node below loops and chains renders once for every combination of steps, in the branches that are
taken.

- `Occurs`: nodes render under given passes through loops; this says nothing of bound values.
- `Json.at?`: what a mapping has along the keys in the tree.
- `Occurs.holds`: wherever nodes render, the mapping has a record with the values of all their
  parts.
-/

namespace UiTemplate

/-- A step of a loop that is under way. -/
structure Pass where
  loop : LoopInfo
  step : Helper.Step

/-- The scope inside passes through loops, the outermost first. -/
def Scope.inside (context : Json) (passes : List Pass) : Scope :=
  passes.foldl (fun scope p => scope.atStep p.loop.item p.loop.index p.loop.depth p.step)
    (.ofContext context)

theorem Scope.inside_append (context : Json) (passes : List Pass) (p : Pass) :
    Scope.inside context (passes ++ [p]) =
      (Scope.inside context passes).atStep p.loop.item p.loop.index p.loop.depth p.step := by
  rw [Scope.inside, List.foldl_append]
  rfl

/-- A step from a record into one inside it: to the record of a chain, or to the one of a loop at a
position. -/
inductive Access where
  | scope (key : Option Key)
  | item (key : Option Key) (position : Nat)

namespace Json

/-- What a value has after one access. -/
def access? (v : Json) : Access → Option Json
  | .scope key => key.bind v.get?
  | .item key position =>
    match key.bind v.get? with
    | some (.arr items) => items[position]?
    | _ => none

/-- What a value has along accesses. -/
def at? (v : Json) (accesses : List Access) : Option Json :=
  accesses.foldlM access? v

theorem at?_append {v w : Json} {accesses : List Access} (h : v.at? accesses = some w)
    (a : Access) : v.at? (accesses ++ [a]) = w.access? a := by
  rw [at?] at h ⊢
  rw [List.foldlM_append, h]
  show (w.access? a).bind some = _
  cases w.access? a <;> rfl

end Json

/-- Siblings of a tree render over a context, inside the given passes; their record is reached by
the given accesses. -/
inductive Occurs (context : Json) (tree : List Node) :
    List Node → List Access → List Pass → Prop where
  | root : Occurs context tree tree [] []
  | element {ns children : List Node} {accesses : List Access} {passes : List Pass}
      {info : ElementInfo} (h : Occurs context tree ns accesses passes)
      (hn : .element info children ∈ ns) : Occurs context tree children accesses passes
  | fallback {ns fallback : List Node} {accesses : List Access} {passes : List Pass}
      {info : SlotInfo} (h : Occurs context tree ns accesses passes)
      (hn : .slot info fallback ∈ ns) : Occurs context tree fallback accesses passes
  | branch {ns : List Node} {accesses : List Access} {passes : List Pass}
      {before after : List Branch} {b : Branch} {key : Option Key} {location : Location}
      (h : Occurs context tree ns accesses passes)
      (hn : .chain (before ++ b :: after) key location ∈ ns)
      (hf : ∀ b' ∈ before, b'.Fails (.inside context passes))
      (hs : b.Succeeds (.inside context passes)) :
      Occurs context tree b.children (accesses ++ [.scope key]) passes
  | step {ns children : List Node} {accesses : List Access} {passes : List Pass} {info : LoopInfo}
      {source : Json} {step : Helper.Step} (h : Occurs context tree ns accesses passes)
      (hn : .loop info children ∈ ns)
      (hs : info.source.tree.eval (.inside context passes) = .ok source)
      (hstep : step ∈ Helper.iteration source) :
      Occurs context tree children (accesses ++ [.item info.key step.position])
        (passes ++ [⟨info, step⟩])

/-! ## Iterations -/

namespace Helper

theorem getElem?_steps (first : Nat) (items : List (Json × Json)) (i : Nat) :
    (steps first items)[i]? = items[i]?.map fun item => ⟨item.1, item.2, first + i⟩ := by
  induction items generalizing first i with
  | nil => rfl
  | cons item items ih =>
    cases i with
    | zero => rfl
    | succ i =>
      rw [steps, List.getElem?_cons_succ, List.getElem?_cons_succ, ih, Nat.add_assoc,
        Nat.add_comm 1]

/-- A step is the one at its position. -/
theorem getElem?_iteration {source : Json} {step : Step} (h : step ∈ iteration source) :
    (iteration source)[step.position]? = some step := by
  obtain ⟨items, hitems⟩ : ∃ items, iteration source = steps 0 items := by
    cases source <;> first | exact ⟨_, rfl⟩ | exact ⟨[], rfl⟩
  rw [hitems] at h ⊢
  obtain ⟨i, hi⟩ := List.mem_iff_getElem?.mp h
  have hposition : step.position = i := by
    rw [getElem?_steps, Option.map_eq_some_iff] at hi
    obtain ⟨item, -, rfl⟩ := hi
    exact Nat.zero_add i
  rw [hposition, hi]

end Helper

theorem getElem?_of_mapM {ε α β : Type} {f : α → Except ε β} {as : List α} {bs : List β}
    (h : as.mapM f = .ok bs) {i : Nat} {a : α} (ha : as[i]? = some a) :
    ∃ b, bs[i]? = some b ∧ f a = .ok b := by
  induction as generalizing bs i with
  | nil => cases ha
  | cons a' as ih =>
    rw [List.mapM_cons, Except.bind_eq_ok] at h
    obtain ⟨b, hb, h⟩ := h
    rw [Except.bind_eq_ok] at h
    obtain ⟨more, hm, h⟩ := h
    cases h
    cases i with
    | zero =>
      cases ha
      exact ⟨b, rfl, hb⟩
    | succ i => exact ih hm ha

/-! ## Chains -/

/-- The record of a chain is the one of the first branch that succeeds. -/
theorem Branch.chooseBranch_append {family : Family} {scope : Scope} {before after : List Branch}
    {b : Branch} (hf : ∀ b' ∈ before, b'.Fails scope) (hs : b.Succeeds scope) :
    Helper.chooseBranch (MergeBranch.producers scope (mergedAll family (before ++ b :: after))) =
      (Record.evalFields scope (Record.ofParts (b.parts family)) >>= fun fields =>
        .ok (Json.ofFields fields)) := by
  induction before with
  | nil =>
    obtain ⟨info, children⟩ := b
    rw [List.nil_append, mergedAll]
    unfold MergeBranch.producers
    rw [Helper.chooseBranch]
    cases hc : info.condition with
    | none => rfl
    | some e =>
      obtain ⟨v, hv, ht⟩ := hs e hc
      dsimp only
      rw [hv]
      exact if_pos ht
  | cons b' before ih =>
    obtain ⟨⟨e, v, hc, hv, ht⟩, hrest⟩ := List.forall_mem_cons.mp hf
    obtain ⟨info, children⟩ := b'
    rw [List.cons_append, mergedAll]
    unfold MergeBranch.producers
    rw [Helper.chooseBranch, show info.condition = some e from hc]
    dsimp only
    rw [hv]
    refine Eq.trans (if_neg ?_) (ih hrest)
    simp [ht]

/-! ## Order -/

section Order

variable {capabilities : Capabilities}

theorem Node.numbered_sublist {n : Node} {ns : List Node} (h : n ∈ ns) :
    (n.numbered capabilities).Sublist (Node.numberedAll capabilities ns) := by
  induction ns with
  | nil => exact absurd h List.not_mem_nil
  | cons m ns ih =>
    rw [Node.numberedAll]
    rcases List.mem_cons.mp h with rfl | h
    · exact List.sublist_append_left _ _
    · exact (ih h).trans (List.sublist_append_right _ _)

theorem Node.within_subset {n : Node} {ns : List Node} (h : n ∈ ns) :
    n.within ⊆ Node.withinAll ns := by
  induction ns with
  | nil => exact absurd h List.not_mem_nil
  | cons m ns ih =>
    rcases List.mem_cons.mp h with rfl | h
    · exact List.subset_append_left _ _
    · exact fun x hx => List.mem_append_right _ (ih h hx)

theorem Node.parts_subset {family : Family} {n : Node} {ns : List Node} (h : n ∈ ns) :
    n.parts family ⊆ Node.partsAll family ns := by
  induction ns with
  | nil => exact absurd h List.not_mem_nil
  | cons m ns ih =>
    rcases List.mem_cons.mp h with rfl | h
    · exact List.subset_append_left _ _
    · exact fun x hx => List.mem_append_right _ (ih h hx)

/-- The parts of siblings, and of the loops below them, are in the order of their keys. -/
abbrev Node.OrderedAll (capabilities : Capabilities) (ns : List Node) : Prop :=
  Ordered capabilities (Node.numberedAll capabilities ns) (Node.withinAll ns)

theorem Node.OrderedAll.node {n : Node} {ns : List Node} (h : Node.OrderedAll capabilities ns)
    (hn : n ∈ ns) : Ordered capabilities (n.numbered capabilities) n.within :=
  h.mono (Node.numbered_sublist hn) (Node.within_subset hn)

theorem Node.OrderedAll.branch {before after : List Branch} {b : Branch} {key : Option Key}
    {location : Location}
    (h : Ordered capabilities
      ((Node.chain (before ++ b :: after) key location).numbered capabilities)
      (Node.chain (before ++ b :: after) key location).within) :
    Node.OrderedAll capabilities b.children ∧ Increasing (b.parts capabilities.family) := by
  obtain ⟨info, children⟩ := b
  rw [Node.numbered, Node.within, Branch.numberedAll_append, Branch.withinAll_append,
    Branch.numberedAll, Branch.withinAll] at h
  have hown : Ordered capabilities (info.parts ++ Node.numberedAll capabilities children)
      (Node.withinAll children) := h.mono
    (((List.sublist_append_left _ _).trans (List.sublist_append_right _ _)).trans
      (List.sublist_cons_self _ _))
    (fun m hm => List.mem_cons_of_mem _
      (List.mem_append_right _ (List.mem_append_left _ hm)))
  refine ⟨hown.mono (List.sublist_append_right _ _) (List.Subset.refl _), ?_⟩
  exact hown.increasing.sublist
    ((List.Sublist.refl _).append (Node.partsAll_sublist capabilities children))

theorem Node.OrderedAll.loop {info : LoopInfo} {children : List Node}
    (h : Ordered capabilities ((Node.loop info children).numbered capabilities)
      (Node.loop info children).within) :
    Node.OrderedAll capabilities children ∧
      Increasing (Node.partsAll capabilities.family children) := by
  have hchildren := h.loops info children List.mem_cons_self
  refine ⟨⟨hchildren, fun i c hm => h.loops i c (List.mem_cons_of_mem _ hm)⟩, ?_⟩
  exact hchildren.sublist (Node.partsAll_sublist capabilities children)

end Order

/-! ## Records of instances -/

/-- Wherever nodes render, the mapping has a record with the values of all their parts. -/
theorem Occurs.holds {capabilities : Capabilities} {context mapping : Json} {tree ns : List Node}
    {accesses : List Access} {passes : List Pass} (h : Occurs context tree ns accesses passes)
    (ho : Node.OrderedAll capabilities tree)
    (hm : ∀ p ∈ Node.partsAll capabilities.family tree, Holds (.ofContext context) mapping p) :
    Node.OrderedAll capabilities ns ∧ ∃ record, mapping.at? accesses = some record ∧
      ∀ p ∈ Node.partsAll capabilities.family ns, Holds (.inside context passes) record p := by
  induction h with
  | root => exact ⟨ho, mapping, rfl, hm⟩
  | element _ hn ih =>
    obtain ⟨horder, record, hat, hparts⟩ := ih
    refine ⟨(horder.node hn).mono (List.sublist_append_right _ _) (List.subset_cons_self _ _),
      record, hat, fun p hp => hparts p (Node.parts_subset hn ?_)⟩
    exact List.mem_append_right _ hp
  | fallback _ hn ih =>
    obtain ⟨horder, record, hat, hparts⟩ := ih
    refine ⟨(horder.node hn).mono (List.sublist_append_right _ _) (List.subset_cons_self _ _),
      record, hat, fun p hp => hparts p (Node.parts_subset hn ?_)⟩
    exact List.mem_append_right _ hp
  | branch _ hn hf hs ih =>
    rename_i b key location _
    obtain ⟨horder, record, hat, hparts⟩ := ih
    obtain ⟨hchildren, hincreasing⟩ := Node.OrderedAll.branch (horder.node hn)
    obtain ⟨key', inner, hkey, hv, hg⟩ := hparts _ (Node.parts_subset hn List.mem_cons_self)
    have hkey : key = some key' := hkey
    -- The branches before this one have false conditions, so that the merged record is of this one.
    rw [Thunk.eval, Branch.chooseBranch_append hf hs] at hv
    obtain ⟨fields, he, hv⟩ := Except.bind_eq_ok.mp hv
    cases hv
    refine ⟨hchildren, Json.ofFields fields, ?_, fun p hp => hincreasing.holds he p ?_⟩
    · rw [Json.at?_append hat, Json.access?, hkey]
      exact hg
    · obtain ⟨info, children⟩ := b
      exact List.mem_append_right _ hp
  | step _ hn hs hstep ih =>
    rename_i info source step _
    obtain ⟨horder, record, hat, hparts⟩ := ih
    obtain ⟨hchildren, hincreasing⟩ := Node.OrderedAll.loop (horder.node hn)
    obtain ⟨key, v, hkey, hv, hg⟩ := hparts _ (Node.parts_subset hn List.mem_cons_self)
    have hkey : info.key = some key := hkey
    rw [Thunk.eval, hs, Except.bind_eq_ok] at hv
    obtain ⟨items, hitems, hv⟩ := hv
    cases hitems
    obtain ⟨results, hresults, hv⟩ := Except.bind_eq_ok.mp hv
    cases hv
    -- The record of the step is the item of the array at the position that the access has.
    obtain ⟨item, hitem, hfields⟩ := getElem?_of_mapM hresults (Helper.getElem?_iteration hstep)
    obtain ⟨fields, he, hfields⟩ := Except.bind_eq_ok.mp hfields
    cases hfields
    refine ⟨hchildren, Json.ofFields fields, ?_, ?_⟩
    · rw [Json.at?_append hat, Json.access?, hkey, Option.bind_some, hg]
      exact hitem
    · rw [Scope.inside_append]
      exact hincreasing.holds he

/-- The mapping of a template for a platform with markup has a record with the values of all parts,
wherever nodes render. -/
theorem Template.occurs_holds {nodes ns : List Node} {context mapping : Json}
    {accesses : List Access} {passes : List Pass}
    (he : (Template.annotate Family.markup.capabilities nodes).context.eval context = .ok mapping)
    (h : Occurs context (Template.annotate Family.markup.capabilities nodes).nodes ns accesses
      passes) :
    ∃ record, mapping.at? accesses = some record ∧
      ∀ p ∈ Node.partsAll .markup ns, Holds (.inside context passes) record p := by
  obtain ⟨fields, hf, he⟩ := Except.bind_eq_ok.mp he
  cases he
  have ho := Template.extract_ordered Family.markup.capabilities
    (Template.resolveSlots Family.markup.capabilities nodes) rfl
  have hi := ho.increasing.sublist (Node.partsAll_sublist Family.markup.capabilities _)
  exact (h.holds ho (hi.holds (by rw [← Template.extract_root]; exact hf))).2

end UiTemplate
