import UiTemplate.Proofs.Binding.Values
import UiTemplate.Proofs.Compile.Annotate

/-!
# Reading a tree against its mapping

Markup refers to bound values by their keys alone. What it shows is what the template says:

- `Node.walk`: what a node shows, computed over a rendering context and the locals of loops.
- `Node.read`: what a node shows, read out of a mapping by the keys in the tree.
- `Template.readAll_mapping`: if the mapping of a template is computed at all, reading the tree against
  it finds every key, and shows what the template shows.
-/

namespace UiTemplate

/-- Values with the paths of the nodes that show them. -/
abbrev Shown := List (Path × Json)

/-! ## Computing -/

/-- The values bound to the attributes of an element. -/
def walkDirectives (scope : Scope) (path : Path) : List Directive → Except EvalError Shown
  | [] => .ok []
  | .binding b :: rest =>
    if b.kind = .prop then do
      let v ← b.expression.tree.eval scope
      let more ← walkDirectives scope path rest
      .ok ((path, v) :: more)
    else walkDirectives scope path rest
  | _ :: rest => walkDirectives scope path rest

mutual

/-- What a node shows. A loop shows its nodes once for every step, and a chain the nodes of the
first branch whose condition holds; the last branch may have none. -/
def Node.walk (scope : Scope) (path : Path) : Node → Except EvalError Shown
  | .element info children => do
    let own ← walkDirectives scope path info.directives
    let below ← Node.walkAll scope path 0 children
    .ok (own ++ below)
  | .text .. => .ok []
  | .interpolation expression _ _ => do
    let v ← expression.tree.eval scope
    .ok [(path, .str v.display)]
  | .slot _ fallback => Node.walkAll scope path 0 fallback
  | .chain branches _ _ => Branch.walkAll scope path 0 branches
  | .loop info children => do
    let items ← info.source.tree.eval scope
    let shown ← (Helper.iteration items).mapM fun step =>
      Node.walkAll (scope.atStep info.item info.index info.depth step) path 0 children
    .ok shown.flatten
  | .comment .. => .ok []

/-- What the children of a node show, from an index on. -/
def Node.walkAll (scope : Scope) (parent : Path) (index : Nat) :
    List Node → Except EvalError Shown
  | [] => .ok []
  | n :: rest => do
    let own ← n.walk scope (parent.child index)
    let more ← Node.walkAll scope parent (index + 1) rest
    .ok (own ++ more)

/-- What the branches of a chain show, from an index on. -/
def Branch.walkAll (scope : Scope) (parent : Path) (index : Nat) :
    List Branch → Except EvalError Shown
  | [] => .ok []
  | .mk info children :: rest =>
    match info.condition with
    | none => Node.walkAll scope (parent.child index) 0 children
    | some e => do
      let v ← e.tree.eval scope
      if v.isTruthy then Node.walkAll scope (parent.child index) 0 children
      else Branch.walkAll scope parent (index + 1) rest

end

/-! ## Reading -/

/-- The values under the keys of an element's attributes. -/
def readDirectives (record : Json) (path : Path) : List Directive → Option Shown
  | [] => some []
  | .binding b :: rest =>
    if b.kind = .prop then do
      let key ← b.key
      let v ← record.get? key
      let more ← readDirectives record path rest
      some ((path, v) :: more)
    else readDirectives record path rest
  | _ :: rest => readDirectives record path rest

namespace Branch

/-- Whether the value under the key of a branch's condition is true. A key without value reads as
false. -/
def reads (record : Json) (b : Branch) : Bool :=
  b.info.condition.isSome && ((b.info.key.bind record.get?).map Json.isTruthy).getD false

/-- The index of the first branch that reads as true, otherwise of the one without condition. -/
def chosen? (record : Json) (branches : List Branch) : Option Nat :=
  (branches.findIdx? (reads record)).or (branches.findIdx? fun b => b.info.condition.isNone)

end Branch

mutual

/-- What a node shows, read out of the record of its scope; none if a key is missing. Inside a loop
each item of the array under its key is the record, inside a chain the record under its key. -/
def Node.read (record : Json) (path : Path) : Node → Option Shown
  | .element info children => do
    let own ← readDirectives record path info.directives
    let below ← Node.readAll record path 0 children
    some (own ++ below)
  | .text .. => some []
  | .interpolation _ key _ => do
    let key ← key
    let v ← record.get? key
    some [(path, v)]
  | .slot _ fallback => Node.readAll record path 0 fallback
  | .chain branches key _ => do
    let key ← key
    let inner ← record.get? key
    Branch.readAt inner path (Branch.chosen? inner branches) 0 branches
  | .loop info children => do
    let key ← info.key
    match record.get? key with
    | some (.arr items) => do
      let shown ← items.mapM fun item => Node.readAll item path 0 children
      some shown.flatten
    | _ => none
  | .comment .. => some []

/-- What the children of a node show, from an index on. -/
def Node.readAll (record : Json) (parent : Path) (index : Nat) : List Node → Option Shown
  | [] => some []
  | n :: rest => do
    let own ← n.read record (parent.child index)
    let more ← Node.readAll record parent (index + 1) rest
    some (own ++ more)

/-- What the branch with the chosen index shows, among the branches from an index on. -/
def Branch.readAt (record : Json) (parent : Path) (chosen : Option Nat) (index : Nat) :
    List Branch → Option Shown
  | [] => some []
  | .mk _ children :: rest =>
    if chosen = some index then Node.readAll record (parent.child index) 0 children
    else Branch.readAt record parent chosen (index + 1) rest

end

/-! ## Parts and their values -/

/-- A record in JSON has the value of a part under its key. -/
def Holds (scope : Scope) (record : Json) (p : Part) : Prop :=
  ∃ key v, p.1 = some key ∧ p.2.eval scope = .ok v ∧ record.get? key = some v

/-- The values of a record are under the keys of its parts. -/
theorem Increasing.holds {scope : Scope} {ps : List Part} {fields : List (String × Json)}
    (hi : Increasing ps) (h : Record.evalFields scope (Record.ofParts ps) = .ok fields) :
    ∀ p ∈ ps, Holds scope (Json.ofFields fields) p := by
  intro p hp
  obtain ⟨key, hk⟩ := hi.keyed p hp
  have hm : (key, p.2) ∈ Record.ofParts ps :=
    List.mem_filterMap.mpr ⟨p, hp, by rw [hk]; rfl⟩
  obtain ⟨v, hv, hf⟩ := Record.evalFields_mem h hm
  have hn : (fields.map Prod.fst).Nodup := by
    rw [Record.evalFields_keys h]
    exact hi.nodup
  exact ⟨key, v, hk, hv, Json.ofFields_get?_of_mem hn hf⟩

/-- A record has nothing under a key of none of its parts. -/
theorem Record.evalFields_get?_eq_none {scope : Scope} {ps : List Part}
    {fields : List (String × Json)}
    (h : Record.evalFields scope (Record.ofParts ps) = .ok fields) {key : Key}
    (hk : ∀ p ∈ ps, p.1 ≠ some key) : (Json.ofFields fields).get? key = none := by
  refine Json.ofFields_get?_of_notMem fun hm => ?_
  rw [Record.evalFields_keys h] at hm
  obtain ⟨⟨k, t⟩, he, rfl⟩ := List.mem_map.mp hm
  obtain ⟨p, hp, hpe⟩ := List.mem_filterMap.mp he
  obtain ⟨k', hk', hpe⟩ := Option.map_eq_some_iff.mp hpe
  cases hpe
  exact hk p hp hk'

/-! ## The branch of a chain -/

namespace Branch

variable {scope : Scope}

/-- The branch has a condition, and it does not hold. -/
def Fails (scope : Scope) (b : Branch) : Prop :=
  ∃ e v, b.info.condition = some e ∧ e.tree.eval scope = .ok v ∧ v.isTruthy = false

/-- The branch has no condition, or one that holds. -/
def Succeeds (scope : Scope) (b : Branch) : Prop :=
  ∀ e, b.info.condition = some e → ∃ v, e.tree.eval scope = .ok v ∧ v.isTruthy = true

/-- The record of a chain is the one of the first branch that succeeds, without one the empty
record. -/
theorem chooseBranch_cases {family : Family} {inner : Json} (bs : List Branch)
    (h : Helper.chooseBranch (MergeBranch.producers scope (mergedAll family bs)) = .ok inner) :
    (∃ before b after fields, bs = before ++ b :: after ∧ (∀ b' ∈ before, b'.Fails scope) ∧
      b.Succeeds scope ∧ Record.evalFields scope (Record.ofParts (b.parts family)) = .ok fields ∧
      inner = Json.ofFields fields) ∨
    (inner = .obj [] ∧ ∀ b ∈ bs, b.Fails scope) := by
  induction bs with
  | nil =>
    cases h
    exact .inr ⟨rfl, fun b hb => absurd hb List.not_mem_nil⟩
  | cons b bs ih =>
    obtain ⟨info, children⟩ := b
    rw [mergedAll] at h
    unfold MergeBranch.producers at h
    rw [Helper.chooseBranch, Except.bind_eq_ok] at h
    obtain ⟨v, hv, h⟩ := h
    by_cases ht : v.isTruthy = true
    · rw [if_pos ht, Except.bind_eq_ok] at h
      obtain ⟨fields, hf, h⟩ := h
      cases h
      refine .inl ⟨[], .mk info children, bs, fields, rfl, fun b hb => absurd hb List.not_mem_nil,
        fun e he => ?_, hf, rfl⟩
      rw [show info.condition = some e from he] at hv
      exact ⟨v, hv, ht⟩
    · rw [if_neg ht] at h
      have hb : (Branch.mk info children).Fails scope := by
        cases hc : info.condition with
        | none =>
          rw [hc] at hv
          cases hv
          exact absurd rfl ht
        | some e =>
          rw [hc] at hv
          exact ⟨e, v, hc, hv, by simpa using ht⟩
      rcases ih h with ⟨before, b, after, fields, rfl, hbs, hr⟩ | ⟨hi, hbs⟩
      · refine .inl ⟨.mk info children :: before, b, after, fields, rfl, ?_, hr⟩
        exact List.forall_mem_cons.mpr ⟨hb, hbs⟩
      · exact .inr ⟨hi, List.forall_mem_cons.mpr ⟨hb, hbs⟩⟩

/-- Branches that fail show nothing. -/
theorem walkAll_append (parent : Path) (index : Nat) {before : List Branch} (after : List Branch)
    (h : ∀ b ∈ before, b.Fails scope) :
    walkAll scope parent index (before ++ after) =
      walkAll scope parent (index + before.length) after := by
  induction before generalizing index with
  | nil => rfl
  | cons b before ih =>
    obtain ⟨⟨e, v, hc, hv, ht⟩, hb⟩ := List.forall_mem_cons.mp h
    obtain ⟨info, children⟩ := b
    have hstep : walkAll scope parent index (.mk info children :: (before ++ after)) =
        walkAll scope parent (index + 1) (before ++ after) := by
      rw [walkAll, show info.condition = some e from hc]
      dsimp only
      rw [hv]
      show (if v.isTruthy = true then _ else _) = _
      rw [if_neg (by simp [ht])]
    rw [List.cons_append, hstep, ih _ hb, List.length_cons, Nat.add_assoc, Nat.add_comm 1]

/-- A branch that succeeds shows its nodes. -/
theorem walkAll_cons {b : Branch} (parent : Path) (index : Nat) (after : List Branch)
    (h : b.Succeeds scope) :
    walkAll scope parent index (b :: after) =
      Node.walkAll scope (parent.child index) 0 b.children := by
  obtain ⟨info, children⟩ := b
  cases hc : info.condition with
  | none => rw [walkAll, hc, Branch.children]
  | some e =>
    obtain ⟨v, hv, ht⟩ := h e hc
    rw [walkAll, hc]
    dsimp only
    rw [hv]
    exact if_pos ht

/-- The nodes of the chosen branch are read. -/
theorem readAt_append (record : Json) (parent : Path) (index : Nat) (before : List Branch)
    (b : Branch) (after : List Branch) :
    readAt record parent (some (index + before.length)) index (before ++ b :: after) =
      Node.readAll record (parent.child (index + before.length)) 0 b.children := by
  induction before generalizing index with
  | nil =>
    obtain ⟨info, children⟩ := b
    rw [List.nil_append, readAt]
    exact if_pos rfl
  | cons b' before ih =>
    obtain ⟨info, children⟩ := b'
    have hne : ¬some (index + (Branch.mk info children :: before).length) = some index := by
      simp
    rw [List.cons_append, readAt, if_neg hne, List.length_cons, Nat.add_comm before.length,
      ← Nat.add_assoc, ih]

theorem readAt_none (record : Json) (parent : Path) (index : Nat) (bs : List Branch) :
    readAt record parent none index bs = some [] := by
  induction bs generalizing index with
  | nil => rfl
  | cons b bs ih =>
    obtain ⟨info, children⟩ := b
    rw [readAt, if_neg (by simp), ih]

/-- A branch reads as false in a record that has no part under the key of its condition. -/
theorem reads_eq_false {ps : List Part} {fields : List (String × Json)} {b : Branch}
    (h : Record.evalFields scope (Record.ofParts ps) = .ok fields)
    (hb : ∀ p ∈ b.info.parts, ∀ q ∈ ps, p.1 ≠ q.1) : b.reads (Json.ofFields fields) = false := by
  unfold reads
  cases hc : b.info.condition with
  | none => rfl
  | some e =>
    cases hk : b.info.key with
    | none => rfl
    | some key =>
      have hm : (some key, Thunk.field e) ∈ b.info.parts := by
        rw [BranchInfo.parts, hc, hk]
        exact List.mem_cons_self
      rw [Option.bind_some, Record.evalFields_get?_eq_none h fun q hq he => hb _ hm q hq he.symm]
      rfl

theorem reads_eq_true {record : Json} {b : Branch} {e : Expression}
    (hc : b.info.condition = some e) (hb : b.Succeeds scope)
    (h : ∀ p ∈ b.info.parts, Holds scope record p) : b.reads record = true := by
  have hm : (b.info.key, Thunk.field e) ∈ b.info.parts := by
    rw [BranchInfo.parts, hc]
    exact List.mem_cons_self
  obtain ⟨key, v, hk, hv, hr⟩ := h _ hm
  obtain ⟨w, hw, ht⟩ := hb e hc
  rw [Thunk.eval, hw] at hv
  cases hv
  rw [reads, hc, show b.info.key = some key from hk, Option.bind_some, hr]
  exact ht

/-- In the record of a branch that succeeds, after ones that fail, this branch is chosen, provided
that the conditions of the other ones have no part of it. -/
theorem chosen?_append {record : Json} {before after : List Branch} {b : Branch}
    (hf : ∀ b' ∈ before, b'.Fails scope) (hs : b.Succeeds scope)
    (hr : ∀ b' ∈ before ++ after, b'.reads record = false)
    (hb : ∀ p ∈ b.info.parts, Holds scope record p) :
    chosen? record (before ++ b :: after) = some before.length := by
  rw [List.forall_mem_append] at hr
  have hn : before.findIdx? (reads record) = none := List.findIdx?_eq_none_iff.mpr hr.1
  cases hc : b.info.condition with
  | some e =>
    rw [chosen?, List.findIdx?_append, hn, List.findIdx?_cons, reads_eq_true hc hs hb]
    simp
  | none =>
    -- No condition reads as true, so the first branch without one is taken.
    have hb' : b.reads record = false := by rw [reads, hc]; rfl
    have ha : after.findIdx? (reads record) = none := List.findIdx?_eq_none_iff.mpr hr.2
    have hi : before.findIdx? (fun b => b.info.condition.isNone) = none := by
      refine List.findIdx?_eq_none_iff.mpr fun b' hm => ?_
      obtain ⟨e, v, he, -⟩ := hf b' hm
      rw [he]
      rfl
    rw [chosen?, List.findIdx?_append, hn, List.findIdx?_cons, hb', ha, List.findIdx?_append, hi,
      List.findIdx?_cons, hc]
    simp

theorem chosen?_empty {bs : List Branch} (h : ∀ b ∈ bs, b.Fails scope) :
    chosen? (.obj []) bs = none := by
  have hr : bs.findIdx? (reads (.obj [])) = none := by
    refine List.findIdx?_eq_none_iff.mpr fun b hb => ?_
    cases hk : b.info.key <;> simp [reads, hk, Json.get?, Json.lookup]
  have hi : bs.findIdx? (fun b => b.info.condition.isNone) = none := by
    refine List.findIdx?_eq_none_iff.mpr fun b hb => ?_
    obtain ⟨e, v, he, -⟩ := h b hb
    rw [he]
    rfl
  rw [chosen?, hr, hi]
  rfl

theorem info_parts_subset (b : Branch) (family : Family) : b.info.parts ⊆ b.parts family := by
  obtain ⟨info, children⟩ := b
  exact List.subset_append_left _ _

theorem parts_subset_numberedAll {capabilities : Capabilities} {b : Branch} {bs : List Branch}
    (hb : b ∈ bs) : b.info.parts ⊆ numberedAll capabilities bs := by
  induction bs with
  | nil => exact absurd hb List.not_mem_nil
  | cons b' bs ih =>
    obtain ⟨info, children⟩ := b'
    rw [numberedAll]
    rcases List.mem_cons.mp hb with rfl | hb
    · rw [List.append_assoc]
      exact List.subset_append_left _ _
    · exact List.subset_append_of_subset_right _ (ih hb)

theorem parts_mem_scopesAll {family : Family} {b : Branch} {bs : List Branch} (hb : b ∈ bs) :
    b.parts family ∈ scopesAll family bs := by
  induction bs with
  | nil => exact absurd hb List.not_mem_nil
  | cons b' bs ih =>
    obtain ⟨info, children⟩ := b'
    rw [scopesAll]
    rcases List.mem_cons.mp hb with rfl | hb
    · exact List.mem_append_left _ List.mem_cons_self
    · exact List.mem_append_right _ (ih hb)

theorem numberedAll_append (capabilities : Capabilities) (bs bs' : List Branch) :
    numberedAll capabilities (bs ++ bs') =
      numberedAll capabilities bs ++ numberedAll capabilities bs' := by
  induction bs with
  | nil => rfl
  | cons b bs ih =>
    obtain ⟨info, children⟩ := b
    rw [List.cons_append, numberedAll, numberedAll, ih, List.append_assoc _ _ (numberedAll _ bs')]

end Branch

theorem Increasing.nodup_keys {ps : List Part} (h : Increasing ps) :
    (ps.map Prod.fst).Nodup := by
  obtain ⟨ns, hp, he⟩ := h
  rw [he]
  exact List.Nodup.map (fun m n e => Key.number_injective (Option.some.inj e))
    (hp.imp Nat.ne_of_lt)

/-- Parts that are numbered apart have different keys. -/
theorem Increasing.ne_of_append {ps ps' : List Part} (h : Increasing (ps ++ ps')) {p q : Part}
    (hp : p ∈ ps) (hq : q ∈ ps') : p.1 ≠ q.1 := by
  have hn := h.nodup_keys
  rw [List.map_append] at hn
  exact (List.nodup_append.mp hn).2.2 _ (List.mem_map_of_mem hp) _ (List.mem_map_of_mem hq)

/-- The conditions of other branches have no key of a branch. -/
theorem Branch.ne_of_increasing {capabilities : Capabilities} {before after : List Branch}
    {b : Branch} (h : Increasing (Branch.numberedAll capabilities (before ++ b :: after))) :
    ∀ b' ∈ before ++ after, ∀ p ∈ b'.info.parts, ∀ q ∈ b.parts capabilities.family,
      p.1 ≠ q.1 := by
  obtain ⟨info, children⟩ := b
  rw [Branch.numberedAll_append, Branch.numberedAll] at h
  intro b' hb' p hp q hq
  have hq' := ((List.Sublist.refl info.parts).append
    (Node.partsAll_sublist capabilities children)).subset hq
  rcases List.mem_append.mp hb' with hb' | hb'
  · exact h.ne_of_append (Branch.parts_subset_numberedAll hb' hp) (List.mem_append_left _ hq')
  · have hs := h.sublist (List.sublist_append_right _ _)
    exact (hs.ne_of_append hq' (Branch.parts_subset_numberedAll hb' hp)).symm

/-! ## The simulation -/

theorem readDirectives_eq_walkDirectives {scope : Scope} {record : Json} (path : Path)
    (ds : List Directive) (h : ∀ p ∈ directiveParts ds, Holds scope record p) :
    ∃ shown, walkDirectives scope path ds = .ok shown ∧
      readDirectives record path ds = some shown := by
  induction ds with
  | nil => exact ⟨[], rfl, rfl⟩
  | cons d ds ih =>
    have hs : directiveParts ds ⊆ directiveParts (d :: ds) :=
      ((List.sublist_cons_self d ds).filterMap _).subset
    obtain ⟨shown, hw, hr⟩ := ih fun p hp => h p (hs hp)
    cases d with
    | structural s l => exact ⟨shown, hw, hr⟩
    | unsupported name value l => exact ⟨shown, hw, hr⟩
    | binding b =>
      rw [walkDirectives, readDirectives]
      by_cases hb : b.kind = .prop
      · have hm : (b.key, Thunk.field b.expression) ∈ directiveParts (.binding b :: ds) := by
          refine List.mem_filterMap.mpr ⟨_, List.mem_cons_self, ?_⟩
          rw [Directive.part?, if_neg (by rw [hb]; decide)]
        obtain ⟨key, v, hk, hv, hg⟩ := h _ hm
        rw [Thunk.eval] at hv
        rw [if_pos hb, if_pos hb, hv, hw, show b.key = some key from hk, hr]
        refine ⟨(path, v) :: shown, rfl, ?_⟩
        rw [Option.bind_eq_bind, Option.bind_some, hg]
        rfl
      · rw [if_neg hb, if_neg hb]
        exact ⟨shown, hw, hr⟩

mutual

/-- Reading a node in a record that has the values of its parts shows what the node shows. -/
theorem Node.read_eq_walk {capabilities : Capabilities} (n : Node)
    (ho : Ordered capabilities (n.numbered capabilities) n.within) {scope : Scope} {record : Json}
    (path : Path) (h : ∀ p ∈ n.parts capabilities.family, Holds scope record p) :
    ∃ shown, n.walk scope path = .ok shown ∧ n.read record path = some shown := by
  match n with
  | .element info children =>
    have hc := ho.mono (List.sublist_append_right _ _) (List.subset_cons_self _ _)
    rw [Node.parts, List.forall_mem_append] at h
    obtain ⟨own, hw, hr⟩ := readDirectives_eq_walkDirectives path info.directives h.1
    obtain ⟨below, hw', hr'⟩ := Node.readAll_eq_walkAll children hc path 0 h.2
    refine ⟨own ++ below, ?_, ?_⟩
    · rw [Node.walk, hw, hw']
      rfl
    · rw [Node.read, hr, hr']
      rfl
  | .text .. => exact ⟨[], rfl, rfl⟩
  | .interpolation e key l =>
    obtain ⟨key, v, rfl, hv, hg⟩ := h _ List.mem_cons_self
    rw [Thunk.eval, Except.bind_eq_ok] at hv
    obtain ⟨w, hw, hv⟩ := hv
    cases hv
    refine ⟨[(path, .str w.display)], ?_, ?_⟩
    · rw [Node.walk, hw]
      rfl
    · rw [Node.read, Option.bind_eq_bind, Option.bind_some, hg]
      rfl
  | .slot info fallback =>
    have hc := ho.mono (List.sublist_append_right _ _) (List.subset_cons_self _ _)
    rw [Node.parts, List.forall_mem_append] at h
    rw [Node.walk, Node.read]
    exact Node.readAll_eq_walkAll fallback hc path 0 h.2
  | .chain branches key l =>
    have hb := ho.mono (List.sublist_cons_self _ _) (List.subset_cons_self _ _)
    obtain ⟨key, inner, rfl, hv, hg⟩ := h _ List.mem_cons_self
    rw [Thunk.eval] at hv
    rw [Node.walk, Node.read, Option.bind_eq_bind, Option.bind_some, hg, Option.bind_eq_bind,
      Option.bind_some]
    rcases Branch.chooseBranch_cases branches hv with
      ⟨before, b, after, fields, hbs, hf, hs, he, rfl⟩ | ⟨rfl, hf⟩
    -- The values of the chosen branch are the record. Keys increase over all branches, so that none
    -- of another branch is in it.
    · have hi := hb.increasing
      rw [hbs] at hi
      have hp := (Branch.scopesAll_increasing branches hb _
        (Branch.parts_mem_scopesAll (hbs ▸ List.mem_append_right _ List.mem_cons_self))).holds he
      have hr := fun b' hb' => Branch.reads_eq_false he (Branch.ne_of_increasing hi b' hb')
      obtain ⟨shown, hw, hr'⟩ := Branch.readAll_eq_walkAll branches hb b
        (hbs ▸ List.mem_append_right _ List.mem_cons_self) (path.child before.length) hp
      refine ⟨shown, ?_, ?_⟩
      · rw [hbs, Branch.walkAll_append path 0 _ hf, Branch.walkAll_cons path _ _ hs, Nat.zero_add]
        exact hw
      · have ha := Branch.readAt_append (Json.ofFields fields) path 0 before b after
        rw [Nat.zero_add] at ha
        rw [hbs, Branch.chosen?_append hf hs hr fun p hm => hp p (b.info_parts_subset _ hm), ha]
        exact hr'
    · refine ⟨[], ?_, ?_⟩
      · have ha := Branch.walkAll_append path 0 [] hf
        rw [List.append_nil] at ha
        rw [ha, Branch.walkAll]
      · rw [Branch.chosen?_empty hf, Branch.readAt_none]
  | .loop info children =>
    obtain ⟨key, v, hk, hv, hg⟩ := h _ List.mem_cons_self
    have hc : Ordered capabilities (Node.numberedAll capabilities children)
        (Node.withinAll children) :=
      ⟨ho.loops info children List.mem_cons_self,
        fun i c hm => ho.loops i c (List.mem_cons_of_mem _ hm)⟩
    have hi := hc.increasing.sublist (Node.partsAll_sublist capabilities children)
    rw [Thunk.eval, Except.bind_eq_ok] at hv
    obtain ⟨items, hs, hv⟩ := hv
    rw [Except.bind_eq_ok] at hv
    obtain ⟨results, hm, hv⟩ := hv
    cases hv
    -- Each step has a record of its own, from the parts of the children in the scope of that step.
    obtain ⟨shown, hw, hr⟩ := mapM_eq_mapM
      (g := fun step =>
        Node.walkAll (scope.atStep info.item info.index info.depth step) path 0 children)
      (k := fun item => Node.readAll item path 0 children)
      (fun step item hstep => by
        obtain ⟨fields, hf, he⟩ := Except.bind_eq_ok.mp hstep
        cases he
        exact Node.readAll_eq_walkAll children hc path 0 (hi.holds hf)) hm
    refine ⟨shown.flatten, ?_, ?_⟩
    · rw [Node.walk]
      exact Except.bind_eq_ok.mpr ⟨items, hs, Except.bind_eq_ok.mpr ⟨shown, hw, rfl⟩⟩
    · rw [Node.read, show info.key = some key from hk, Option.bind_eq_bind, Option.bind_some, hg]
      dsimp only
      rw [hr]
      rfl
  | .comment .. => exact ⟨[], rfl, rfl⟩

theorem Node.readAll_eq_walkAll {capabilities : Capabilities} (ns : List Node)
    (ho : Ordered capabilities (Node.numberedAll capabilities ns) (Node.withinAll ns))
    {scope : Scope} {record : Json} (parent : Path) (index : Nat)
    (h : ∀ p ∈ Node.partsAll capabilities.family ns, Holds scope record p) :
    ∃ shown, Node.walkAll scope parent index ns = .ok shown ∧
      Node.readAll record parent index ns = some shown := by
  match ns with
  | [] => exact ⟨[], rfl, rfl⟩
  | n :: rest =>
    rw [Node.partsAll, List.forall_mem_append] at h
    obtain ⟨own, hw, hr⟩ := Node.read_eq_walk n
      (ho.mono (List.sublist_append_left _ _) (List.subset_append_left _ _))
      (parent.child index) h.1
    obtain ⟨more, hw', hr'⟩ := Node.readAll_eq_walkAll rest
      (ho.mono (List.sublist_append_right _ _) (List.subset_append_right _ _))
      parent (index + 1) h.2
    refine ⟨own ++ more, ?_, ?_⟩
    · rw [Node.walkAll, hw, hw']
      rfl
    · rw [Node.readAll, hr, hr']
      rfl

theorem Branch.readAll_eq_walkAll {capabilities : Capabilities} (bs : List Branch)
    (ho : Ordered capabilities (Branch.numberedAll capabilities bs) (Branch.withinAll bs)) :
    ∀ b ∈ bs, ∀ {scope : Scope} {record : Json} (parent : Path),
      (∀ p ∈ b.parts capabilities.family, Holds scope record p) →
      ∃ shown, Node.walkAll scope parent 0 b.children = .ok shown ∧
        Node.readAll record parent 0 b.children = some shown := by
  match bs with
  | [] => exact fun b hb => absurd hb List.not_mem_nil
  | .mk info children :: rest =>
    intro b hb scope record parent h
    rcases List.mem_cons.mp hb with rfl | hb
    · refine Node.readAll_eq_walkAll children (ho.mono ?_ (List.subset_append_left _ _)) parent 0
        fun p hp => h p (List.mem_append_right _ hp)
      exact (List.sublist_append_right _ _).trans (List.sublist_append_left _ _)
    · exact Branch.readAll_eq_walkAll rest
        (ho.mono (List.sublist_append_right _ _) (List.subset_append_right _ _)) b hb parent h

end

/-! ## Neither keys nor outlets change what is shown -/

theorem walkDirectives_strip (scope : Scope) (path : Path) (ds : List Directive) :
    walkDirectives scope path (ds.map Directive.strip) = walkDirectives scope path ds := by
  induction ds with
  | nil => rfl
  | cons d ds ih =>
    cases d with
    | structural s l => exact ih
    | unsupported name value l => exact ih
    | binding b =>
      rw [List.map_cons, Directive.strip, walkDirectives, walkDirectives, ih]

section Strip

variable (f : SlotInfo → SlotInfo)

mutual

theorem Node.walk_strip (scope : Scope) (path : Path) (n : Node) :
    (n.strip f).walk scope path = n.walk scope path := by
  match n with
  | .element info children =>
    rw [Node.strip, Node.walk, Node.walk, walkDirectives_strip, Node.walkAll_strip]
  | .text .. => rfl
  | .interpolation .. => rfl
  | .slot info fallback => rw [Node.strip, Node.walk, Node.walk, Node.walkAll_strip]
  | .chain branches key l => rw [Node.strip, Node.walk, Node.walk, Branch.walkAll_strip]
  | .loop info children =>
    rw [Node.strip, Node.walk, Node.walk]
    simp only [fun step => Node.walkAll_strip (scope.atStep info.item info.index info.depth step)
      path 0 children]
  | .comment .. => rfl

theorem Node.walkAll_strip (scope : Scope) (parent : Path) (index : Nat) (ns : List Node) :
    Node.walkAll scope parent index (Node.stripAll f ns) = Node.walkAll scope parent index ns := by
  match ns with
  | [] => rfl
  | n :: rest =>
    rw [Node.stripAll, Node.walkAll, Node.walkAll, Node.walk_strip, Node.walkAll_strip]

theorem Branch.walkAll_strip (scope : Scope) (parent : Path) (index : Nat) (bs : List Branch) :
    Branch.walkAll scope parent index (Branch.stripAll f bs) =
      Branch.walkAll scope parent index bs := by
  match bs with
  | [] => rfl
  | .mk info children :: rest =>
    rw [Branch.stripAll, Branch.walkAll, Branch.walkAll, Node.walkAll_strip, Branch.walkAll_strip]

end

end Strip

theorem Template.walkAll_annotate (capabilities : Capabilities) (scope : Scope)
    (nodes : List Node) :
    Node.walkAll scope [] 0 (Template.annotate capabilities nodes).nodes =
      Node.walkAll scope [] 0 nodes := by
  rw [← Node.walkAll_strip SlotInfo.plain, Template.annotate_strip, Node.walkAll_strip]

/-! ## The whole template -/

/-- **Markup shows what the template says.** If the mapping of a template for a platform with markup
is computed, then reading the tree with keys against it never misses a key, and shows the same
values at the same nodes as the template itself. -/
theorem Template.readAll_mapping (p : Platform) (hp : p.family = .markup) (nodes : List Node)
    (context mapping : Json)
    (h : (Template.annotate p.capabilities nodes).context.eval context = .ok mapping) :
    ∃ shown, Node.walkAll (Scope.ofContext context) [] 0 nodes = .ok shown ∧
      Node.readAll mapping [] 0 (Template.annotate p.capabilities nodes).nodes = some shown := by
  have hc : p.capabilities = Family.markup.capabilities := by rw [Platform.capabilities, hp]
  rw [← Template.walkAll_annotate p.capabilities]
  rw [hc] at h ⊢
  rw [BindingContext.eval, Except.bind_eq_ok] at h
  obtain ⟨fields, hf, h⟩ := h
  cases h
  have ho := Template.extract_ordered Family.markup.capabilities
    (Template.resolveSlots Family.markup.capabilities nodes) rfl
  refine Node.readAll_eq_walkAll _ ho [] 0 ((ho.increasing.sublist ?_).holds ?_)
  · exact Node.partsAll_sublist Family.markup.capabilities _
  · rw [← Template.extract_root]
    exact hf

/-- A name as an expression. -/
def Expression.ofName (name : String) : Expression :=
  ⟨name, .ident name, [⟨name, 0, name.utf8ByteSize, false⟩]⟩

/-- A loop around a chain: an item that counts as true is shown, any other one is a message. -/
def shownItems : List Node :=
  [.loop { source := .ofName "items", item := "item", index := none, depth := 0 }
    [.chain
      [.mk { kind := .onlyIf, condition := some (.ofName "item") }
          [.interpolation (.ofName "item") none {}],
        .mk { kind := .otherwise, condition := none } [.interpolation (.ofName "message") none {}]]
      none {}]]

/-- A first pass that shows its item, and a second one whose item is empty and that shows the
message. -/
theorem readAll_mapping_shownItems :
    ∃ mapping, (Template.annotate Platform.weixin.capabilities shownItems).context.eval
        (.obj [("items", .arr [.str "x", .str ""]), ("message", .str "none")]) = .ok mapping ∧
      Node.readAll mapping [] 0 (Template.annotate Platform.weixin.capabilities shownItems).nodes =
        some [([0, 0, 0, 0], .str "x"), ([0, 0, 1, 0], .str "none")] := by
  refine ⟨_, rfl, ?_⟩
  obtain ⟨shown, hw, hr⟩ := Template.readAll_mapping .weixin rfl shownItems
    (.obj [("items", .arr [.str "x", .str ""]), ("message", .str "none")]) _ rfl
  rw [hr]
  cases hw
  rfl

end UiTemplate
