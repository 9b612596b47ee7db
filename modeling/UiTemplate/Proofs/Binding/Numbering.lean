import UiTemplate.Proofs.Binding.Key
import UiTemplate.Proofs.Binding.Parts

/-!
# Keys are numbered in the order of the text

- `Extracts`: a step of the walk over a tree, with the record it yields and the parts it numbers.
- `Node.extractAll_extracts`: what extraction gives out for nodes are the parts that the annotated
  nodes carry, numbered in the order of the text.
- `Node.extractAll_restarts`: where loops have keys of their own, every loop numbers its parts from
  the first key on.
-/

namespace UiTemplate

open Extract

/-! ## What a step of the walk gives out -/

/-- A step of the walk that leads from `a` to `b` gives the keys after those of `a` to parts, one
each and in their order. -/
structure Numbers (a : Allocation) (numbered : List Part) (b : Allocation) : Prop where
  keys_eq : numbered.map Prod.fst =
    (List.range' a.next numbered.length).map fun n => some (Key.number n)
  next_eq : b.next = a.next + numbered.length

/-- A step of the walk numbers the parts `numbered` and gives back the record of the parts
`parts`. -/
structure Extracts (a : Allocation) (record : Record) (parts numbered : List Part)
    (b : Allocation) : Prop extends Numbers a numbered b where
  record_eq : record = Record.ofParts parts

section Steps

variable {a b c : Allocation} {r r' : Record} {ps ps' ns ns' : List Part}

theorem Numbers.nil (h : b.next = a.next) : Numbers a [] b :=
  ⟨rfl, h⟩

/-- Two steps number what the first and then what the second numbers. -/
theorem Numbers.append (h : Numbers a ns b) (h' : Numbers b ns' c) : Numbers a (ns ++ ns') c := by
  refine ⟨?_, ?_⟩
  · rw [List.map_append, h.keys_eq, h'.keys_eq, h.next_eq, ← List.map_append, List.range'_append_1,
      List.length_append]
  · rw [h'.next_eq, h.next_eq, List.length_append, Nat.add_assoc]

theorem Extracts.nil (h : b.next = a.next) : Extracts a [] [] [] b :=
  ⟨.nil h, rfl⟩

/-- A part under the next key, with parts inside it that are numbered after it. -/
theorem Extracts.around (t : Thunk) (h : Numbers { a with next := a.next + 1 } ns b)
    (hc : c.next = b.next) :
    Extracts a [(Key.number a.next, t)] [(some (Key.number a.next), t)]
      ((some (Key.number a.next), t) :: ns) c := by
  refine ⟨⟨?_, ?_⟩, rfl⟩
  · rw [List.map_cons, h.keys_eq, List.length_cons, List.range'_succ, List.map_cons]
  · rw [hc, h.next_eq, List.length_cons]
    exact Nat.add_right_comm a.next 1 ns.length

/-- A part under the next key. -/
theorem Extracts.fresh (t : Thunk) (h : b.next = a.next + 1) :
    Extracts a [(Key.number a.next, t)] [(some (Key.number a.next), t)]
      [(some (Key.number a.next), t)] b :=
  .around t (.nil rfl) h

/-- Their records are put together alike. -/
theorem Extracts.append (h : Extracts a r ps ns b) (h' : Extracts b r' ps' ns' c) :
    Extracts a (r ++ r') (ps ++ ps') (ns ++ ns') c := by
  refine ⟨h.toNumbers.append h'.toNumbers, ?_⟩
  rw [h.record_eq, h'.record_eq, Record.ofParts_append]

end Steps

/-! ## Directives, slots and conditions -/

/-- The handler of an event gets no key. -/
theorem extractDirectives_event {b : Binding} (h : b.kind = .event) (ds : List Directive)
    (a : Allocation) :
    extractDirectives (.binding b :: ds) a =
      ((.binding b :: (extractDirectives ds a).1.1, (extractDirectives ds a).1.2),
        (extractDirectives ds a).2) := by
  rw [extractDirectives, if_pos (by rw [h]; rfl)]
  rfl

/-- Every other binding gets the next one. -/
theorem extractDirectives_bound {b : Binding} (h : b.kind ≠ .event) (ds : List Directive)
    (a : Allocation) :
    extractDirectives (.binding b :: ds) a =
      let d := extractDirectives ds { a with next := a.next + 1 }
      ((.binding { b with key := some (Key.number a.next) } :: d.1.1,
        (Key.number a.next, .field b.expression) :: d.1.2), d.2) := by
  rw [extractDirectives, if_neg (by simpa using h)]
  rfl

/-- The bindings of a tag are numbered in their order. -/
theorem extractDirectives_extracts (ds : List Directive) (a : Allocation) :
    Extracts a (extractDirectives ds a).1.2 (directiveParts (extractDirectives ds a).1.1)
      (directiveParts (extractDirectives ds a).1.1) (extractDirectives ds a).2 := by
  induction ds generalizing a with
  | nil => exact .nil rfl
  | cons d ds ih =>
    cases d with
    | structural s l => exact ih a
    | unsupported name value l => exact ih a
    | binding b =>
      by_cases hb : b.kind = .event
      · rw [extractDirectives_event hb, directiveParts, List.filterMap_cons, Directive.part?,
          if_pos hb]
        exact ih a
      · rw [extractDirectives_bound hb, directiveParts, List.filterMap_cons, Directive.part?,
          if_neg hb]
        exact (Extracts.fresh (.field b.expression) rfl).append (ih _)

/-- So is the condition of a branch, if it has one. -/
theorem extractCondition_extracts (info : BranchInfo) (a : Allocation) :
    Extracts a (extractCondition info.condition a).1.2
      (BranchInfo.parts { info with key := (extractCondition info.condition a).1.1 })
      (BranchInfo.parts { info with key := (extractCondition info.condition a).1.1 })
      (extractCondition info.condition a).2 := by
  cases h : info.condition with
  | none =>
    exact .nil rfl
  | some e =>
    exact .fresh (.field e) rfl

/-- What a slot passes to its outlet does not hang on its keys. -/
theorem SlotInfo.props_keys (slot : SlotInfo) (keys : SlotKeys) :
    SlotInfo.props { slot with keys } = slot.props := rfl

/-- The identity of a slot's outlet is bound where it is referred to, and only keys of the slot
change. -/
theorem extractIdentity_extracts {slot : SlotInfo} {r : Resolution} (hr : slot.resolution = some r)
    (a : Allocation) :
    ∃ keys, (extractIdentity slot r a).1.1 = { slot with keys } ∧
      Extracts a (extractIdentity slot r a).1.2
        ((slot.identity? .markup).toList.map (keys.name, ·))
        ((slot.identity? .markup).toList.map (keys.name, ·)) (extractIdentity slot r a).2 := by
  obtain ⟨base, path, branch, fallback⟩ := r
  obtain ⟨static, dynamic, attributes, directives, closing, resolution, keys, location⟩ := slot
  cases hr
  cases base with
  | fixed name =>
    cases path with
    | nil => exact ⟨keys, rfl, .nil rfl⟩
    | cons d ds => exact ⟨_, rfl, .fresh (.outletName _ _) rfl⟩
  | computed e =>
    cases path with
    | nil => exact ⟨_, rfl, .fresh (.display e) rfl⟩
    | cons d ds => exact ⟨_, rfl, .fresh (.outletName _ _) rfl⟩

/-- Nothing is extracted from a slot that was not resolved. -/
theorem extractSlot_unresolved {slot : SlotInfo} (hr : slot.resolution = none)
    (capabilities : Capabilities) (a : Allocation) :
    extractSlot capabilities slot a = ((slot, []), a) := by
  rw [extractSlot, hr]
  rfl

section Slot

variable {slot : SlotInfo} {r : Resolution} (hr : slot.resolution = some r)
include hr

/-- In calls every slot has an outlet. -/
theorem SlotInfo.outlet?_calls :
    slot.outlet? .calls = some (.outlet ⟨r.base, slot.props, r.loopPath⟩) := by
  rw [SlotInfo.outlet?, hr]
  rfl

/-- In markup only slots in loops or with properties have one. -/
theorem SlotInfo.outlet?_markup :
    slot.outlet? .markup = if r.isIterated || !slot.props.isEmpty then
      some (.outlet ⟨r.base, slot.props, r.loopPath⟩) else none := by
  rw [SlotInfo.outlet?, hr]
  rfl

variable (introspects localKeys : Bool) (default : String) (a : Allocation)

theorem extractSlot_calls :
    extractSlot ⟨.calls, introspects, localKeys, default⟩ slot a = extractOutlet slot r a := by
  rw [extractSlot, hr]

theorem extractSlot_markup :
    extractSlot ⟨.markup, introspects, localKeys, default⟩ slot a =
      let i := extractIdentity slot r a
      (if r.isIterated || !i.1.1.props.isEmpty then do
        let (slot, outlet) ← extractOutlet i.1.1 r
        return (slot, i.1.2 ++ outlet)
      else return i.1 : Extract (SlotInfo × Record)) i.2 := by
  rw [extractSlot, hr]
  rfl

end Slot

/-- The slot with the keys of its parts, and the record of them. -/
theorem extractSlot_extracts (capabilities : Capabilities) (slot : SlotInfo) (a : Allocation) :
    Extracts a (extractSlot capabilities slot a).1.2
      ((extractSlot capabilities slot a).1.1.parts capabilities.family)
      ((extractSlot capabilities slot a).1.1.parts capabilities.family)
      (extractSlot capabilities slot a).2 := by
  obtain ⟨family, introspects, localKeys, default⟩ := capabilities
  cases hr : slot.resolution with
  | none =>
    have hp : slot.parts family = [] := by
      cases family <;> simp [SlotInfo.parts, SlotInfo.identity?, SlotInfo.outlet?, hr]
    rw [extractSlot_unresolved hr, hp]
    exact .nil rfl
  | some r =>
    cases family with
    | calls =>
      rw [extractSlot_calls hr]
      show Extracts a _ (_ ++ (slot.outlet? .calls).toList.map _)
        (_ ++ (slot.outlet? .calls).toList.map _) _
      rw [SlotInfo.outlet?_calls hr]
      exact .fresh (.outlet _) rfl
    | markup =>
      obtain ⟨keys, hs, hi⟩ := extractIdentity_extracts hr a
      rw [extractSlot_markup hr]
      dsimp only
      rw [hs]
      by_cases h : (r.isIterated || !slot.props.isEmpty) = true
      · rw [SlotInfo.props_keys, if_pos h]
        show Extracts a _ (_ ++ (slot.outlet? .markup).toList.map _)
          (_ ++ (slot.outlet? .markup).toList.map _) _
        rw [SlotInfo.outlet?_markup hr, if_pos h]
        exact hi.append (.fresh (.outlet _) rfl)
      · rw [SlotInfo.props_keys, if_neg h]
        show Extracts a _ ((extractIdentity slot r a).1.1.parts .markup)
          ((extractIdentity slot r a).1.1.parts .markup) _
        rw [hs]
        show Extracts a _ (_ ++ (slot.outlet? .markup).toList.map _)
          (_ ++ (slot.outlet? .markup).toList.map _) _
        rw [SlotInfo.outlet?_markup hr, if_neg h]
        have hx := hi.append (.nil rfl)
        rwa [List.append_nil (extractIdentity slot r a).1.2] at hx

/-! ## Nodes -/

/-- Where keys are numbered anew in a loop, its nodes start with the first key. -/
theorem Node.extract_loop_local {capabilities : Capabilities} (h : capabilities.localKeys = true)
    (info : LoopInfo) (children : List Node) (a : Allocation) :
    Node.extract capabilities (.loop info children) a =
      let body := Node.extractAll capabilities children { a with next := 0 }
      ((.loop { info with key := some (Key.number a.next) } body.1.1,
        [(Key.number a.next, .loop info.source info.item info.index info.depth body.1.2)]),
        { next := a.next + 1, helpers := body.2.helpers.insert .forEach }) := by
  rw [Node.extract, inLoop, if_pos h]
  rfl

/-- Where keys are not local, a loop takes a key and goes on counting in its body. -/
theorem Node.extract_loop_shared {capabilities : Capabilities}
    (h : ¬capabilities.localKeys = true) (info : LoopInfo) (children : List Node)
    (a : Allocation) :
    Node.extract capabilities (.loop info children) a =
      let body := Node.extractAll capabilities children { a with next := a.next + 1 }
      ((.loop { info with key := some (Key.number a.next) } body.1.1,
        [(Key.number a.next, .loop info.source info.item info.index info.depth body.1.2)]),
        { body.2 with helpers := body.2.helpers.insert .forEach }) := by
  rw [Node.extract, inLoop, if_neg h]
  rfl

theorem Branch.extractAll_cons (capabilities : Capabilities) (info : BranchInfo)
    (children : List Node) (rest : List Branch) (a : Allocation) :
    Branch.extractAll capabilities (.mk info children :: rest) a =
      let own := extractCondition info.condition a
      let body := Node.extractAll capabilities children own.2
      let more := Branch.extractAll capabilities rest body.2
      ((.mk { info with key := own.1.1 } body.1.1 :: more.1.1,
        .mk info.condition own.1.1 (own.1.2 ++ body.1.2) :: more.1.2), more.2) := by
  rw [Branch.extractAll]
  rfl

mutual

/-- The node with the keys of its parts, and the record of them. -/
theorem Node.extract_extracts (capabilities : Capabilities) (n : Node) (a : Allocation) :
    Extracts a (n.extract capabilities a).1.2
      ((n.extract capabilities a).1.1.parts capabilities.family)
      ((n.extract capabilities a).1.1.numbered capabilities) (n.extract capabilities a).2 := by
  match n with
  | .element info children =>
    rw [Node.extract]
    exact (extractDirectives_extracts info.directives a).append
      (Node.extractAll_extracts capabilities children _)
  | .text value location =>
    rw [Node.extract]
    exact .nil rfl
  | .interpolation e key location =>
    rw [Node.extract]
    exact .fresh (.display e) rfl
  | .slot info fallback =>
    rw [Node.extract]
    exact (extractSlot_extracts capabilities info a).append
      (Node.extractAll_extracts capabilities fallback _)
  | .chain branches key location =>
    rw [Node.extract]
    obtain ⟨hm, hn⟩ :=
      Branch.extractAll_extracts capabilities branches { a with next := a.next + 1 }
    show Extracts a [(_, .merge (Branch.extractAll capabilities branches _).1.2)] _ _ _
    rw [hm]
    exact .around (.merge _) hn rfl
  | .loop info children =>
    by_cases hl : capabilities.localKeys = true
    · have h := Node.extractAll_extracts capabilities children { a with next := 0 }
      rw [Node.extract_loop_local hl]
      dsimp only
      rw [h.record_eq, Node.numbered, if_pos hl]
      exact .fresh (.loop _ _ _ _ _) rfl
    · have h := Node.extractAll_extracts capabilities children { a with next := a.next + 1 }
      rw [Node.extract_loop_shared hl]
      dsimp only
      rw [h.record_eq, Node.numbered, if_neg hl]
      exact .around (.loop _ _ _ _ _) h.toNumbers rfl
  | .comment value location =>
    rw [Node.extract]
    exact .nil rfl

/-- The nodes with the keys of their parts, and the record of them. -/
theorem Node.extractAll_extracts (capabilities : Capabilities) (ns : List Node) (a : Allocation) :
    Extracts a (Node.extractAll capabilities ns a).1.2
      (Node.partsAll capabilities.family (Node.extractAll capabilities ns a).1.1)
      (Node.numberedAll capabilities (Node.extractAll capabilities ns a).1.1)
      (Node.extractAll capabilities ns a).2 := by
  match ns with
  | [] => exact .nil rfl
  | n :: rest =>
    rw [Node.extractAll]
    exact (Node.extract_extracts capabilities n a).append
      (Node.extractAll_extracts capabilities rest _)

/-- The branches with the keys of their parts, and the records of their scopes. -/
theorem Branch.extractAll_extracts (capabilities : Capabilities) (bs : List Branch)
    (a : Allocation) :
    (Branch.extractAll capabilities bs a).1.2 =
        Branch.mergedAll capabilities.family (Branch.extractAll capabilities bs a).1.1 ∧
      Numbers a (Branch.numberedAll capabilities (Branch.extractAll capabilities bs a).1.1)
        (Branch.extractAll capabilities bs a).2 := by
  match bs with
  | [] => exact ⟨rfl, .nil rfl⟩
  | .mk info children :: rest =>
    have hc := extractCondition_extracts info a
    have hn := Node.extractAll_extracts capabilities children (extractCondition info.condition a).2
    obtain ⟨hm, hr⟩ := Branch.extractAll_extracts capabilities rest
      (Node.extractAll capabilities children (extractCondition info.condition a).2).2
    have h := hc.append hn
    rw [Branch.extractAll_cons]
    dsimp only
    rw [h.record_eq, hm]
    exact ⟨rfl, h.toNumbers.append hr⟩

end

/-! ## Scopes -/

/-- The next keys. -/
def Extract.freshKeys : Nat → Extract (List Key)
  | 0 => return []
  | n + 1 => do
    let key ← freshKey
    let rest ← freshKeys n
    return key :: rest

/-- Fresh keys are the numbers from the next one on. -/
theorem Extract.freshKeys_eq (n : Nat) (a : Allocation) :
    (freshKeys n a).1 = (List.range' a.next n).map Key.number := by
  induction n generalizing a with
  | zero => rfl
  | succ n ih =>
    show Key.number a.next :: (freshKeys n { a with next := a.next + 1 }).1 = _
    rw [ih, List.range'_succ, List.map_cons]

/-- The keys of parts are the first ones that a fresh allocator gives out, in their order. -/
def FirstKeys (parts : List Part) : Prop :=
  parts.map Prod.fst = ((freshKeys parts.length).run {}).1.map some

/-- The first keys are the numbers from zero on. -/
theorem firstKeys_iff (parts : List Part) :
    FirstKeys parts ↔
      parts.map Prod.fst = (List.range parts.length).map fun n => some (Key.number n) := by
  rw [FirstKeys, List.range_eq_range']
  show _ = (freshKeys parts.length {}).1.map some ↔ _
  rw [freshKeys_eq, List.map_map]
  rfl

/-- What is numbered by a fresh allocation has the first keys. -/
theorem Numbers.firstKeys {a b : Allocation} {parts : List Part} (h : Numbers a parts b)
    (ha : a.next = 0) : FirstKeys parts := by
  rw [firstKeys_iff, h.keys_eq, ha, List.range_eq_range']

/-- Every loop below a node numbers its keys anew. -/
def Restarts (capabilities : Capabilities) (nodes : List Node) : Prop :=
  ∀ info children, Node.loop info children ∈ nodes →
    FirstKeys (Node.numberedAll capabilities children)

/-- Loops of two lists of nodes number their keys anew if those of each do. -/
theorem Restarts.append {capabilities : Capabilities} {ns ns' : List Node}
    (h : Restarts capabilities ns) (h' : Restarts capabilities ns') :
    Restarts capabilities (ns ++ ns') := by
  intro info children hm
  rcases List.mem_append.mp hm with hm | hm
  · exact h info children hm
  · exact h' info children hm

theorem Restarts.nil (capabilities : Capabilities) : Restarts capabilities [] := by
  intro info children hm
  exact absurd hm List.not_mem_nil

/-- A node that is no loop adds nothing. -/
theorem Restarts.cons {capabilities : Capabilities} {n : Node} {ns : List Node}
    (hn : ∀ info children, n ≠ .loop info children) (h : Restarts capabilities ns) :
    Restarts capabilities (n :: ns) := by
  intro info children hm
  rcases List.mem_cons.mp hm with hm | hm
  · exact absurd hm.symm (hn info children)
  · exact h info children hm

mutual

/-- Where keys are local, all loops within a node number their keys anew. -/
theorem Node.extract_restarts {capabilities : Capabilities} (hl : capabilities.localKeys = true)
    (n : Node) (a : Allocation) : Restarts capabilities (n.extract capabilities a).1.1.within := by
  match n with
  | .element info children =>
    rw [Node.extract]
    exact .cons (by simp) (Node.extractAll_restarts hl children _)
  | .text value location =>
    rw [Node.extract]
    exact .cons (by simp) (.nil _)
  | .interpolation e key location =>
    rw [Node.extract]
    exact .cons (by simp) (.nil _)
  | .slot info fallback =>
    rw [Node.extract]
    exact .cons (by simp) (Node.extractAll_restarts hl fallback _)
  | .chain branches key location =>
    rw [Node.extract]
    exact .cons (by simp) (Branch.extractAll_restarts hl branches _)
  | .loop info children =>
    rw [Node.extract_loop_local hl]
    dsimp only
    intro info' children' hm
    rcases List.mem_cons.mp hm with hm | hm
    · cases hm
      exact (Node.extractAll_extracts capabilities children _).firstKeys rfl
    · exact Node.extractAll_restarts hl children _ info' children' hm
  | .comment value location =>
    rw [Node.extract]
    exact .cons (by simp) (.nil _)

theorem Node.extractAll_restarts {capabilities : Capabilities} (hl : capabilities.localKeys = true)
    (ns : List Node) (a : Allocation) :
    Restarts capabilities (Node.withinAll (Node.extractAll capabilities ns a).1.1) := by
  match ns with
  | [] => exact .nil _
  | n :: rest =>
    rw [Node.extractAll]
    exact (Node.extract_restarts hl n a).append (Node.extractAll_restarts hl rest _)

theorem Branch.extractAll_restarts {capabilities : Capabilities}
    (hl : capabilities.localKeys = true) (bs : List Branch) (a : Allocation) :
    Restarts capabilities (Branch.withinAll (Branch.extractAll capabilities bs a).1.1) := by
  match bs with
  | [] => exact .nil _
  | .mk info children :: rest =>
    rw [Branch.extractAll_cons]
    exact (Node.extractAll_restarts hl children _).append (Branch.extractAll_restarts hl rest _)

end

end UiTemplate
