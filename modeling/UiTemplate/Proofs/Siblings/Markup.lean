import UiTemplate.Proofs.Siblings.Step
import UiTemplate.Proofs.Template.Shape
import UiTemplate.Proofs.Tolerance.Markup

/-!
# Markup beside a fault

The markup of a node hangs on the scope, on the attributes that wait for it and on whether a loop
repeats it. Attributes wait from a chain or a loop to the node they govern, and a fault may come in
between; whoever handles the fault clears them.

- `Markup.emit_alike`: what was noted before has no influence.
- `Markup.emit_keepsScope`: the scope is put back, however a node ends.
- `Markup.emit_settles`: nothing waits after a node that succeeds.
- `Markup.emitChild_surroundings`: a child leaves the surroundings of its siblings alone.
- `Markup.emitAll_output`: children are emitted as each of them is on its own.
-/

namespace UiTemplate

/-- The scope, the attributes that wait for a node, and whether a loop repeats it. -/
def MarkupState.surroundings (s : MarkupState) : List String × List MarkupAttribute × Bool :=
  (s.scope, s.pending, s.loopOwner)

/-- Nothing waits for a node. -/
structure MarkupState.Settled (s : MarkupState) : Prop where
  pending : s.pending = []
  loopOwner : s.loopOwner = false

/-- Whether the node is an element. -/
def Node.isElement : Node → Bool
  | .element .. => true
  | _ => false

namespace Markup

/-- What surrounds a node is its scope, what is pending for it and whether it is what a loop
repeats. -/
theorem surroundings_eq {s t : MarkupState} (h : s.surroundings = t.surroundings) :
    s.scope = t.scope ∧ s.pending = t.pending ∧ s.loopOwner = t.loopOwner := by
  simpa [MarkupState.surroundings] using h

/-- Two steps that hang on the surroundings alone. -/
abbrev Alike {α : Type} (x y : EmitMarkup α) : Prop :=
  Emit.Alike MarkupState.surroundings x y

/-! ## Parts of nodes hang on their surroundings alone -/

section Alike

variable (settings : MarkupSettings) (path : Path)

theorem takePending_alike : Alike takePending takePending := by
  intro s t h
  obtain ⟨hs, hp, hl⟩ := surroundings_eq h
  refine ⟨congrArg Except.ok hp, ?_⟩
  show (s.scope, [], s.loopOwner) = (t.scope, [], t.loopOwner)
  rw [hs, hl]

theorem takeLoopOwner_alike : Alike takeLoopOwner takeLoopOwner := by
  intro s t h
  obtain ⟨hs, hp, hl⟩ := surroundings_eq h
  refine ⟨congrArg Except.ok hl, ?_⟩
  show (s.scope, s.pending, false) = (t.scope, t.pending, false)
  rw [hs, hp]

theorem note_alike (d : Diagnostic) : Alike (note d) (note d) := by
  refine .modify fun s t h => ?_
  obtain ⟨hs, -, -⟩ := surroundings_eq h
  simp [MarkupState.surroundings, hs]

/-- An element is emitted alike in the same surroundings, if its children are. -/
theorem elementMarkup_alike (info : ElementInfo) (children : List Node)
    {c : EmitMarkup (List String)} (hc : Alike c c) :
    Alike (elementMarkup settings path info children c)
      (elementMarkup settings path info children c) := by
  refine (Emit.checkDirectives_alike _ _).bind fun _ => takeLoopOwner_alike.bind fun owner =>
    takePending_alike.bind fun pending => .get fun s t h => ?_
  rw [(surroundings_eq h).1]
  refine (Emit.Alike.ofExcept _).bind fun own => ?_
  dsimp only
  split
  · exact .pure _
  · exact hc.bind fun _ => .pure _

/-- So is a slot, if its fallback is. -/
theorem slotMarkup_alike (info : SlotInfo) {c : EmitMarkup (List String)} (hc : Alike c c) :
    Alike (slotMarkup settings path info c) (slotMarkup settings path info c) := by
  refine (Emit.checkDirectives_alike _ _).bind fun _ => ?_
  cases info.resolution with
  | none => exact .throw _
  | some r =>
    refine takePending_alike.bind fun pending => .get fun s t h => ?_
    dsimp only
    rw [(surroundings_eq h).1]
    split
    · exact .pure _
    · exact hc.bind fun _ => .pure _

theorem branchMarkup_alike (key : Option Key) (info : BranchInfo) {x : EmitMarkup String}
    (hx : Alike x x) :
    Alike (branchMarkup settings key info x) (branchMarkup settings key info x) := by
  refine .within (Emit.Alike.bind (.modify fun s t h => ?_) fun _ => hx)
    (fun s t h => ?_) fun s t s' t' h h' => ?_
  · obtain ⟨hs, -, hl⟩ := surroundings_eq h
    simp [MarkupState.surroundings, hs, hl]
  · obtain ⟨hs, hp, hl⟩ := surroundings_eq h
    simp [MarkupState.surroundings, hs, hp, hl]
  · obtain ⟨hs, -, -⟩ := surroundings_eq h
    obtain ⟨-, hp, hl⟩ := surroundings_eq h'
    simp [MarkupState.surroundings, hs, hp, hl]

/-- So is a loop, if the node is that it repeats. -/
theorem loopMarkup_alike (info : LoopInfo) (children : List Node) {x : EmitMarkup String}
    (hx : Alike x x) :
    Alike (loopMarkup settings info children x) (loopMarkup settings info children x) := by
  refine takePending_alike.bind fun outer => .get fun s t h => ?_
  refine Emit.Alike.bind (.within (hx.bind fun child => takePending_alike.bind fun _ => .pure _)
    (fun s' t' h' => ?_) fun _ _ s' t' _ _ => ?_) fun _ => .pure _
  · obtain ⟨hs, -, -⟩ := surroundings_eq h'
    simp [MarkupState.surroundings, hs]
  · obtain ⟨hs, -, -⟩ := surroundings_eq h
    simp [MarkupState.surroundings, hs]

end Alike

section Nodes

variable (settings : MarkupSettings)

/-- The markup of a child; none if it fails and faults are tolerated. -/
def emitChild (path : Path) (n : Node) : EmitMarkup (Option String) :=
  Emit.handle settings.tolerant note (emit settings path n)

/-- Children are handled one by one. -/
theorem emitAll_cons (parent : Path) (index : Nat) (n : Node) (rest : List Node) :
    emitAll settings parent index (n :: rest) = (do
      let markup ← emitChild settings (parent.child index) n
      let more ← emitAll settings parent (index + 1) rest
      return markup.toList ++ more) := by
  rw [emitAll, emitChild, Emit.handle, bind_assoc]
  refine bind_congr fun r => ?_
  cases r with
  | ok markup => simp
  | error d =>
    dsimp only
    split
    · simp
    · rfl

mutual

/-- A node is emitted alike in the same surroundings, whatever was emitted before. -/
theorem emit_alike (path : Path) (n : Node) :
    Alike (emit settings path n) (emit settings path n) := by
  match n with
  | .element info children =>
    rw [emit]
    exact elementMarkup_alike settings path info children (emitAll_alike path 0 children)
  | .text value l =>
    rw [emit]
    exact takePending_alike.bind fun _ => .pure _
  | .interpolation e key l =>
    rw [emit]
    refine takePending_alike.bind fun _ => .get fun s t h => ?_
    rw [(surroundings_eq h).1]
    exact .pure _
  | .slot info fallback =>
    rw [emit]
    exact slotMarkup_alike settings path info (emitAll_alike path 0 fallback)
  | .chain branches key l =>
    rw [emit]
    exact takePending_alike.bind fun _ => (emitBranches_alike path 0 key branches).bind fun _ =>
      .pure _
  | .loop info children =>
    rw [emit]
    exact loopMarkup_alike settings info children (emitFirst_alike path children)
  | .comment value l =>
    rw [emit]
    exact .pure _

theorem emitFirst_alike (path : Path) (ns : List Node) :
    Alike (emitFirst settings path ns) (emitFirst settings path ns) := by
  match ns with
  | [] =>
    rw [emitFirst]
    exact .pure _
  | n :: _ =>
    rw [emitFirst]
    exact emit_alike _ n

theorem emitAll_alike (parent : Path) (index : Nat) (ns : List Node) :
    Alike (emitAll settings parent index ns) (emitAll settings parent index ns) := by
  match ns with
  | [] =>
    rw [emitAll]
    exact .pure _
  | n :: rest =>
    have hn : Alike (emitChild settings (parent.child index) n)
        (emitChild settings (parent.child index) n) :=
      (emit_alike (parent.child index) n).handle settings.tolerant note_alike
    rw [emitAll_cons]
    exact hn.bind fun _ => (emitAll_alike parent (index + 1) rest).bind fun _ => .pure _

theorem emitBranches_alike (parent : Path) (index : Nat) (key : Option Key) (bs : List Branch) :
    Alike (emitBranches settings parent index key bs)
      (emitBranches settings parent index key bs) := by
  match bs with
  | [] =>
    rw [emitBranches]
    exact .pure _
  | .mk info [] :: rest =>
    rw [emitBranches]
    exact emitBranches_alike parent (index + 1) key rest
  | .mk info (n :: _) :: rest =>
    rw [emitBranches]
    refine (branchMarkup_alike settings key info (emit_alike _ n)).bind fun _ => ?_
    exact (emitBranches_alike parent (index + 1) key rest).bind fun _ => .pure _

end

/-! ## The scope is put back -/

/-- A step that leaves the scope as it was. -/
abbrev KeepsScope {α : Type} (step : EmitMarkup α) : Prop :=
  Emit.Keeps MarkupState.scope step

theorem takePending_keepsScope : KeepsScope takePending :=
  fun _ => rfl

theorem takeLoopOwner_keepsScope : KeepsScope takeLoopOwner :=
  fun _ => rfl

theorem note_keepsScope (d : Diagnostic) : KeepsScope (note d) :=
  .modify fun _ => rfl

/-- An element leaves the scope as it was. -/
theorem elementMarkup_keepsScope (path : Path) (info : ElementInfo) (children : List Node)
    {c : EmitMarkup (List String)} (hc : KeepsScope c) :
    KeepsScope (elementMarkup settings path info children c) := by
  refine (Emit.checkDirectives_keeps _ _).bind fun _ => takeLoopOwner_keepsScope.bind fun owner =>
    takePending_keepsScope.bind fun pending => Emit.Keeps.get.bind fun s =>
      (Emit.Keeps.ofExcept _).bind fun own => ?_
  dsimp only
  split
  · exact .pure _
  · exact hc.bind fun _ => .pure _

theorem slotMarkup_keepsScope (path : Path) (info : SlotInfo) {c : EmitMarkup (List String)}
    (hc : KeepsScope c) : KeepsScope (slotMarkup settings path info c) := by
  refine (Emit.checkDirectives_keeps _ _).bind fun _ => ?_
  cases info.resolution with
  | none => exact .throw _
  | some r =>
    refine takePending_keepsScope.bind fun pending => Emit.Keeps.get.bind fun s => ?_
    dsimp only
    split
    · exact .pure _
    · exact hc.bind fun _ => .pure _

theorem branchMarkup_keepsScope (key : Option Key) (info : BranchInfo) (x : EmitMarkup String) :
    KeepsScope (branchMarkup settings key info x) :=
  fun _ => rfl

/-- A loop leaves its scope when it is done. -/
theorem loopMarkup_keepsScope (info : LoopInfo) (children : List Node) (x : EmitMarkup String) :
    KeepsScope (loopMarkup settings info children x) := by
  refine takePending_keepsScope.bind fun outer => ?_
  let leave (s : MarkupState) (_ after : MarkupState) : MarkupState :=
    { after with scope := s.scope, pending := [], loopOwner := false }
  have hleave (s s' : MarkupState) : (leave s s s').scope = s.scope := rfl
  exact Emit.Keeps.restored hleave fun _ => .pure _

mutual

/-- Every node leaves the scope as it was. -/
theorem emit_keepsScope (path : Path) (n : Node) : KeepsScope (emit settings path n) := by
  match n with
  | .element info children =>
    rw [emit]
    exact elementMarkup_keepsScope settings path info children (emitAll_keepsScope path 0 children)
  | .text value l =>
    rw [emit]
    exact takePending_keepsScope.bind fun _ => .pure _
  | .interpolation e key l =>
    rw [emit]
    exact takePending_keepsScope.bind fun _ => Emit.Keeps.get.bind fun _ => .pure _
  | .slot info fallback =>
    rw [emit]
    exact slotMarkup_keepsScope settings path info (emitAll_keepsScope path 0 fallback)
  | .chain branches key l =>
    rw [emit]
    exact takePending_keepsScope.bind fun _ =>
      (emitBranches_keepsScope path 0 key branches).bind fun _ => .pure _
  | .loop info children =>
    rw [emit]
    exact loopMarkup_keepsScope settings info children _
  | .comment value l =>
    rw [emit]
    exact .pure _

theorem emitAll_keepsScope (parent : Path) (index : Nat) (ns : List Node) :
    KeepsScope (emitAll settings parent index ns) := by
  match ns with
  | [] =>
    rw [emitAll]
    exact .pure _
  | n :: rest =>
    have hn : KeepsScope (emitChild settings (parent.child index) n) :=
      (emit_keepsScope (parent.child index) n).handle settings.tolerant note_keepsScope
    rw [emitAll_cons]
    exact hn.bind fun _ => (emitAll_keepsScope parent (index + 1) rest).bind fun _ => .pure _

theorem emitBranches_keepsScope (parent : Path) (index : Nat) (key : Option Key)
    (bs : List Branch) : KeepsScope (emitBranches settings parent index key bs) := by
  match bs with
  | [] =>
    rw [emitBranches]
    exact .pure _
  | .mk info [] :: rest =>
    rw [emitBranches]
    exact emitBranches_keepsScope parent (index + 1) key rest
  | .mk info (n :: _) :: rest =>
    rw [emitBranches]
    refine (branchMarkup_keepsScope settings key info _).bind fun _ => ?_
    exact (emitBranches_keepsScope parent (index + 1) key rest).bind fun _ => .pure _

end

/-! ## Nothing waits after a node -/

/-- A step after which nothing waits, if `pre` holds before it. -/
abbrev Settles {α : Type} (pre : MarkupState → Prop) (step : EmitMarkup α) : Prop :=
  Emit.Yields pre step MarkupState.Settled

/-- No loop repeats the node. -/
def Unowned (s : MarkupState) : Prop :=
  s.loopOwner = false

/-- What waits is taken by the node: only an element is repeated by a loop on its own, and a comment
takes nothing. -/
structure Fits (n : Node) (s : MarkupState) : Prop where
  owner : s.loopOwner = true → n.isElement = true
  comment : n.isComment = true → s.pending = []

/-- Only an element is what a loop repeats. -/
theorem unowned_of_owner {n : Node} {s : MarkupState} (h : s.loopOwner = true → n.isElement = true)
    (hn : n.isElement = false) : Unowned s := by
  unfold Unowned
  cases ho : s.loopOwner with
  | false => rfl
  | true => simp [h ho] at hn

theorem Fits.unowned {n : Node} {s : MarkupState} (h : Fits n s) (hn : n.isElement = false) :
    Unowned s :=
  unowned_of_owner h.owner hn

/-- Where nothing is pending every node fits. -/
theorem Fits.of_settled {s : MarkupState} (h : s.Settled) (n : Node) : Fits n s :=
  ⟨fun ho => by simp [h.loopOwner] at ho, fun _ => h.pending⟩

/-- Where no loop waits for its node all but comments fit. -/
theorem Fits.of_unowned {n : Node} {s : MarkupState} (h : Unowned s) (hn : n.isComment = false) :
    Fits n s :=
  ⟨fun ho => by simp [show s.loopOwner = false from h] at ho, fun hc => by simp [hc] at hn⟩

theorem run_checkDirectives_state {ds : List Directive} {path : Path} {u : Unit}
    {s s' : MarkupState}
    (h : (Emit.checkDirectives ds path : EmitMarkup Unit).run s = (.ok u, s')) : s' = s := by
  have hkeeps : Emit.Keeps id (Emit.checkDirectives ds path : EmitMarkup Unit) :=
    Emit.checkDirectives_keeps ds path
  have hs := hkeeps s
  rw [h] at hs
  exact hs

/-- What was pending is taken by the first node. -/
theorem takePending_settles : Settles Unowned takePending := by
  intro s a s' hs hr
  obtain ⟨-, rfl⟩ := Prod.mk.inj hr
  exact ⟨rfl, hs⟩

theorem note_settles (d : Diagnostic) : Settles (fun _ => True) (note d) :=
  .modify fun _ _ => ⟨rfl, rfl⟩

/-- An element takes what is pending, so that nothing is left for its children. -/
theorem elementMarkup_settles (path : Path) (info : ElementInfo) (children : List Node)
    {c : EmitMarkup (List String)} (hc : Settles MarkupState.Settled c) :
    Settles (fun _ => True) (elementMarkup settings path info children c) := by
  have hdirectives : Emit.Yields (fun _ => True)
      (Emit.checkDirectives info.directives path : EmitMarkup Unit) (fun _ => True) :=
    fun _ _ _ _ _ => trivial
  have howner : Emit.Yields (fun _ => True) takeLoopOwner Unowned := by
    intro s a s' _ hr
    obtain ⟨-, rfl⟩ := Prod.mk.inj hr
    rfl
  refine hdirectives.bind fun _ => howner.bind fun owner => takePending_settles.bind fun pending =>
    (Emit.Yields.get fun _ h => h).bind fun s => (Emit.Yields.ofExcept _ fun _ h => h).bind fun own =>
      ?_
  dsimp only
  split
  · exact .pure _ fun _ h => h
  · exact hc.bind fun _ => .pure _ fun _ h => h

theorem slotMarkup_settles (path : Path) (info : SlotInfo) {c : EmitMarkup (List String)}
    (hc : Settles MarkupState.Settled c) : Settles Unowned (slotMarkup settings path info c) := by
  have hdirectives : Emit.Yields Unowned
      (Emit.checkDirectives info.directives path : EmitMarkup Unit) Unowned := by
    intro s a s' hs hr
    rw [run_checkDirectives_state hr]
    exact hs
  refine hdirectives.bind fun _ => ?_
  cases info.resolution with
  | none => exact .throw _
  | some r =>
    refine takePending_settles.bind fun pending => (Emit.Yields.get fun _ h => h).bind fun s => ?_
    dsimp only
    split
    · exact .pure _ fun _ h => h
    · exact hc.bind fun _ => .pure _ fun _ h => h

/-- A branch puts its condition on its node. -/
theorem branchMarkup_settles (key : Option Key) (info : BranchInfo) {x : EmitMarkup String}
    (hx : Settles Unowned x) : Settles Unowned (branchMarkup settings key info x) := by
  have hnode : Settles Unowned (do
      modify fun s => { s with pending := [branchAttribute settings s.scope info] }
      x) :=
    Emit.Yields.bind (.modify fun _ h => h) fun _ => hx
  unfold branchMarkup inScope
  refine Emit.Yields.within hnode ?_ ?_
  · exact fun _ h => h
  · exact fun _ _ h => ⟨h.pending, h.loopOwner⟩

/-- However its node is emitted: a loop clears what waits. -/
theorem loopMarkup_settles (info : LoopInfo) (children : List Node) (x : EmitMarkup String) :
    Settles (fun _ => True) (loopMarkup settings info children x) := by
  have hpending : Emit.Yields (fun _ => True) takePending fun _ => True :=
    fun _ _ _ _ _ => trivial
  refine hpending.bind fun outer => (Emit.Yields.get fun _ h => h).bind fun s => ?_
  have hnode : Emit.Yields (fun _ => True) (do
      let child ← x
      let leftover ← takePending
      return (child, leftover)) fun _ => True :=
    fun _ _ _ _ _ => trivial
  exact (hnode.within (fun _ h => h) fun _ _ _ => ⟨rfl, rfl⟩).bind fun _ => .pure _ fun _ h => h

/-- A child that is emitted as it should be leaves nothing waiting, and neither does its fault. -/
theorem emitChild_settles {path : Path} {n : Node} (h : Settles (Fits n) (emit settings path n)) :
    Settles MarkupState.Settled (emitChild settings path n) :=
  .handle settings.tolerant note_settles (h.imp (fun _ hs => Fits.of_settled hs n) fun _ hs => hs)

mutual

/-- A node that fits leaves nothing pending behind. -/
theorem emit_settles (path : Path) (n : Node) (hs : n.Shaped) :
    Settles (Fits n) (emit settings path n) := by
  match n with
  | .element info children =>
    rw [emit]
    have hall := emitAll_settles path 0 children (List.forall_mem_cons.mp hs).2
    exact (elementMarkup_settles settings path info children hall).imp (fun _ _ => trivial)
      fun _ h => h
  | .text value l =>
    rw [emit]
    exact Emit.Yields.bind (takePending_settles.imp (fun _ h => h.unowned rfl) fun _ h => h)
      fun _ => .pure _ fun _ h => h
  | .interpolation e key l =>
    rw [emit]
    exact Emit.Yields.bind (takePending_settles.imp (fun _ h => h.unowned rfl) fun _ h => h)
      fun _ => (Emit.Yields.get fun _ h => h).bind fun _ => .pure _ fun _ h => h
  | .slot info fallback =>
    rw [emit]
    have hall := emitAll_settles path 0 fallback (List.forall_mem_cons.mp hs).2
    exact (slotMarkup_settles settings path info hall).imp (fun _ h => h.unowned rfl) fun _ h => h
  | .chain branches key l =>
    obtain ⟨hb, hm⟩ := List.forall_mem_cons.mp hs
    rw [emit]
    exact Emit.Yields.bind (takePending_settles.imp (fun _ h => h.unowned rfl) fun _ h => h)
      fun _ => (emitBranches_settles path 0 key branches hb hm).bind fun _ => .pure _ fun _ h => h
  | .loop info children =>
    rw [emit]
    exact (loopMarkup_settles settings info children _).imp (fun _ _ => trivial) fun _ h => h
  | .comment value l =>
    rw [emit]
    exact .pure _ fun _ h => ⟨h.comment rfl, h.unowned rfl⟩

/-- Neither do the children of a node. -/
theorem emitAll_settles (parent : Path) (index : Nat) (ns : List Node) (hs : Node.ShapedAll ns) :
    Settles MarkupState.Settled (emitAll settings parent index ns) := by
  match ns with
  | [] =>
    rw [emitAll]
    exact .pure _ fun _ h => h
  | n :: rest =>
    obtain ⟨hn, hrest⟩ := Node.shapedAll_cons.mp hs
    have hchild := emitChild_settles settings (emit_settles (parent.child index) n hn)
    rw [emitAll_cons]
    exact hchild.bind fun _ => (emitAll_settles parent (index + 1) rest hrest).bind fun _ =>
      .pure _ fun _ h => h

theorem emitBranches_settles (parent : Path) (index : Nat) (key : Option Key) (bs : List Branch)
    (hb : ∀ b ∈ bs, ∃ n, b.children = [n] ∧ n.isComment = false)
    (hs : ∀ m ∈ Branch.withinAll bs, m.IsSingle) :
    Settles MarkupState.Settled (emitBranches settings parent index key bs) := by
  match bs with
  | [] =>
    rw [emitBranches]
    exact .pure _ fun _ h => h
  | .mk info [] :: rest =>
    obtain ⟨⟨n, hn, -⟩, -⟩ := List.forall_mem_cons.mp hb
    cases hn
  | .mk info (n :: _) :: rest =>
    obtain ⟨⟨m, hm, hc⟩, hrest⟩ := List.forall_mem_cons.mp hb
    cases hm
    obtain ⟨hn, hs⟩ := List.forall_mem_append.mp hs
    rw [Node.withinAll, Node.withinAll, List.append_nil] at hn
    have hx : Settles Unowned (emit settings ((parent.child index).child 0) n) :=
      (emit_settles _ n hn).imp (fun _ h => Fits.of_unowned h hc) fun _ h => h
    rw [emitBranches]
    refine Emit.Yields.bind ((branchMarkup_settles settings key info hx).imp
      (fun _ h => h.loopOwner) fun _ h => h) fun _ => ?_
    exact (emitBranches_settles parent (index + 1) key rest hrest hs).bind fun _ =>
      .pure _ fun _ h => h

end

/-! ## Children are emitted one beside the other -/

variable {settings}

/-- In a tolerant run a child has markup or none, as it succeeds or fails. -/
theorem run_emitChild (ht : settings.tolerant = true) (path : Path) (n : Node) (s : MarkupState) :
    ∃ s', (emitChild settings path n).run s =
      (.ok ((emit settings path n).run s).1.toOption, s') := by
  rcases h : (emit settings path n).run s with ⟨r, s₁⟩
  unfold emitChild Emit.handle
  rw [Emit.run_bind_ok (Emit.run_attempt h), ht]
  cases r with
  | ok markup => exact ⟨s₁, rfl⟩
  | error d => exact ⟨_, rfl⟩

/-- A child leaves the surroundings of its siblings alone, whether it fails or not. -/
theorem emitChild_surroundings (ht : settings.tolerant = true) (path : Path) {n : Node}
    (hn : n.Shaped) {s : MarkupState} (hs : s.Settled) :
    ((emitChild settings path n).run s).2.surroundings = s.surroundings := by
  have hscope : ((emitChild settings path n).run s).2.scope = s.scope :=
    (emit_keepsScope settings path n).handle settings.tolerant note_keepsScope s
  obtain ⟨s', hr⟩ := run_emitChild ht path n s
  have hs' : s'.Settled :=
    emitChild_settles settings (emit_settles settings path n hn) s _ s' hs hr
  rw [hr] at hscope ⊢
  simp [MarkupState.surroundings, show s'.scope = s.scope from hscope, hs'.pending, hs'.loopOwner,
    hs.pending, hs.loopOwner]

/-- Whether something is pending can be seen from the surroundings. -/
theorem settled_of_surroundings {s t : MarkupState} (h : s.surroundings = t.surroundings)
    (ht : t.Settled) : s.Settled := by
  obtain ⟨-, hp, hl⟩ := surroundings_eq h
  exact ⟨hp.trans ht.pending, hl.trans ht.loopOwner⟩

/-- What a child emits on its own, if it does not fail. -/
def ownMarkup (settings : MarkupSettings) (parent : Path) (s : MarkupState) (child : Node × Nat) :
    Option String :=
  ((emit settings (parent.child child.2) child.1).run s).1.toOption

/-- Children are emitted as each of them is on its own: those that fail are left out. -/
theorem emitAll_output (ht : settings.tolerant = true) (parent : Path) (index : Nat)
    {ns : List Node} (hn : Node.ShapedAll ns) {s : MarkupState} (hs : s.Settled) :
    ((emitAll settings parent index ns).run s).1 =
      .ok ((ns.zipIdx index).filterMap (ownMarkup settings parent s)) := by
  -- The states between two children differ from the first one only in what was noted.
  suffices h : ∀ t : MarkupState, t.surroundings = s.surroundings →
      ((emitAll settings parent index ns).run t).1 =
        .ok ((ns.zipIdx index).filterMap (ownMarkup settings parent s)) from h s rfl
  induction ns generalizing index with
  | nil =>
    intro t _
    rw [emitAll]
    rfl
  | cons n rest ih =>
    intro t hst
    obtain ⟨hn, hrest⟩ := Node.shapedAll_cons.mp hn
    have ht' : t.Settled := settled_of_surroundings hst hs
    obtain ⟨t', hr⟩ := run_emitChild ht (parent.child index) n t
    have hnext : t'.surroundings = s.surroundings := by
      have hchild := emitChild_surroundings ht (parent.child index) hn ht'
      rw [hr] at hchild
      exact hchild.trans hst
    have hown : ((emit settings (parent.child index) n).run t).1.toOption =
        ownMarkup settings parent s (n, index) :=
      congrArg Except.toOption (emit_alike settings (parent.child index) n t s hst).1
    rcases hmore : (emitAll settings parent (index + 1) rest).run t' with ⟨r, t''⟩
    have hall := ih (index + 1) hrest t' hnext
    rw [hmore] at hall
    rw [emitAll_cons, Emit.run_bind_ok hr, hown]
    obtain rfl : r = _ := hall
    rw [Emit.run_bind_ok hmore, List.zipIdx_cons, List.filterMap_cons]
    cases ownMarkup settings parent s (n, index) with
    | none => rfl
    | some markup => rfl

end Nodes

end Markup

end UiTemplate
