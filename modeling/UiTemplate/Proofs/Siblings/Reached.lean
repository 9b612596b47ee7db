import UiTemplate.Proofs.Siblings.Markup

/-!
# Where children are handled

- `Markup.Reaches`: the states in which an emission of markup comes to the nodes of a template.
- `Markup.Reaches.settled`: children are only ever handled while nothing waits.
-/

namespace UiTemplate

namespace Markup

section Nodes

variable {settings : MarkupSettings}

/-! ## The states in which children are handled -/

/-- What an emission comes to: a node, the children from an index on, or the branches from an index
on. -/
inductive Task where
  | node (path : Path) (n : Node)
  | children (parent : Path) (index : Nat) (ns : List Node)
  | branches (parent : Path) (index : Nat) (key : Option Key) (bs : List Branch)

/-- An emission of `nodes` comes to a task in a state. The parts of a node are reached in the states
in which the emission of the node runs them. -/
inductive Reaches (settings : MarkupSettings) (nodes : List Node) : Task → MarkupState → Prop where
  | roots : Reaches settings nodes (.children [] 0 nodes) {}
  | child {parent : Path} {index : Nat} {n : Node} {rest : List Node} {s : MarkupState} :
      Reaches settings nodes (.children parent index (n :: rest)) s →
      Reaches settings nodes (.node (parent.child index) n) s
  | next {parent : Path} {index : Nat} {n : Node} {rest : List Node} {s : MarkupState} :
      Reaches settings nodes (.children parent index (n :: rest)) s →
      Reaches settings nodes (.children parent (index + 1) rest)
        ((emitChild settings (parent.child index) n).run s).2
  | element {path : Path} {info : ElementInfo} {children : List Node} {s s' : MarkupState} :
      Reaches settings nodes (.node path (.element info children)) s →
      Emit.Runs (elementMarkup settings path info children) s s' →
      Reaches settings nodes (.children path 0 children) s'
  | fallback {path : Path} {info : SlotInfo} {fallback : List Node} {s s' : MarkupState} :
      Reaches settings nodes (.node path (.slot info fallback)) s →
      Emit.Runs (slotMarkup settings path info) s s' →
      Reaches settings nodes (.children path 0 fallback) s'
  | loop {path : Path} {info : LoopInfo} {n : Node} {more : List Node} {s s' : MarkupState} :
      Reaches settings nodes (.node path (.loop info (n :: more))) s →
      Emit.Runs (loopMarkup settings info (n :: more)) s s' →
      Reaches settings nodes (.node (path.child 0) n) s'
  | chain {path : Path} {branches : List Branch} {key : Option Key} {l : Location}
      {s : MarkupState} :
      Reaches settings nodes (.node path (.chain branches key l)) s →
      Reaches settings nodes (.branches path 0 key branches) (takePending.run s).2
  | branch {parent : Path} {index : Nat} {key : Option Key} {info : BranchInfo} {n : Node}
      {more : List Node} {rest : List Branch} {s s' : MarkupState} :
      Reaches settings nodes (.branches parent index key (.mk info (n :: more) :: rest)) s →
      Emit.Runs (branchMarkup settings key info) s s' →
      Reaches settings nodes (.node ((parent.child index).child 0) n) s'
  | nextBranch {parent : Path} {index : Nat} {key : Option Key} {info : BranchInfo} {n : Node}
      {more : List Node} {rest : List Branch} {markup : String} {s s' : MarkupState} :
      Reaches settings nodes (.branches parent index key (.mk info (n :: more) :: rest)) s →
      (branchMarkup settings key info (emit settings ((parent.child index).child 0) n)).run s =
        (.ok markup, s') →
      Reaches settings nodes (.branches parent (index + 1) key rest) s'
  | noBranch {parent : Path} {index : Nat} {key : Option Key} {info : BranchInfo}
      {rest : List Branch} {s : MarkupState} :
      Reaches settings nodes (.branches parent index key (.mk info [] :: rest)) s →
      Reaches settings nodes (.branches parent (index + 1) key rest) s

/-- What holds when an emission comes to a task. -/
def Task.Holds : Task → MarkupState → Prop
  | .node _ n, s => n.Shaped ∧ (s.loopOwner = true → n.isElement = true)
  | .children _ _ ns, s => Node.ShapedAll ns ∧ s.Settled
  | .branches _ _ _ bs, s =>
    ((∀ b ∈ bs, ∃ n, b.children = [n] ∧ n.isComment = false) ∧
      ∀ m ∈ Branch.withinAll bs, m.IsSingle) ∧ Unowned s

/-- The children of an element are emitted after it has taken what waits for it. -/
theorem runs_elementMarkup {path : Path} {info : ElementInfo} {children : List Node}
    {s s' : MarkupState} (h : Emit.Runs (elementMarkup settings path info children) s s') :
    s' = { s with pending := [], loopOwner := false } := by
  refine h.eq fun part part' hp => ?_
  refine Emit.run_bind_congr fun _ s₁ h₁ => ?_
  obtain rfl : s₁ = s := run_checkDirectives_state h₁
  refine Emit.run_bind_congr fun owner s₂ h₂ => ?_
  obtain ⟨-, rfl⟩ := Prod.mk.inj h₂
  refine Emit.run_bind_congr fun pending s₃ h₃ => ?_
  obtain ⟨-, rfl⟩ := Prod.mk.inj h₃
  refine Emit.run_bind_congr fun s₄ s₅ h₄ => ?_
  obtain ⟨-, rfl⟩ := Prod.mk.inj h₄
  refine Emit.run_bind_congr fun own s₆ h₅ => ?_
  obtain ⟨-, rfl⟩ := Prod.mk.inj h₅
  dsimp only
  split
  · rfl
  · exact Emit.run_bind_congr_left hp

/-- The fallback of a slot is emitted after it has taken the attributes that wait for it. -/
theorem runs_slotMarkup {path : Path} {info : SlotInfo} {s s' : MarkupState}
    (h : Emit.Runs (slotMarkup settings path info) s s') : s' = { s with pending := [] } := by
  refine h.eq fun part part' hp => ?_
  refine Emit.run_bind_congr fun _ s₁ h₁ => ?_
  obtain rfl : s₁ = s := run_checkDirectives_state h₁
  cases info.resolution with
  | none => rfl
  | some r =>
    refine Emit.run_bind_congr fun pending s₂ h₂ => ?_
    obtain ⟨-, rfl⟩ := Prod.mk.inj h₂
    refine Emit.run_bind_congr fun s₃ s₄ h₃ => ?_
    obtain ⟨-, rfl⟩ := Prod.mk.inj h₃
    dsimp only
    split
    · rfl
    · exact Emit.run_bind_congr_left hp

/-- The node of a branch is emitted while the attribute of the branch waits. -/
theorem runs_branchMarkup {key : Option Key} {info : BranchInfo} {s s' : MarkupState}
    (h : Emit.Runs (branchMarkup settings key info) s s') : s'.loopOwner = s.loopOwner := by
  have hs' : s' = { s with
      scope := s.scope ++ [key.getD ""]
      pending := [branchAttribute settings (s.scope ++ [key.getD ""]) info] } := by
    refine h.eq fun part part' hp => ?_
    unfold branchMarkup inScope
    refine Emit.run_within_congr (Emit.run_bind_congr fun _ s₁ h₁ => ?_)
    obtain ⟨-, rfl⟩ := Prod.mk.inj h₁
    exact hp
  rw [hs']

/-- The node of a loop is emitted while it owns the loop, if it is an element. -/
theorem runs_loopMarkup {info : LoopInfo} {children : List Node} {s s' : MarkupState}
    (h : Emit.Runs (loopMarkup settings info children) s s') :
    s'.loopOwner = startsWithElement children := by
  have hs' : s' = { s with
      scope := [info.item]
      pending := loopAttributes settings s.scope info children
      loopOwner := startsWithElement children } := by
    refine h.eq fun part part' hp => ?_
    refine Emit.run_bind_congr fun outer s₁ h₁ => ?_
    obtain ⟨-, rfl⟩ := Prod.mk.inj h₁
    refine Emit.run_bind_congr fun s₂ s₃ h₂ => ?_
    obtain ⟨-, rfl⟩ := Prod.mk.inj h₂
    refine Emit.run_bind_congr_left (Emit.run_within_congr ?_)
    exact Emit.run_bind_congr_left hp
  rw [hs']

theorem Reaches.holds (ht : settings.tolerant = true) {nodes : List Node}
    (hn : Node.ShapedAll nodes) {task : Task} {s : MarkupState}
    (h : Reaches settings nodes task s) : task.Holds s := by
  induction h with
  | roots => exact ⟨hn, rfl, rfl⟩
  | child _ ih =>
    obtain ⟨hs, hsettled⟩ := ih
    refine ⟨(Node.shapedAll_cons.mp hs).1, fun ho => ?_⟩
    simp [hsettled.loopOwner] at ho
  | @next parent index n rest s _ ih =>
    obtain ⟨hs, hsettled⟩ := ih
    obtain ⟨hn, hrest⟩ := Node.shapedAll_cons.mp hs
    exact ⟨hrest,
      settled_of_surroundings (emitChild_surroundings ht (parent.child index) hn hsettled) hsettled⟩
  | element _ hr ih =>
    obtain ⟨hs, -⟩ := ih
    rw [runs_elementMarkup hr]
    exact ⟨(List.forall_mem_cons.mp hs).2, rfl, rfl⟩
  | fallback _ hr ih =>
    obtain ⟨hs, ho⟩ := ih
    rw [runs_slotMarkup hr]
    exact ⟨(List.forall_mem_cons.mp hs).2, rfl, unowned_of_owner ho rfl⟩
  | @loop path info n more s s' _ hr ih =>
    obtain ⟨hs, -⟩ := ih
    have hall : Node.ShapedAll (n :: more) := (List.forall_mem_cons.mp hs).2
    refine ⟨(Node.shapedAll_cons.mp hall).1, fun ho => ?_⟩
    rw [runs_loopMarkup hr] at ho
    cases n with
    | element info children => rfl
    | _ => cases ho
  | chain _ ih =>
    obtain ⟨hs, ho⟩ := ih
    exact ⟨List.forall_mem_cons.mp hs, unowned_of_owner ho rfl⟩
  | branch _ hr ih =>
    obtain ⟨⟨hb, hs⟩, ho⟩ := ih
    obtain ⟨hfirst, -⟩ := List.forall_mem_append.mp hs
    refine ⟨(Node.shapedAll_cons.mp hfirst).1, fun howner => ?_⟩
    rw [runs_branchMarkup hr, show _ = false from ho] at howner
    cases howner
  -- A branch leaves the state to the next one as it was: what its element does is settled, as no
  -- comment stands for a branch.
  | @nextBranch parent index key info n more rest markup s s' _ hr ih =>
    obtain ⟨⟨hb, hs⟩, ho⟩ := ih
    obtain ⟨⟨m, hm, hc⟩, hrest⟩ := List.forall_mem_cons.mp hb
    cases hm
    obtain ⟨hfirst, hlater⟩ := List.forall_mem_append.mp hs
    have hx : Settles Unowned (emit settings ((parent.child index).child 0) n) :=
      (emit_settles settings _ n (Node.shapedAll_cons.mp hfirst).1).imp
        (fun _ h => Fits.of_unowned h hc) fun _ h => h
    exact ⟨⟨hrest, hlater⟩, (branchMarkup_settles settings key info hx s markup s' ho hr).loopOwner⟩
  | noBranch _ ih =>
    obtain ⟨⟨hb, -⟩, -⟩ := ih
    obtain ⟨⟨n, hn, -⟩, -⟩ := List.forall_mem_cons.mp hb
    cases hn

/-- Children are handled while nothing waits. -/
theorem Reaches.settled (ht : settings.tolerant = true) {nodes : List Node}
    (hn : Node.ShapedAll nodes) {parent : Path} {index : Nat} {ns : List Node} {s : MarkupState}
    (h : Reaches settings nodes (.children parent index ns) s) : Node.ShapedAll ns ∧ s.Settled :=
  h.holds ht hn

end Nodes

end Markup

end UiTemplate
