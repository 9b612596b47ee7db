import UiTemplate.Proofs.Hoisting.Static
import UiTemplate.Proofs.Siblings.Step
import UiTemplate.Proofs.Template.Shape

/-!
# Steps that hoist

A template is emitted twice, with static elements hoisted and without. As long as neither run fails
they go on alike: where the one gives the name of a declaration, the other gives its code.

- `Node.hoistable`: the elements that are hoisted, in the order of the document.
- `Node.declarations`, `Node.swaps`: their declarations, and what stands in the one run and in the
  other where such an element is constructed.
- `Calls.Hoists`: how two such steps compare; with one rule for each way to build a step.
-/

namespace UiTemplate

/-- The settings with static elements hoisted or not. -/
def CallSettings.hoisting (settings : CallSettings) (b : Bool) : CallSettings :=
  { settings with hoistStatic := b }

namespace Node

/-! ## Hoisted elements -/

mutual

/-- The elements in a node that are hoisted, in the order of the document: those that are static,
are no root, and are in no other one. -/
def hoistable (root : Bool) : Node → List Node
  | element info children =>
    if info.isStatic && !root then [element info children] else hoistableAll false children
  | slot _ fallback => hoistableAll false fallback
  | chain branches _ _ => hoistableBranches branches
  | loop _ children => hoistableAll false children
  | _ => []

/-- The elements in nodes that are hoisted. -/
def hoistableAll (root : Bool) : List Node → List Node
  | [] => []
  | n :: rest => n.hoistable root ++ hoistableAll root rest

/-- The elements in branches that are hoisted. -/
def hoistableBranches : List Branch → List Node
  | [] => []
  | .mk _ children :: rest => hoistableAll false children ++ hoistableBranches rest

end

/-- The name of a hoisted element, given the number of those before it. -/
def hoistedName (index : Nat) : String :=
  "_hoisted_" ++ Decimal.natText (index + 1)

/-- The declarations of hoisted elements. -/
def declarations (platform : Platform) (es : List Node) : List String :=
  es.mapIdx fun index e => "const " ++ hoistedName index ++ " = " ++ e.hoistedCode platform

/-- What is emitted where hoisted elements are constructed, with those before them declared already:
the name of each, and the code for which it stands, at the level of indentation of the place. -/
def swaps (platform : Platform) (before : Nat) (placed : List (Nat × Node)) :
    List (String × String) :=
  placed.mapIdx fun index p =>
    (hoistedName (before + index), Code.reindent p.1 (p.2.staticCode platform 0))

theorem declarations_append_singleton (platform : Platform) (es : List Node) (e : Node) :
    declarations platform (es ++ [e]) = declarations platform es ++
      ["const " ++ hoistedName es.length ++ " = " ++ e.hoistedCode platform] := by
  simp [declarations, List.mapIdx_append]

theorem swaps_append (platform : Platform) (before : Nat) (placed placed' : List (Nat × Node)) :
    swaps platform before (placed ++ placed') =
      swaps platform before placed ++ swaps platform (before + placed.length) placed' := by
  simp only [swaps, List.mapIdx_append]
  refine congrArg _ (List.mapIdx_eq_mapIdx_iff.mpr fun index _ => ?_)
  rw [Nat.add_assoc, Nat.add_comm placed.length]

/-- What the hoisting of static elements hangs on: loops and branches have one node each, conditions
stand before what has none, and nothing in a static node is dynamic. -/
structure IsSettled (n : Node) : Prop where
  single : n.IsSingle
  ordered : n.IsOrdered
  static : n.isStatic = true → ∀ m ∈ n.within, m.IsPlain

mutual

/-- Hoisted elements are static elements of the tree. -/
theorem mem_hoistable (root : Bool) (n : Node) :
    ∀ e ∈ n.hoistable root,
      e ∈ n.within ∧ e.isStatic = true ∧ ∃ info children, e = .element info children := by
  match n with
  | .element info children =>
    intro e he
    rw [hoistable] at he
    split at he
    · rename_i hstatic
      obtain rfl := List.mem_singleton.mp he
      exact ⟨List.mem_cons_self, (Bool.and_eq_true _ _ ▸ hstatic).1, info, children, rfl⟩
    · exact (mem_hoistableAll false children e he).imp_left (List.mem_cons_of_mem _)
  | .slot info fallback =>
    exact fun e he => (mem_hoistableAll false fallback e he).imp_left (List.mem_cons_of_mem _)
  | .chain branches _ _ =>
    exact fun e he => (mem_hoistableBranches branches e he).imp_left (List.mem_cons_of_mem _)
  | .loop info children =>
    exact fun e he => (mem_hoistableAll false children e he).imp_left (List.mem_cons_of_mem _)
  | .text .. => exact fun e he => absurd he List.not_mem_nil
  | .interpolation .. => exact fun e he => absurd he List.not_mem_nil
  | .comment .. => exact fun e he => absurd he List.not_mem_nil

theorem mem_hoistableAll (root : Bool) (ns : List Node) :
    ∀ e ∈ hoistableAll root ns,
      e ∈ withinAll ns ∧ e.isStatic = true ∧ ∃ info children, e = .element info children := by
  match ns with
  | [] => exact fun e he => absurd he List.not_mem_nil
  | n :: rest =>
    intro e he
    rcases List.mem_append.mp he with he | he
    · exact (mem_hoistable root n e he).imp_left (List.mem_append_left _)
    · exact (mem_hoistableAll root rest e he).imp_left (List.mem_append_right _)

theorem mem_hoistableBranches (bs : List Branch) :
    ∀ e ∈ hoistableBranches bs, e ∈ Branch.withinAll bs ∧ e.isStatic = true ∧
      ∃ info children, e = .element info children := by
  match bs with
  | [] => exact fun e he => absurd he List.not_mem_nil
  | .mk _ children :: rest =>
    intro e he
    rcases List.mem_append.mp he with he | he
    · exact (mem_hoistableAll false children e he).imp_left (List.mem_append_left _)
    · exact (mem_hoistableBranches rest e he).imp_left (List.mem_append_right _)

end

theorem hoistableAll_of_isTextLike {ns : List Node} (h : ns.all Node.isTextLike = true) :
    hoistableAll false ns = [] := by
  induction ns with
  | nil => rfl
  | cons n rest ih =>
    rw [List.all_cons, Bool.and_eq_true] at h
    rw [hoistableAll, ih h.2, List.append_nil]
    cases n with
    | text => rfl
    | interpolation => rfl
    | _ => cases h.1

end Node

/-- The state outside of hoisted elements, with the given declarations. -/
def CallState.declaring (s : CallState) (ds : List String) : CallState :=
  { s with hoisting := false, unit := { s.unit with hoisted := ds } }

namespace Calls

/-! ## Steps that compare -/

/-- How two steps compare of which the first hoists the elements `es`: they fail with the same
fault, or their results and what is swapped in them are related, and they leave the same state but
for the declarations. The elements `before` are those that are declared already. -/
def Hoists {α : Type} (platform : Platform) (es : List Node) (on off : EmitCall α)
    (R : List (String × String) → α → α → Prop) : Prop :=
  ∀ (before : List Node) (s : CallState),
    (∃ d t t', on.run (s.declaring (Node.declarations platform before)) = (.error d, t) ∧
      off.run (s.declaring []) = (.error d, t')) ∨
    ∃ (a b : α) (placed : List (Nat × Node)) (s' : CallState), placed.map Prod.snd = es ∧
      R (Node.swaps platform before.length placed) a b ∧
      on.run (s.declaring (Node.declarations platform before)) =
        (.ok a, s'.declaring (Node.declarations platform (before ++ es))) ∧
      off.run (s.declaring []) = (.ok b, s'.declaring [])

/-- A step to which the declarations do not matter. -/
def Blind {α : Type} (step : EmitCall α) : Prop :=
  ∀ s ds, step.run (s.declaring ds) = ((step.run s).1, (step.run s).2.declaring ds)

namespace Blind

variable {α β : Type}

theorem pure (a : α) : Blind (pure a) :=
  fun _ _ => rfl

theorem throw (d : Diagnostic) : Blind (throw d : EmitCall α) :=
  fun _ _ => rfl

theorem modify {f : CallState → CallState}
    (h : ∀ s ds, f (s.declaring ds) = (f s).declaring ds) : Blind (modify f) :=
  fun s ds => congrArg (Prod.mk _) (h s ds)

theorem get {f : CallState → EmitCall β} (hf : ∀ s, Blind (f s))
    (h : ∀ s ds, f (s.declaring ds) = f s) : Blind (get >>= f) := by
  intro s ds
  show (f (s.declaring ds)).run (s.declaring ds) = _
  rw [h]
  exact hf s s ds

theorem bind {x : EmitCall α} {f : α → EmitCall β} (hx : Blind x) (hf : ∀ a, Blind (f a)) :
    Blind (x >>= f) := by
  intro s ds
  have hs := hx s ds
  rcases h : x.run s with ⟨r, s'⟩
  rw [h] at hs
  cases r with
  | ok a =>
    rw [Emit.run_bind_ok hs, Emit.run_bind_ok h]
    exact hf a s' ds
  | error d => rw [Emit.run_bind_error hs, Emit.run_bind_error h]

end Blind

namespace Hoists

variable {α β : Type} {platform : Platform} {es es' : List Node} {x y : EmitCall α}
  {f g : α → EmitCall β} {R R' : List (String × String) → α → α → Prop}
  {S : List (String × String) → β → β → Prop}

theorem pure {a b : α} (h : R [] a b) : Hoists platform [] (pure a) (pure b) R := by
  refine fun before s => .inr ⟨a, b, [], s, rfl, h, ?_, rfl⟩
  rw [List.append_nil]
  rfl

theorem throw (d : Diagnostic) : Hoists platform es (throw d) (throw d) R :=
  fun _ _ => .inl ⟨d, _, _, rfl, rfl⟩

theorem bind (hx : Hoists platform es x y R)
    (hf : ∀ swaps a b, R swaps a b →
      Hoists platform es' (f a) (g b) fun swaps' => S (swaps ++ swaps')) :
    Hoists platform (es ++ es') (x >>= f) (y >>= g) S := by
  intro before s
  rcases hx before s with ⟨d, t, t', hon, hoff⟩ | ⟨a, b, placed, s₁, hes, hr, hon, hoff⟩
  · exact .inl ⟨d, t, t', Emit.run_bind_error hon, Emit.run_bind_error hoff⟩
  · rw [Emit.run_bind_ok hon, Emit.run_bind_ok hoff]
    rcases hf _ a b hr (before ++ es) s₁ with hfail | ⟨a', b', placed', s₂, hes', hs, hon', hoff'⟩
    · exact .inl hfail
    · refine .inr ⟨a', b', placed ++ placed', s₂, ?_, ?_, ?_, hoff'⟩
      · rw [List.map_append, hes, hes']
      · have hlength : (before ++ es).length = before.length + placed.length := by
          rw [List.length_append, ← hes, List.length_map]
        rw [Node.swaps_append, ← hlength]
        exact hs
      · rw [hon', List.append_assoc]

/-- After a step to which the declarations do not matter. -/
theorem after {x : EmitCall α} (hx : Blind x) (hf : ∀ a, Hoists platform es (f a) (g a) S) :
    Hoists platform es (x >>= f) (x >>= g) S := by
  have hsame : Hoists platform [] x x fun swaps a b => swaps = [] ∧ a = b := by
    intro before s
    have hon := hx s (Node.declarations platform before)
    have hoff := hx s []
    rcases h : x.run s with ⟨r, s'⟩
    rw [h] at hon hoff
    cases r with
    | ok a =>
      refine .inr ⟨a, a, [], s', rfl, ⟨rfl, rfl⟩, ?_, hoff⟩
      rw [hon, List.append_nil]
    | error d => exact .inl ⟨d, _, _, hon, hoff⟩
  refine hsame.bind fun swaps a b hab => ?_
  rw [hab.1, hab.2]
  exact hf b

/-- Then a step that hoists nothing. -/
theorem andThen (hx : Hoists platform es x y R)
    (hf : ∀ swaps a b, R swaps a b →
      Hoists platform [] (f a) (g b) fun swaps' => S (swaps ++ swaps')) :
    Hoists platform es (x >>= f) (y >>= g) S := by
  have h := hx.bind hf
  rwa [List.append_nil] at h

/-- A step that reads the state. -/
theorem get {f g : CallState → EmitCall β}
    (hf : ∀ (s : CallState) (ds : List String),
      Hoists platform es (f (s.declaring ds)) (g (s.declaring [])) S) :
    Hoists platform es (get >>= f) (get >>= g) S :=
  fun before s => hf s _ before s

theorem within {enter : CallState → CallState} {leave : CallState → CallState → CallState}
    (h : Hoists platform es x y R)
    (he : ∀ s ds, enter (s.declaring ds) = (enter s).declaring ds)
    (hl : ∀ s s' ds ds', leave (s.declaring ds) (s'.declaring ds') = (leave s s').declaring ds') :
    Hoists platform es (Emit.within enter leave x) (Emit.within enter leave y) R := by
  intro before s
  rcases h before (enter s) with ⟨d, t, t', hon, hoff⟩ | ⟨a, b, placed, s', hes, hr, hon, hoff⟩
  · rw [← he] at hon hoff
    exact .inl ⟨d, _, _, Emit.run_within hon, Emit.run_within hoff⟩
  · rw [← he] at hon hoff
    refine .inr ⟨a, b, placed, leave s s', hes, hr, ?_, ?_⟩
    · rw [Emit.run_within hon, hl]
    · rw [Emit.run_within hoff, hl]

theorem deeper (h : Hoists platform es x y R) :
    Hoists platform es (Calls.deeper x) (Calls.deeper y) R :=
  h.within (fun _ _ => rfl) fun _ _ _ _ => rfl

theorem withLocals (names : List String) (h : Hoists platform es x y R) :
    Hoists platform es (Calls.withLocals names x) (Calls.withLocals names y) R :=
  h.within (fun _ _ => rfl) fun _ _ _ _ => rfl

/-- A part of an emission where no fault is tolerated. -/
theorem handle {note : Diagnostic → EmitCall Unit} (h : Hoists platform es x y R) :
    Hoists platform es (Emit.handle false note x) (Emit.handle false note y)
      fun swaps r r' => ∃ a b, r = some a ∧ r' = some b ∧ R swaps a b := by
  intro before s
  unfold Emit.handle
  rcases h before s with ⟨d, t, t', hon, hoff⟩ | ⟨a, b, placed, s', hes, hr, hon, hoff⟩
  · rw [Emit.run_bind_ok (Emit.run_attempt hon), Emit.run_bind_ok (Emit.run_attempt hoff)]
    exact .inl ⟨d, _, _, rfl, rfl⟩
  · rw [Emit.run_bind_ok (Emit.run_attempt hon), Emit.run_bind_ok (Emit.run_attempt hoff)]
    exact .inr ⟨some a, some b, placed, s', hes, ⟨a, b, rfl, rfl, hr⟩, rfl, rfl⟩

end Hoists

end Calls

end UiTemplate
