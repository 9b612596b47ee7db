import UiTemplate.Template.Node

/-!
# Trees

- `Node.within`: a node and the nodes below it, those in branches, loops and fallbacks among them.
- `Node.strip`: a tree without its keys, and with its slots changed.
- `Node.forall_within_of_stripAll_eq`: trees that are the same without keys have the same
  properties.
-/

namespace UiTemplate

mutual

/-- A node and the nodes below it, in the order of the text. -/
def Node.within : Node → List Node
  | .element info children => .element info children :: Node.withinAll children
  | .text value location => [.text value location]
  | .interpolation expression key location => [.interpolation expression key location]
  | .slot info fallback => .slot info fallback :: Node.withinAll fallback
  | .chain branches key location => .chain branches key location :: Branch.withinAll branches
  | .loop info children => .loop info children :: Node.withinAll children
  | .comment value location => [.comment value location]

/-- Nodes and the nodes below them. -/
def Node.withinAll : List Node → List Node
  | [] => []
  | n :: rest => n.within ++ Node.withinAll rest

/-- The nodes in branches. -/
def Branch.withinAll : List Branch → List Node
  | [] => []
  | .mk _ children :: rest => Node.withinAll children ++ Branch.withinAll rest

end

theorem Node.withinAll_append (ns ns' : List Node) :
    Node.withinAll (ns ++ ns') = Node.withinAll ns ++ Node.withinAll ns' := by
  induction ns with
  | nil => rfl
  | cons n ns ih => rw [List.cons_append, Node.withinAll, Node.withinAll, ih, List.append_assoc]

theorem Branch.withinAll_append (bs bs' : List Branch) :
    Branch.withinAll (bs ++ bs') = Branch.withinAll bs ++ Branch.withinAll bs' := by
  induction bs with
  | nil => rfl
  | cons b bs ih =>
    obtain ⟨info, children⟩ := b
    rw [List.cons_append, Branch.withinAll, Branch.withinAll, ih, List.append_assoc]

/-! ## Trees without keys -/

/-- The directive without its key. -/
def Directive.strip : Directive → Directive
  | .binding b => .binding { b with key := none }
  | d => d

/-- The bound values of stripped directives are the same but for their keys. -/
theorem bindings_strip (ds : List Directive) :
    bindings (ds.map Directive.strip) = (bindings ds).map fun b => { b with key := none } := by
  induction ds with
  | nil => rfl
  | cons d ds ih =>
    cases d with
    | structural s l => exact ih
    | unsupported name value l => exact ih
    | binding b => exact congrArg (_ :: ·) ih

/-- The slot without its keys. -/
def SlotInfo.unkeyed (slot : SlotInfo) : SlotInfo :=
  { slot with keys := {} }

/-- The slot without its keys and its outlet. -/
def SlotInfo.plain (slot : SlotInfo) : SlotInfo :=
  { slot with keys := {}, resolution := none }

mutual

/-- The node without keys, with `change` made to its slots. -/
def Node.strip (change : SlotInfo → SlotInfo) : Node → Node
  | .element info children =>
    .element { info with directives := info.directives.map Directive.strip }
      (Node.stripAll change children)
  | .text value location => .text value location
  | .interpolation expression _ location => .interpolation expression none location
  | .slot info fallback => .slot (change info) (Node.stripAll change fallback)
  | .chain branches _ location => .chain (Branch.stripAll change branches) none location
  | .loop info children => .loop { info with key := none } (Node.stripAll change children)
  | .comment value location => .comment value location

/-- The nodes without keys, with `change` made to their slots. -/
def Node.stripAll (change : SlotInfo → SlotInfo) : List Node → List Node
  | [] => []
  | n :: rest => n.strip change :: Node.stripAll change rest

/-- The branches without keys, with `change` made to the slots in them. -/
def Branch.stripAll (change : SlotInfo → SlotInfo) : List Branch → List Branch
  | [] => []
  | .mk info children :: rest =>
    .mk { info with key := none } (Node.stripAll change children) :: Branch.stripAll change rest

end

theorem Node.stripAll_eq_nil {change : SlotInfo → SlotInfo} {ns : List Node} :
    Node.stripAll change ns = [] ↔ ns = [] := by
  cases ns <;> simp [Node.stripAll]

theorem Node.stripAll_eq_singleton {change : SlotInfo → SlotInfo} {ns : List Node} :
    (∃ n, Node.stripAll change ns = [n]) ↔ ∃ n, ns = [n] := by
  cases ns with
  | nil => simp [Node.stripAll]
  | cons n ns => simp [Node.stripAll, Node.stripAll_eq_nil]

theorem Directive.strip_strip (d : Directive) : d.strip.strip = d.strip := by
  cases d <;> rfl

theorem Directive.map_strip_strip (ds : List Directive) :
    (ds.map strip).map strip = ds.map strip := by
  rw [List.map_map]
  exact List.map_congr_left fun d _ => d.strip_strip

mutual

theorem Node.strip_strip (f g : SlotInfo → SlotInfo) (n : Node) :
    (n.strip f).strip g = n.strip (g ∘ f) := by
  match n with
  | .element info children =>
    rw [Node.strip, Node.strip, Node.strip, Node.stripAll_stripAll, Directive.map_strip_strip]
  | .text .. => rfl
  | .interpolation .. => rfl
  | .slot info fallback =>
    rw [Node.strip, Node.strip, Node.strip, Node.stripAll_stripAll, Function.comp_apply]
  | .chain branches key l =>
    rw [Node.strip, Node.strip, Node.strip, Branch.stripAll_stripAll]
  | .loop info children => rw [Node.strip, Node.strip, Node.strip, Node.stripAll_stripAll]
  | .comment .. => rfl

theorem Node.stripAll_stripAll (f g : SlotInfo → SlotInfo) (ns : List Node) :
    Node.stripAll g (Node.stripAll f ns) = Node.stripAll (g ∘ f) ns := by
  match ns with
  | [] => rfl
  | n :: rest =>
    rw [Node.stripAll, Node.stripAll, Node.stripAll, Node.strip_strip, Node.stripAll_stripAll]

theorem Branch.stripAll_stripAll (f g : SlotInfo → SlotInfo) (bs : List Branch) :
    Branch.stripAll g (Branch.stripAll f bs) = Branch.stripAll (g ∘ f) bs := by
  match bs with
  | [] => rfl
  | .mk info children :: rest =>
    rw [Branch.stripAll, Branch.stripAll, Branch.stripAll, Node.stripAll_stripAll,
      Branch.stripAll_stripAll]

end

/-! ## Properties of all nodes -/

section Within

variable (f : SlotInfo → SlotInfo)

mutual

theorem Node.within_strip (n : Node) : (n.strip f).within = n.within.map (Node.strip f) := by
  match n with
  | .element info children =>
    rw [Node.strip, Node.within, Node.within, Node.withinAll_stripAll, List.map_cons, Node.strip]
  | .text .. => rfl
  | .interpolation .. => rfl
  | .slot info fallback =>
    rw [Node.strip, Node.within, Node.within, Node.withinAll_stripAll, List.map_cons, Node.strip]
  | .chain branches key l =>
    rw [Node.strip, Node.within, Node.within, Branch.withinAll_stripAll, List.map_cons, Node.strip]
  | .loop info children =>
    rw [Node.strip, Node.within, Node.within, Node.withinAll_stripAll, List.map_cons, Node.strip]
  | .comment .. => rfl

theorem Node.withinAll_stripAll (ns : List Node) :
    Node.withinAll (Node.stripAll f ns) = (Node.withinAll ns).map (Node.strip f) := by
  match ns with
  | [] => rfl
  | n :: rest =>
    rw [Node.stripAll, Node.withinAll, Node.withinAll, Node.within_strip, Node.withinAll_stripAll,
      List.map_append]

theorem Branch.withinAll_stripAll (bs : List Branch) :
    Branch.withinAll (Branch.stripAll f bs) = (Branch.withinAll bs).map (Node.strip f) := by
  match bs with
  | [] => rfl
  | .mk info children :: rest =>
    rw [Branch.stripAll, Branch.withinAll, Branch.withinAll, Node.withinAll_stripAll,
      Branch.withinAll_stripAll, List.map_append]

end

/-- Two trees that are the same without keys have the same properties, if these do not hang on
keys. -/
theorem Node.forall_within_of_stripAll_eq {P : Node → Prop} (hP : ∀ n, P (n.strip f) ↔ P n)
    {ns ns' : List Node} (h : Node.stripAll f ns = Node.stripAll f ns') :
    (∀ n ∈ Node.withinAll ns, P n) ↔ ∀ n ∈ Node.withinAll ns', P n := by
  have key (ms : List Node) : (∀ n ∈ Node.withinAll ms, P n) ↔
      ∀ n ∈ Node.withinAll (Node.stripAll f ms), P n := by
    rw [Node.withinAll_stripAll, List.forall_mem_map]
    exact forall₂_congr fun n _ => (hP n).symm
  rw [key ns, key ns', h]

/-- Two trees that are the same without keys are the same in all that does not hang on keys. -/
theorem Node.map_within_of_stripAll_eq {β : Type} {g : Node → β} (hg : ∀ n, g (n.strip f) = g n)
    {ns ns' : List Node} (h : Node.stripAll f ns = Node.stripAll f ns') :
    (Node.withinAll ns).map g = (Node.withinAll ns').map g := by
  have key (ms : List Node) :
      (Node.withinAll (Node.stripAll f ms)).map g = (Node.withinAll ms).map g := by
    rw [Node.withinAll_stripAll, List.map_map]
    exact List.map_congr_left fun n _ => hg n
  rw [← key ns, ← key ns', h]

theorem Node.filterMap_within_of_stripAll_eq {β : Type} {g : Node → Option β}
    (hg : ∀ n, g (n.strip f) = g n) {ns ns' : List Node}
    (h : Node.stripAll f ns = Node.stripAll f ns') :
    (Node.withinAll ns).filterMap g = (Node.withinAll ns').filterMap g := by
  have hmap (ms : List Node) : ms.filterMap g = (ms.map g).filterMap id := by
    rw [List.filterMap_map]
    rfl
  rw [hmap, hmap, Node.map_within_of_stripAll_eq f hg h]

end Within

end UiTemplate
