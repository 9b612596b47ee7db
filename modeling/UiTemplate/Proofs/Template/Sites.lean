import UiTemplate.Proofs.Template.Contents
import UiTemplate.Proofs.Template.Neutral
import UiTemplate.Proofs.Template.WellFormed

/-!
# Expressions and the loops around them

- `Template.sites`: the expressions whose values a template shows or passes on, with the loops
  around them.
- `Template.sites_annotate`, `Template.sites_parse`: neither outlets and keys nor the platform
  matter for them.
- `Template.parse_still`: nothing that is static has any.
-/

namespace UiTemplate

/-- The loop without its key. -/
def LoopInfo.unkeyed (loop : LoopInfo) : LoopInfo :=
  { loop with key := none }

/-- An expression of a template, with the loops around it from the outermost in, and whether it is
the condition of a branch. -/
structure Site where
  expression : Expression
  loops : List LoopInfo
  isCondition : Bool

/-- The names that the loops around an expression bind. -/
def Site.names (s : Site) : List String :=
  s.loops.flatMap LoopInfo.locals

/-- The expressions that are bound to attributes or to the content of an element. -/
def boundExpressions (directives : List Directive) : List Expression :=
  (bindings directives).filterMap fun b => if b.kind = .event then none else some b.expression

/-- What a slot passes to its outlet. -/
def SlotInfo.sites (loops : List LoopInfo) (slot : SlotInfo) : List Site :=
  (bindings slot.directives).map fun b => ⟨b.expression, loops, false⟩

mutual

/-- The interpolations, the bound attributes, the conditions, the sources of loops and what is
passed to outlets in a node that has the given loops around it. -/
def Node.sites (loops : List LoopInfo) : Node → List Site
  | .element info children =>
    (boundExpressions info.directives).map (⟨·, loops, false⟩) ++ Node.sitesAll loops children
  | .text .. => []
  | .interpolation expression _ _ => [⟨expression, loops, false⟩]
  | .slot info fallback => info.sites loops ++ Node.sitesAll loops fallback
  | .chain branches _ _ => Branch.sitesAll loops branches
  | .loop info children =>
    ⟨info.source, loops, false⟩ :: Node.sitesAll (loops ++ [info.unkeyed]) children
  | .comment .. => []

/-- The expressions in nodes. -/
def Node.sitesAll (loops : List LoopInfo) : List Node → List Site
  | [] => []
  | n :: rest => n.sites loops ++ Node.sitesAll loops rest

/-- The expressions in branches, each condition before those of its branch. -/
def Branch.sitesAll (loops : List LoopInfo) : List Branch → List Site
  | [] => []
  | .mk info children :: rest =>
    info.condition.toList.map (⟨·, loops, true⟩) ++ Node.sitesAll loops children ++
      Branch.sitesAll loops rest

end

/-- The expressions of a template with the loops around them, in the order of the text. -/
def Template.sites (nodes : List Node) : List Site :=
  Node.sitesAll [] nodes

theorem Node.sites_subset {loops : List LoopInfo} {n : Node} {ns : List Node}
    (h : n ∈ ns) : n.sites loops ⊆ Node.sitesAll loops ns := by
  induction ns with
  | nil => exact absurd h List.not_mem_nil
  | cons m ns ih =>
    rcases List.mem_cons.mp h with rfl | h
    · exact List.subset_append_left _ _
    · exact List.subset_append_of_subset_right _ (ih h)

theorem Branch.sites_subset {loops : List LoopInfo} {b : Branch} {bs : List Branch}
    (h : b ∈ bs) : Node.sitesAll loops b.children ⊆ Branch.sitesAll loops bs := by
  induction bs with
  | nil => exact absurd h List.not_mem_nil
  | cons b' bs ih =>
    obtain ⟨info, children⟩ := b'
    rcases List.mem_cons.mp h with rfl | h
    · exact List.subset_append_of_subset_left _ (List.subset_append_right _ _)
    · exact List.subset_append_of_subset_right _ (ih h)

/-! ## What does not matter -/

theorem boundExpressions_map_strip (ds : List Directive) :
    boundExpressions (ds.map Directive.strip) = boundExpressions ds := by
  rw [boundExpressions, bindings_strip, List.filterMap_map]
  rfl

mutual

theorem Node.sites_strip (loops : List LoopInfo) (n : Node) :
    (n.strip SlotInfo.plain).sites loops = n.sites loops := by
  match n with
  | .element info children =>
    rw [Node.strip, Node.sites, Node.sites, boundExpressions_map_strip, Node.sitesAll_strip]
  | .text .. => rfl
  | .interpolation .. => rfl
  | .slot info fallback =>
    rw [Node.strip, Node.sites, Node.sites, Node.sitesAll_strip]
    rfl
  | .chain branches _ _ => exact Branch.sitesAll_strip loops branches
  | .loop info children =>
    rw [Node.strip, Node.sites, Node.sites, Node.sitesAll_strip]
    rfl
  | .comment .. => rfl

theorem Node.sitesAll_strip (loops : List LoopInfo) (ns : List Node) :
    Node.sitesAll loops (Node.stripAll SlotInfo.plain ns) = Node.sitesAll loops ns := by
  match ns with
  | [] => rfl
  | n :: rest =>
    rw [Node.stripAll, Node.sitesAll, Node.sitesAll, Node.sites_strip, Node.sitesAll_strip]

theorem Branch.sitesAll_strip (loops : List LoopInfo) (bs : List Branch) :
    Branch.sitesAll loops (Branch.stripAll SlotInfo.plain bs) = Branch.sitesAll loops bs := by
  match bs with
  | [] => rfl
  | .mk info children :: rest =>
    rw [Branch.stripAll, Branch.sitesAll, Branch.sitesAll, Node.sitesAll_strip,
      Branch.sitesAll_strip]

end

/-- Outlets and keys do not matter. -/
theorem Template.sites_annotate (capabilities : Capabilities) (nodes : List Node) :
    Template.sites (Template.annotate capabilities nodes).nodes = Template.sites nodes := by
  have h := congrArg (Node.sitesAll []) (Template.annotate_strip capabilities nodes)
  rwa [Node.sitesAll_strip, Node.sitesAll_strip] at h

mutual

theorem Node.sites_neutral (loops : List LoopInfo) (n : Node) :
    n.neutral.sites loops = n.sites loops := by
  match n with
  | .element info children =>
    rw [Node.neutral, Node.sites, Node.sites, Node.sitesAll_neutral]
    rfl
  | .text .. => rfl
  | .interpolation .. => rfl
  | .slot info fallback => rw [Node.neutral, Node.sites, Node.sites, Node.sitesAll_neutral]
  | .chain branches _ _ => exact Branch.sitesAll_neutral loops branches
  | .loop info children => rw [Node.neutral, Node.sites, Node.sites, Node.sitesAll_neutral]
  | .comment .. => rfl

theorem Node.sitesAll_neutral (loops : List LoopInfo) (ns : List Node) :
    Node.sitesAll loops (Node.neutralAll ns) = Node.sitesAll loops ns := by
  match ns with
  | [] => rfl
  | n :: rest =>
    rw [Node.neutralAll, Node.sitesAll, Node.sitesAll, Node.sites_neutral, Node.sitesAll_neutral]

theorem Branch.sitesAll_neutral (loops : List LoopInfo) (bs : List Branch) :
    Branch.sitesAll loops (Branch.neutralAll bs) = Branch.sitesAll loops bs := by
  match bs with
  | [] => rfl
  | .mk info children :: rest =>
    rw [Branch.neutralAll, Branch.sitesAll, Branch.sitesAll, Node.sitesAll_neutral,
      Branch.sitesAll_neutral]

end

/-- The platform that a text is read for does not matter. -/
theorem Template.sites_parse {p q : Platform} {whitespace : Whitespace} {source : String}
    {nodes nodes' : List Node} (h : Template.parse ⟨p, whitespace⟩ source = .ok nodes)
    (h' : Template.parse ⟨q, whitespace⟩ source = .ok nodes') :
    Template.sites nodes = Template.sites nodes' := by
  have hneutral := Template.parse_neutral p q whitespace source
  rw [h, h'] at hneutral
  have hsites := congrArg (Node.sitesAll []) (Except.ok.inj hneutral)
  rwa [Node.sitesAll_neutral, Node.sitesAll_neutral] at hsites

/-! ## Expressions that were read -/

section Meets

variable {D : Demand}

theorem bindings_meet {ds : List Directive} (h : ∀ d ∈ ds, d.Meets D) :
    ∀ b ∈ bindings ds, D.expression b.expression := by
  intro b hb
  obtain ⟨d, hd, hdb⟩ := List.mem_filterMap.mp hb
  cases d with
  | binding b' =>
    cases hdb
    exact (h _ hd).1
  | structural s l => cases hdb
  | unsupported name value l => cases hdb

mutual

theorem Node.sites_meet (loops : List LoopInfo) (n : Node) (h : ∀ m ∈ n.within, m.Meets D) :
    ∀ s ∈ n.sites loops, D.expression s.expression := by
  match n with
  | .element info children =>
    obtain ⟨hinfo, hc⟩ := List.forall_mem_cons.mp h
    refine List.forall_mem_append.mpr ⟨?_, Node.sitesAll_meet loops children hc⟩
    rw [List.forall_mem_map]
    intro e he
    obtain ⟨b, hb, hbe⟩ := List.mem_filterMap.mp he
    split at hbe
    · cases hbe
    · cases hbe
      exact bindings_meet hinfo.directives b hb
  | .text .. => exact fun s hs => absurd hs List.not_mem_nil
  | .interpolation .. =>
    exact List.forall_mem_singleton.mpr (List.forall_mem_singleton.mp h).1
  | .slot info fallback =>
    obtain ⟨hinfo, hc⟩ := List.forall_mem_cons.mp h
    refine List.forall_mem_append.mpr ⟨?_, Node.sitesAll_meet loops fallback hc⟩
    rw [SlotInfo.sites, List.forall_mem_map]
    exact bindings_meet hinfo.directives
  | .chain branches _ _ =>
    obtain ⟨hinfo, hc⟩ := List.forall_mem_cons.mp h
    exact Branch.sitesAll_meet loops branches (fun b hb => hinfo.each b hb) hc
  | .loop info children =>
    obtain ⟨hinfo, hc⟩ := List.forall_mem_cons.mp h
    exact List.forall_mem_cons.mpr ⟨hinfo.source, Node.sitesAll_meet _ children hc⟩
  | .comment .. => exact fun s hs => absurd hs List.not_mem_nil

theorem Node.sitesAll_meet (loops : List LoopInfo) (ns : List Node) (h : Node.MeetAll D ns) :
    ∀ s ∈ Node.sitesAll loops ns, D.expression s.expression := by
  match ns with
  | [] => exact fun s hs => absurd hs List.not_mem_nil
  | n :: rest =>
    obtain ⟨hn, hr⟩ := Node.meetAll_cons.mp h
    exact List.forall_mem_append.mpr ⟨Node.sites_meet loops n hn, Node.sitesAll_meet loops rest hr⟩

theorem Branch.sitesAll_meet (loops : List LoopInfo) (bs : List Branch)
    (hb : ∀ b ∈ bs, b.info.Meets D) (h : ∀ m ∈ Branch.withinAll bs, m.Meets D) :
    ∀ s ∈ Branch.sitesAll loops bs, D.expression s.expression := by
  match bs with
  | [] => exact fun s hs => absurd hs List.not_mem_nil
  | .mk info children :: rest =>
    obtain ⟨hinfo, hrest⟩ := List.forall_mem_cons.mp hb
    obtain ⟨hc, hr⟩ := List.forall_mem_append.mp h
    refine List.forall_mem_append.mpr ⟨List.forall_mem_append.mpr ⟨?_, ?_⟩,
      Branch.sitesAll_meet loops rest hrest hr⟩
    · rw [List.forall_mem_map]
      intro e he
      exact hinfo.condition e (Option.mem_toList.mp he)
    · exact Node.sitesAll_meet loops children hc

end

end Meets

/-- The expressions of a template were read from texts. -/
theorem Template.parse_sites {options : ParseOptions} {source : String} {nodes : List Node}
    (h : Template.parse options source = .ok nodes) :
    ∀ s ∈ Template.sites nodes, ∃ text, Expression.parse text = .ok s.expression := by
  let read : Demand :=
    ⟨fun e => ∃ text, Expression.parse text = .ok e, fun _ => True, fun _ => True⟩
  have hmeets : Node.MeetAll read nodes :=
    Template.read_meets (fun text e he => ⟨text, he⟩) (fun _ _ => trivial) (fun _ _ => trivial)
      (Template.parse_eq_ok.mp h)
  exact Node.sitesAll_meet [] nodes hmeets

/-! ## Static nodes -/

mutual

theorem Node.sites_eq_nil (loops : List LoopInfo) (n : Node) (h : ∀ m ∈ n.within, m.IsPlain) :
    n.sites loops = [] := by
  match n with
  | .element info children =>
    obtain ⟨⟨-, hd⟩, hc⟩ := List.forall_mem_cons.mp h
    rw [Node.sites, hd, Node.sitesAll_eq_nil loops children hc]
    rfl
  | .text .. => rfl
  | .comment .. => rfl
  | .interpolation .. => exact (List.forall_mem_singleton.mp h).elim
  | .slot .. => exact (List.forall_mem_cons.mp h).1.elim
  | .chain .. => exact (List.forall_mem_cons.mp h).1.elim
  | .loop .. => exact (List.forall_mem_cons.mp h).1.elim

theorem Node.sitesAll_eq_nil (loops : List LoopInfo) (ns : List Node)
    (h : ∀ m ∈ Node.withinAll ns, m.IsPlain) : Node.sitesAll loops ns = [] := by
  match ns with
  | [] => rfl
  | n :: rest =>
    obtain ⟨hn, hr⟩ := List.forall_mem_append.mp h
    rw [Node.sitesAll, Node.sites_eq_nil loops n hn, Node.sitesAll_eq_nil loops rest hr]
    rfl

end

/-- A node has no expression in it if it is static. -/
def Node.IsStill (n : Node) : Prop :=
  n.isStatic = true → ∀ loops, n.sites loops = []

theorem Node.WellFormed.isStill {depth : Nat} {role : Option ChainRole}
    {loop : Option (Expression × String × Option String)} {n : Node}
    (h : n.WellFormed depth role loop) : n.IsStill :=
  fun hs loops => Node.sites_eq_nil loops n (h.isStatic_iff.mp hs)

/-- No node of a template that is static has an expression in it. -/
theorem Template.parse_still {options : ParseOptions} {source : String} {nodes : List Node}
    (h : Template.parse options source = .ok nodes) (capabilities : Capabilities) :
    ∀ n ∈ Node.withinAll (Template.annotate capabilities nodes).nodes, n.IsStill := by
  have hstrip (n : Node) : (n.strip SlotInfo.plain).IsStill ↔ n.IsStill := by
    have hstatic : (n.strip SlotInfo.plain).isStatic = n.isStatic := by cases n <;> rfl
    rw [Node.IsStill, Node.IsStill, hstatic]
    exact imp_congr_right fun _ => forall_congr' fun loops => by rw [Node.sites_strip]
  refine (Node.forall_within_of_stripAll_eq SlotInfo.plain hstrip
    (Template.annotate_strip capabilities nodes)).mpr ?_
  exact Template.parse_forall_within Node.WellFormed.isStill h

end UiTemplate
