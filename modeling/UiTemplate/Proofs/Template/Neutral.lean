import UiTemplate.Template.Parse
import UiTemplate.Proofs.Result
import UiTemplate.Proofs.Template.Tree

/-!
# What a tree owes to the platform

Only what an element stands for, and with it whether it is static, hangs on the platform that a
template is read for.

- `Node.neutral`: a tree without what the platform decides.
- `Template.parse_neutral`: a text is read alike for two platforms, up to that.
-/

namespace UiTemplate

/-- The element without what the platform decides. -/
def ElementInfo.neutral (info : ElementInfo) : ElementInfo :=
  { info with kind := .native, isStatic := false }

mutual

/-- The node without what the platform decides. -/
def Node.neutral : Node → Node
  | .element info children => .element info.neutral (Node.neutralAll children)
  | .text value location => .text value location
  | .interpolation expression key location => .interpolation expression key location
  | .slot info fallback => .slot info (Node.neutralAll fallback)
  | .chain branches key location => .chain (Branch.neutralAll branches) key location
  | .loop info children => .loop info (Node.neutralAll children)
  | .comment value location => .comment value location

/-- The nodes without what the platform decides. -/
def Node.neutralAll : List Node → List Node
  | [] => []
  | n :: rest => n.neutral :: Node.neutralAll rest

/-- The branches without what the platform decides. -/
def Branch.neutralAll : List Branch → List Branch
  | [] => []
  | .mk info children :: rest => .mk info (Node.neutralAll children) :: Branch.neutralAll rest

end

theorem Node.neutralAll_append (ns ns' : List Node) :
    Node.neutralAll (ns ++ ns') = Node.neutralAll ns ++ Node.neutralAll ns' := by
  induction ns with
  | nil => rfl
  | cons n ns ih => simp [Node.neutralAll, ih]

theorem Branch.neutralAll_append (bs bs' : List Branch) :
    Branch.neutralAll (bs ++ bs') = Branch.neutralAll bs ++ Branch.neutralAll bs' := by
  induction bs with
  | nil => rfl
  | cons b bs ih =>
    obtain ⟨info, children⟩ := b
    simp [Branch.neutralAll, ih]

/-! ## Chains -/

/-- The sibling without what the platform decides. -/
def Sibling.neutral (s : Sibling) : Sibling :=
  { s with node := s.node.neutral }

/-- The chain without what the platform decides. -/
def OpenChain.neutral (c : OpenChain) : OpenChain :=
  { c with branches := Branch.neutralAll c.branches, parked := Node.neutralAll c.parked }

theorem OpenChain.neutral_close (c : OpenChain) :
    Node.neutralAll c.close = c.neutral.close := rfl

theorem OpenChain.neutral_closeAll (chain : Option OpenChain) :
    Node.neutralAll (OpenChain.closeAll chain) =
      OpenChain.closeAll (chain.map OpenChain.neutral) := by
  cases chain with
  | none => rfl
  | some c => exact c.neutral_close

theorem OpenChain.neutral_extend (c : OpenChain) (role : ChainRole) (s : Sibling) :
    (c.extend (role.branch s)).neutral = c.neutral.extend (role.branch s.neutral) := by
  have hb : Branch.neutralAll [role.branch s] = [role.branch s.neutral] := by
    cases role <;> rfl
  simp [OpenChain.neutral, OpenChain.extend, Branch.neutralAll_append, hb, Node.neutralAll]

theorem Node.isSkippable_neutral (n : Node) : n.neutral.isSkippable = n.isSkippable := by
  cases n <;> rfl

/-- Forming chains does not hang on the platform. -/
theorem groupFrom_neutral (chain : Option OpenChain) (siblings : List Sibling) :
    (groupFrom chain siblings).map Node.neutralAll =
      groupFrom (chain.map OpenChain.neutral) (siblings.map Sibling.neutral) := by
  -- What is put before the nodes that are formed later.
  have before {x y : Except Flaw (List Node)} (ns : List Node)
      (h : x.map Node.neutralAll = y) :
      (x >>= fun more => .ok (ns ++ more)).map Node.neutralAll =
        y >>= fun more => .ok (Node.neutralAll ns ++ more) := by
    subst h
    cases x with
    | error flaw => rfl
    | ok more => exact congrArg Except.ok (Node.neutralAll_append ns more)
  induction siblings generalizing chain with
  | nil => exact congrArg Except.ok (OpenChain.neutral_closeAll chain)
  | cons s rest ih =>
    have hrole : s.neutral.role = s.role := rfl
    rw [List.map_cons]
    unfold groupFrom
    rw [hrole]
    cases s.role with
    | none =>
      cases chain with
      | none => exact before [s.node] (ih none)
      | some c =>
        have hskip : s.neutral.node.isSkippable = s.node.isSkippable := s.node.isSkippable_neutral
        dsimp only [Option.map_some]
        rw [hskip]
        split
        · rw [ih]
          simp [OpenChain.neutral, Node.neutralAll_append, Node.neutralAll, Sibling.neutral]
        · have hb := before (c.close ++ [s.node]) (ih none)
          simpa [Node.neutralAll_append, OpenChain.neutral_close, Node.neutralAll,
            Sibling.neutral] using hb
    | some role =>
      cases role with
      | onlyIf condition =>
        have hb := before (OpenChain.closeAll chain)
          (ih (some ⟨[(ChainRole.onlyIf condition).branch s], s.location, []⟩))
        rw [OpenChain.neutral_closeAll] at hb
        exact hb
      | elseIf condition =>
        cases chain with
        | none => rfl
        | some c =>
          dsimp only [Option.map_some]
          rw [ih, Option.map_some, OpenChain.neutral_extend]
      | otherwise =>
        cases chain with
        | none => rfl
        | some c =>
          have hb := before (c.extend (ChainRole.otherwise.branch s)).close (ih none)
          rw [OpenChain.neutral_close, OpenChain.neutral_extend] at hb
          exact hb

theorem settle_neutral (siblings : List Sibling) (flaw : Option Flaw) :
    (settle (siblings, flaw)).map Node.neutralAll =
      settle (siblings.map Sibling.neutral, flaw) := by
  have hg := groupFrom_neutral none siblings
  unfold settle group
  rw [Option.map_none] at hg
  rw [← hg]
  cases groupFrom none siblings with
  | error f => rfl
  | ok nodes => cases flaw <;> rfl

/-! ## Nodes -/

theorem Node.neutral_ofStart (p q : Platform) (tag : String) (attributes : List Attribute)
    (directives : List Directive) (selfClosing : Bool) (location : Location)
    {children children' : List Node}
    (h : Node.neutralAll children = Node.neutralAll children') :
    (Node.ofStart p tag attributes directives selfClosing location children).neutral =
      (Node.ofStart q tag attributes directives selfClosing location children').neutral := by
  unfold Node.ofStart
  split <;> simp [Node.neutral, ElementInfo.neutral, h]

theorem Node.hasTwoNames_neutral (n : Node) : n.neutral.hasTwoNames = n.hasTwoNames := by
  cases n <;> rfl

theorem Node.neutral_looped {n n' : Node} (h : n.neutral = n'.neutral)
    (directives : List Directive) (depth : Nat) (location : Location) :
    (n.looped directives depth location).neutral = (n'.looped directives depth location).neutral := by
  unfold Node.looped
  split
  · exact h
  · simp [Node.neutral, Node.neutralAll, h]

section Lower

variable (p q : Platform) (locate : Nat → Location)

mutual

/-- A node is read alike for two platforms. -/
theorem Raw.lower_neutral (depth : Nat) (r : Raw) :
    (Raw.lower p locate depth r).map Sibling.neutral =
      (Raw.lower q locate depth r).map Sibling.neutral := by
  match r with
  | .text value start => rfl
  | .comment value start => rfl
  | .interpolation source start => rfl
  | .element tag attributes selfClosing start children =>
    rw [Raw.lower, Raw.lower]
    cases RawAttribute.items locate false false attributes with
    | error flaw => rfl
    | ok items =>
      let directives := items.filterMap StartItem.directive?
      let inner := if (loopOf directives).isSome then depth + 1 else depth
      have hsettle : (settle (Raw.lowerEach p locate inner children)).map Node.neutralAll =
          (settle (Raw.lowerEach q locate inner children)).map Node.neutralAll := by
        rw [settle_neutral, settle_neutral, Raw.lowerEach_neutral inner children]
      show (settle (Raw.lowerEach p locate inner children) >>= _).map _ =
        (settle (Raw.lowerEach q locate inner children) >>= _).map _
      rcases Except.map_eq_map hsettle with ⟨flaw, hp, hq⟩ | ⟨nodes, nodes', hp, hq, hn⟩
      · rw [hp, hq]
        rfl
      · have hnode := Node.neutral_ofStart p q tag (items.filterMap StartItem.attribute?) directives
          selfClosing (locate start) hn
        have htwo := congrArg Node.hasTwoNames hnode
        rw [Node.hasTwoNames_neutral, Node.hasTwoNames_neutral] at htwo
        rw [hp, hq]
        show Except.map _ (if _ then _ else _) = Except.map _ (if _ then _ else _)
        rw [htwo]
        split
        · rfl
        · simp only [Except.map, Sibling.neutral, Except.ok.injEq, Sibling.mk.injEq, and_true]
          exact Node.neutral_looped hnode directives depth (locate start)

theorem Raw.lowerEach_neutral (depth : Nat) (rs : List Raw) :
    ((Raw.lowerEach p locate depth rs).1.map Sibling.neutral, (Raw.lowerEach p locate depth rs).2) =
      ((Raw.lowerEach q locate depth rs).1.map Sibling.neutral,
        (Raw.lowerEach q locate depth rs).2) := by
  match rs with
  | [] => rfl
  | r :: rest =>
    rw [Raw.lowerEach, Raw.lowerEach]
    rcases Except.map_eq_map (Raw.lower_neutral depth r) with ⟨flaw, hp, hq⟩ | ⟨s, s', hp, hq, hs⟩
    · rw [hp, hq]
    · obtain ⟨hmore, hflaw⟩ := Prod.mk.inj (Raw.lowerEach_neutral depth rest)
      rw [hp, hq]
      simp [hs, hmore, hflaw]

end

end Lower

theorem Template.read_neutral (p q : Platform) (whitespace : Whitespace) (source : List Char) :
    (Template.read ⟨p, whitespace⟩ source).map Node.neutralAll =
      (Template.read ⟨q, whitespace⟩ source).map Node.neutralAll := by
  have hsettle (kept : List Raw) :
      (settle (Raw.lowerEach p (Location.locate source) 0 kept)).map Node.neutralAll =
        (settle (Raw.lowerEach q (Location.locate source) 0 kept)).map Node.neutralAll := by
    rw [settle_neutral, settle_neutral, Raw.lowerEach_neutral p q]
  unfold Template.read
  cases Raw.read source with
  | error flaw => rfl
  | ok raw => cases whitespace <;> exact hsettle _

/-- A text is read alike for two platforms: it is a template for both or for neither, and the trees
differ only in what the platform decides. -/
theorem Template.parse_neutral (p q : Platform) (whitespace : Whitespace) (source : String) :
    (Template.parse ⟨p, whitespace⟩ source).map Node.neutralAll =
      (Template.parse ⟨q, whitespace⟩ source).map Node.neutralAll := by
  unfold Template.parse
  rcases Except.map_eq_map (Template.read_neutral p q whitespace source.toList) with
    ⟨flaw, hp, hq⟩ | ⟨nodes, nodes', hp, hq, hn⟩
  · rw [hp, hq]
  · rw [hp, hq]
    exact congrArg Except.ok hn

end UiTemplate
