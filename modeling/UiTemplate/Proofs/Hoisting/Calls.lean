import UiTemplate.Proofs.Hoisting.Step
import UiTemplate.Proofs.Rendering.Differs
import UiTemplate.Proofs.Siblings.Calls

/-!
# Calls with static elements hoisted

- `Calls.emitAll_hoists`: nodes are emitted alike with static elements hoisted and without.
- `Calls.generate_hoists`: what follows for a template.
-/

namespace UiTemplate

namespace Calls

/-! ## Steps to which the declarations do not matter -/

theorem imports_blind (name : String) : Blind (imports name) :=
  .modify fun _ _ => rfl

theorem uses_blind (h : Helper) : Blind (uses h) :=
  .modify fun _ _ => rfl

theorem call_blind (callee : String) (args : List (Option String)) : Blind (call callee args) :=
  (imports_blind callee).bind fun _ => .pure _

theorem fragment_blind : Blind fragment :=
  (imports_blind _).bind fun _ => .pure _

section Blind

variable (settings : CallSettings)

theorem display_blind (e : Expression) (key : Option Key) : Blind (display settings e key) := by
  refine (uses_blind _).bind fun _ => .get (fun s => ?_) fun _ _ => rfl
  split
  · exact .pure _
  · exact .pure _

/-- A component is resolved whatever has been declared before. -/
theorem component_blind (tag : String) : Blind (component settings tag) := by
  refine .get (fun s => ?_) fun _ _ => rfl
  split
  · exact .pure _
  · have rest (c : ComponentRef) : Blind (do
        modify fun s => { s with unit := { s.unit with components := s.unit.components ++ [c] } }
        return c.variableName : EmitCall String) := by
      refine Blind.bind (.modify fun _ _ => rfl) fun _ => .pure _
    dsimp only
    split
    · exact (imports_blind _).bind fun _ => rest _
    · exact (imports_blind _).bind fun _ => rest _
    · exact rest _

/-- Text is joined whatever has been declared before. -/
theorem textParts_blind (ns : List Node) : Blind (textParts settings ns) := by
  induction ns with
  | nil => exact .pure _
  | cons n ns ih =>
    cases n with
    | interpolation e key l =>
      exact (display_blind settings e key).bind fun _ => ih.bind fun _ => .pure _
    | text value l => exact ih.bind fun _ => .pure _
    | _ => exact ih

theorem constructElement_blind (info : ElementInfo) (props : ElementProps)
    (children : Option String) (flag : PatchFlag) (hoisted : Bool) :
    Blind (constructElement settings info props children flag hoisted) := by
  unfold constructElement
  cases info.kind with
  | native => exact (Blind.pure _).bind fun _ => call_blind _ _
  | component =>
    exact (component_blind settings _).bind fun _ => (Blind.pure _).bind fun _ => call_blind _ _
  | fragment => exact fragment_blind.bind fun _ => (Blind.pure _).bind fun _ => call_blind _ _

theorem outletOf_blind (info : SlotInfo) (path : Path) : Blind (outletOf settings info path) := by
  unfold outletOf
  split
  · exact .pure _
  · exact .throw _

/-- Directives are refused whatever has been declared before. -/
theorem checkDirectives_blind (ds : List Directive) (path : Path) :
    Blind (Emit.checkDirectives ds path) := by
  unfold Emit.checkDirectives
  split
  · exact .throw _
  · exact .pure _

end Blind

/-! ## Parts of nodes -/

section Parts

variable {platform : Platform} {swaps : List (String × String)}

/-- A step that gives code, whatever was declared. -/
theorem Hoists.same {step : EmitCall String} (h : Blind step) :
    Hoists platform [] step step Differs := by
  have h' : Hoists platform [] (step >>= Pure.pure) (step >>= Pure.pure) Differs :=
    .after h fun code => .pure (.same code)
  rwa [bind_pure] at h'

/-- A call declares nothing: it differs where its arguments do. -/
theorem call_hoists (callee : String) {args args' : List (Option String)}
    (h : DiffersEach swaps (arguments args) (arguments args')) :
    Hoists platform [] (call callee args) (call callee args') fun swaps' =>
      Differs (swaps ++ swaps') := by
  refine .after (imports_blind callee) fun _ => .pure ?_
  rw [List.append_nil]
  exact ((h.intercalate ", ").prepend (callee ++ "(")).follow ")"

/-- So does the call that makes a fragment. -/
theorem fragmentCall_hoists {children children' : String} (h : Differs swaps children children')
    (flag : PatchFlag) :
    Hoists platform [] (fragmentCall children flag) (fragmentCall children' flag) fun swaps' =>
      Differs (swaps ++ swaps') :=
  .after fragment_blind fun tag => call_hoists _ (arguments_differ [some tag, none] _ h)

/-- A loop differs where its child does. -/
theorem constructLoop_hoists (source : String) (info : LoopInfo) {child child' : String}
    (h : Differs swaps child child') (keyed : Bool) :
    Hoists platform [] (constructLoop source info child keyed)
      (constructLoop source info child' keyed) fun swaps' => Differs (swaps ++ swaps') := by
  have hproducer := h.prepend ("(" ++ ", ".intercalate info.params ++ ") => ")
  have hitems := helper_differs .forEach ((DiffersEach.singleton hproducer).prepend [source])
  exact .after (uses_blind _) fun _ => fragmentCall_hoists hitems _

/-- A conditional differs where its arms do. -/
theorem conditional_hoists {arms arms' : List (Option String × String)}
    (h : ArmsDiffer swaps arms arms') :
    Hoists platform [] (conditional arms) (conditional arms') fun swaps' =>
      Differs (swaps ++ swaps') := by
  obtain ⟨tested, others, rfl, htests, hlast⟩ := h.split
  unfold conditional
  dsimp only
  rcases hlast with ⟨last, last', hlast, hlast', hnode⟩ | ⟨hlast, hlast', rfl⟩
  · rw [hlast, hlast']
    refine .pure ?_
    rw [List.append_nil]
    exact htests.join.append hnode
  · rw [hlast, hlast', List.append_nil]
    refine .after (call_blind _ _) fun alternate => .pure ?_
    rw [List.append_nil]
    exact htests.join.follow alternate

variable (settings : CallSettings)

/-- The call that constructs an element from children that differ. -/
theorem constructElement_hoists (info : ElementInfo) (props : ElementProps)
    {children children' : String} (h : Differs swaps children children') (flag : PatchFlag)
    (hoisted : Bool) :
    Hoists platform [] (constructElement settings info props (some children) flag hoisted)
      (constructElement settings info props (some children') flag hoisted) fun swaps' =>
        Differs (swaps ++ swaps') := by
  have construct (callee tag : String) (flag dynamic : Option String) :
      Hoists platform [] (call callee [some tag, props.literal, some children, flag, dynamic])
        (call callee [some tag, props.literal, some children', flag, dynamic]) fun swaps' =>
          Differs (swaps ++ swaps') :=
    call_hoists callee (arguments_differ [some tag, props.literal] [flag, dynamic] h)
  unfold constructElement
  cases info.kind with
  | native => exact .after (.pure _) fun _ => construct _ _ _ _
  | component =>
    exact .after (component_blind settings _) fun _ => .after (.pure _) fun _ => construct _ _ _ _
  | fragment =>
    exact .after fragment_blind fun _ => .after (.pure _) fun _ => construct _ _ _ _

variable (path : Path)

/-- An element that stays where it is declares what its children do. -/
theorem elementCode_hoists (info : ElementInfo) {children : List Node}
    {c c' : EmitCall (List String)}
    (hc : Hoists platform (Node.hoistableAll false children) c c' DiffersEach) (hoisted : Bool) :
    Hoists platform (Node.hoistableAll false children)
      (elementCode settings path info children c hoisted)
      (elementCode settings path info children c' hoisted) Differs := by
  have whole (props : ElementProps) (items : Option String) (flag : PatchFlag) :
      Hoists platform [] (constructElement settings info props items flag hoisted)
        (constructElement settings info props items flag hoisted) Differs :=
    .same (constructElement_blind settings info props items flag hoisted)
  unfold elementCode
  by_cases hh : (hasHtml info && !children.isEmpty) = true
  · rw [if_pos hh, if_pos hh]
    exact .throw _
  · rw [if_neg hh, if_neg hh]
    refine .get fun s ds => ?_
    cases info.kind with
    | native =>
      dsimp only
      split
      · rename_i htext
        rw [isText, Bool.and_eq_true] at htext
        rw [Node.hoistableAll_of_isTextLike htext.2]
        exact .after (textParts_blind settings children) fun _ => whole _ _ _
      · split
        · rename_i hempty
          rw [List.isEmpty_iff.mp hempty]
          exact whole _ _ _
        · exact hc.deeper.andThen fun _ _ _ hitems =>
            constructElement_hoists settings info _ (arrayLiteral_differs _ hitems) _ hoisted
    | component =>
      dsimp only
      split
      · rename_i hempty
        rw [List.isEmpty_iff.mp hempty]
        exact whole _ _ _
      · exact hc.deeper.andThen fun _ _ _ hitems =>
          constructElement_hoists settings info _
            (((arrayLiteral_differs _ hitems).prepend "\x7b default: () => ").follow " \x7d") _
            hoisted
    | fragment =>
      exact hc.deeper.andThen fun _ _ _ hitems =>
        constructElement_hoists settings info _ (arrayLiteral_differs _ hitems) _ hoisted

/-- A slot declares what its fallback does. -/
theorem slotCode_hoists (info : SlotInfo) {fallback : List Node} {f f' : EmitCall String}
    {c c' : EmitCall (List String)}
    (hf : fallback.length = 1 → Hoists platform (Node.hoistableAll false fallback) f f' Differs)
    (hc : Hoists platform (Node.hoistableAll false fallback) c c' DiffersEach) :
    Hoists platform (Node.hoistableAll false fallback)
      (slotCode settings path info fallback.length f c)
      (slotCode settings path info fallback.length f' c') Differs := by
  refine .after (checkDirectives_blind _ _) fun _ => .after (outletOf_blind settings info path)
    fun outlet => .after (uses_blind _) fun _ => .get fun s ds => ?_
  dsimp only
  split
  · rename_i hnone
    rw [List.length_eq_zero_iff.mp hnone]
    exact .pure (.same _)
  · split
    · rename_i hone
      refine (hf hone).andThen fun _ _ _ hcode => .pure ?_
      rw [List.append_nil]
      exact hcode.prepend _
    · refine hc.deeper.andThen fun _ _ _ hitems => ?_
      refine (fragmentCall_hoists (arrayLiteral_differs _ hitems) _).andThen fun _ _ _ hcode => ?_
      refine .pure ?_
      rw [List.append_nil]
      exact hcode.prepend _

end Parts

/-! The settings hang on the hoisting nowhere but where it is decided. -/

theorem display_hoisting (settings : CallSettings) (b : Bool) (e : Expression) (key : Option Key) :
    display (settings.hoisting b) e key = display settings e key := rfl

/-- Only what is passed on as the run for the children can hoist. -/
theorem elementCode_hoisting (settings : CallSettings) (path : Path) (b : Bool) (info : ElementInfo)
    (children : List Node) (c : EmitCall (List String)) (hoisted : Bool) :
    elementCode (settings.hoisting b) path info children c hoisted =
      elementCode settings path info children c hoisted :=
  elementCode_congr path settings (settings.hoisting b) rfl rfl rfl info children c hoisted

theorem slotCode_hoisting (settings : CallSettings) (path : Path) (b : Bool) (info : SlotInfo)
    (count : Nat) (f : EmitCall String) (c : EmitCall (List String)) :
    slotCode (settings.hoisting b) path info count f c = slotCode settings path info count f c :=
  rfl

/-! ## Static elements -/

section Static

variable (settings : CallSettings) (path : Path) {info : ElementInfo} {children : List Node}

/-- A hoisted element: its name stands where its code stands without hoisting. -/
theorem hoisted_hoists (hn : ∀ m ∈ (Node.element info children).within, m.IsPlain) :
    Hoists settings.platform [.element info children]
      (aside (elementCode (settings.hoisting true) path info children
        (emitAll (settings.hoisting true) path 0 children) true) >>= declare)
      (elementCode (settings.hoisting false) path info children
        (emitAll (settings.hoisting false) path 0 children) false) Differs := by
  intro before s
  obtain ⟨⟨hkind, hdirectives⟩, hbelow⟩ := List.forall_mem_cons.mp hn
  have hon := elementCode_static (settings.hoisting true) path hkind hdirectives hbelow true
    { s.declaring (Node.declarations settings.platform before) with level := 0, hoisting := true }
    (emitAll_static _ path 0 children hbelow _ rfl)
  have haside : (aside (elementCode (settings.hoisting true) path info children
        (emitAll (settings.hoisting true) path 0 children) true)).run
        (s.declaring (Node.declarations settings.platform before)) =
      (.ok ((Node.element info children).hoistedCode settings.platform),
        (s.importing (Node.element info children).constructors).declaring
          (Node.declarations settings.platform before)) :=
    run_aside hon
  have hoff := elementCode_static (settings.hoisting false) path hkind hdirectives hbelow false
    (s.declaring []) (emitAll_static _ path 0 children hbelow _ rfl)
  refine .inr ⟨Node.hoistedName before.length,
    (Node.element info children).staticCode settings.platform s.level,
    [(s.level, .element info children)], s.importing (Node.element info children).constructors,
    rfl, ?_, ?_, ?_⟩
  · have hcode :
        Code.reindent s.level ((Node.element info children).staticCode settings.platform 0) =
          (Node.element info children).staticCode settings.platform s.level :=
      Node.reindent_staticCode 0 s.level _ hn
    rw [← hcode]
    exact .swap _ _
  · rw [Emit.run_bind_ok haside, Node.declarations_append_singleton]
    have hlength : (Node.declarations settings.platform before).length = before.length :=
      List.length_mapIdx
    rw [← hlength]
    rfl
  · rw [hoff, Node.staticCode]
    rfl

/-- A static element declares itself, unless it is the root of a part. -/
theorem elementOrHoisted_hoists (root : Bool) (hroot : decide (1 < path.length) = !root)
    (hn : (Node.element info children).IsSettled)
    (hc : Hoists settings.platform (Node.hoistableAll false children)
      (emitAll (settings.hoisting true) path 0 children)
      (emitAll (settings.hoisting false) path 0 children) DiffersEach) :
    Hoists settings.platform ((Node.element info children).hoistable root)
      (elementOrHoisted (settings.hoisting true) path info children
        (emitAll (settings.hoisting true) path 0 children))
      (elementOrHoisted (settings.hoisting false) path info children
        (emitAll (settings.hoisting false) path 0 children)) Differs := by
  refine .after (checkDirectives_blind _ _) fun _ => .get fun s ds => ?_
  have hon : ((settings.hoisting true).hoistStatic && !(s.declaring ds).hoisting && info.isStatic &&
      decide (1 < path.length)) = (info.isStatic && !root) := by
    rw [hroot]
    rfl
  have hoff : ((settings.hoisting false).hoistStatic && !(s.declaring []).hoisting &&
      info.isStatic && decide (1 < path.length)) = false := rfl
  rw [hon, hoff, if_neg Bool.false_ne_true, Node.hoistable]
  split
  · rename_i hstatic
    exact hoisted_hoists settings path (hn.static (Bool.and_eq_true _ _ ▸ hstatic).1)
  · rw [elementCode_hoisting, elementCode_hoisting]
    exact elementCode_hoists settings path info hc false

end Static

/-! ## Nodes -/

section Nodes

variable (settings : CallSettings)

theorem isEmpty_child (parent : Path) (index : Nat) : (parent.child index).isEmpty = false := by
  simp [Path.child]

/-- A child stands below another one exactly if its parent is no root. -/
theorem one_lt_length_child (parent : Path) (index : Nat) :
    decide (1 < (parent.child index).length) = !parent.isEmpty := by
  cases parent with
  | nil => rfl
  | cons => simp [Path.child]

/-- A child declares what its node does. -/
theorem emitChild_hoists (ht : settings.tolerant = false) {es : List Node} {path : Path} {n : Node}
    (h : Hoists settings.platform es (emit (settings.hoisting true) path n)
      (emit (settings.hoisting false) path n) Differs) :
    Hoists settings.platform es (emitChild (settings.hoisting true) path n)
      (emitChild (settings.hoisting false) path n)
      fun swaps code code' => ∃ a b, code = some a ∧ code' = some b ∧ Differs swaps a b := by
  have htolerant (b : Bool) : (settings.hoisting b).tolerant = false := ht
  unfold emitChild
  rw [htolerant, htolerant]
  exact h.handle

mutual

/-- A node declares its static elements, those of greatest size. -/
theorem emit_hoists (ht : settings.tolerant = false) (parent : Path) (index : Nat) (n : Node)
    (hn : ∀ m ∈ n.within, m.IsSettled) :
    Hoists settings.platform (n.hoistable parent.isEmpty)
      (emit (settings.hoisting true) (parent.child index) n)
      (emit (settings.hoisting false) (parent.child index) n) Differs := by
  match n with
  | .element info children =>
    obtain ⟨hself, hbelow⟩ := List.forall_mem_cons.mp hn
    have hchildren := emitAll_hoists ht (parent.child index) 0 children hbelow
    rw [isEmpty_child] at hchildren
    rw [emit, emit]
    exact elementOrHoisted_hoists settings _ _ (one_lt_length_child parent index) hself hchildren
  | .text value l =>
    rw [emit, emit]
    exact .same (call_blind _ _)
  | .interpolation e key l =>
    rw [emit, emit, display_hoisting, display_hoisting]
    exact .after (display_blind settings e key) fun code => .same (call_blind _ _)
  | .slot info fallback =>
    obtain ⟨-, hbelow⟩ := List.forall_mem_cons.mp hn
    have hfallback := emitAll_hoists ht (parent.child index) 0 fallback hbelow
    rw [isEmpty_child] at hfallback
    rw [emit, emit, slotCode_hoisting, slotCode_hoisting]
    exact slotCode_hoists settings _ info
      (fun hone => emitFirst_hoists ht (parent.child index) fallback hone hbelow
        (isEmpty_child parent index)) hfallback
  | .chain branches key l =>
    obtain ⟨hself, hbelow⟩ := List.forall_mem_cons.mp hn
    rw [emit, emit]
    exact (emitBranches_hoist ht (parent.child index) 0 branches hself.single hself.ordered
      hbelow).andThen fun _ _ _ harms => conditional_hoists harms
  | .loop info children =>
    obtain ⟨hself, hbelow⟩ := List.forall_mem_cons.mp hn
    obtain ⟨child, hchild⟩ := hself.single
    have hone : children.length = 1 := congrArg List.length hchild
    rw [emit, emit]
    refine .get fun s ds => ?_
    exact (emitFirst_hoists ht (parent.child index) children hone hbelow
      (isEmpty_child parent index)).withLocals _ |>.andThen fun _ _ _ hcode =>
        constructLoop_hoists _ info hcode _
  | .comment value l =>
    rw [emit, emit]
    exact .same (call_blind _ _)

/-- A single child declares what its node does. -/
theorem emitFirst_hoists (ht : settings.tolerant = false) (parent : Path) (ns : List Node)
    (hone : ns.length = 1) (hn : ∀ m ∈ Node.withinAll ns, m.IsSettled)
    (hp : parent.isEmpty = false) :
    Hoists settings.platform (Node.hoistableAll false ns)
      (emitFirst (settings.hoisting true) parent ns)
      (emitFirst (settings.hoisting false) parent ns) Differs := by
  match ns with
  | [n] =>
    have hfirst := emit_hoists ht parent 0 n (List.forall_mem_append.mp hn).1
    rw [hp] at hfirst
    rw [emitFirst, emitFirst, Node.hoistableAll, Node.hoistableAll, List.append_nil]
    exact hfirst

/-- Nodes are emitted alike with static elements hoisted and without. -/
theorem emitAll_hoists (ht : settings.tolerant = false) (parent : Path) (index : Nat)
    (ns : List Node) (hn : ∀ m ∈ Node.withinAll ns, m.IsSettled) :
    Hoists settings.platform (Node.hoistableAll parent.isEmpty ns)
      (emitAll (settings.hoisting true) parent index ns)
      (emitAll (settings.hoisting false) parent index ns) DiffersEach := by
  match ns with
  | [] =>
    rw [emitAll, emitAll]
    exact .pure .nil
  | n :: rest =>
    obtain ⟨hfirst, hrest⟩ := List.forall_mem_append.mp hn
    rw [emitAll_cons, emitAll_cons, Node.hoistableAll]
    refine (emitChild_hoists settings ht (emit_hoists ht parent index n hfirst)).bind
      fun swaps _ _ hcode => ?_
    obtain ⟨code, code', rfl, rfl, hcode⟩ := hcode
    refine (emitAll_hoists ht parent (index + 1) rest hrest).andThen fun swaps' _ _ hmore =>
      .pure ?_
    rw [List.append_nil]
    exact .cons hcode hmore

/-- The branches of a chain declare what their children do, in their order. -/
theorem emitBranches_hoist (ht : settings.tolerant = false) (parent : Path) (index : Nat)
    (bs : List Branch) (hs : ∀ b ∈ bs, ∃ n, b.children = [n] ∧ n.isComment = false)
    (ho : ∀ c ∈ (bs.map fun b => b.info.condition).dropLast, c ≠ none)
    (hn : ∀ m ∈ Branch.withinAll bs, m.IsSettled) :
    Hoists settings.platform (Node.hoistableBranches bs)
      (emitBranches (settings.hoisting true) parent index bs)
      (emitBranches (settings.hoisting false) parent index bs) ArmsDiffer := by
  match bs with
  | [] =>
    rw [emitBranches, emitBranches]
    exact .pure .nil
  | .mk info [] :: rest =>
    obtain ⟨⟨n, hnil, -⟩, -⟩ := List.forall_mem_cons.mp hs
    cases hnil
  | .mk info (n :: more) :: rest =>
    obtain ⟨⟨m, hm, -⟩, hsingle⟩ := List.forall_mem_cons.mp hs
    obtain rfl : more = [] := (List.cons.inj hm).2
    obtain ⟨hfirst, hbelow⟩ := List.forall_mem_append.mp hn
    have hnode := emit_hoists ht (parent.child index) 0 n (List.forall_mem_append.mp hfirst).1
    rw [isEmpty_child] at hnode
    rw [emitBranches, emitBranches, Node.hoistableBranches, Node.hoistableAll, Node.hoistableAll,
      List.append_nil]
    refine hnode.bind fun swaps code code' hcode => .get fun s ds => ?_
    cases hc : info.condition with
    | none =>
      -- A branch without a condition is the last one.
      obtain rfl : rest = [] := by
        cases rest with
        | nil => rfl
        | cons b rest => exact absurd hc (ho _ List.mem_cons_self)
      rw [emitBranches, emitBranches]
      refine .pure ?_
      rw [List.append_nil]
      exact .otherwise hcode
    | some e =>
      have hordered : ∀ c ∈ (rest.map fun b => b.info.condition).dropLast, c ≠ none := by
        cases rest with
        | nil => exact fun c hc => absurd hc List.not_mem_nil
        | cons b rest => exact fun c hc => ho c (List.mem_cons_of_mem _ hc)
      refine (emitBranches_hoist ht parent (index + 1) rest hsingle hordered hbelow).andThen
        fun swaps' _ _ hmore => .pure ?_
      rw [List.append_nil]
      exact .test _ hcode hmore

end

/-! ## Templates -/

/-- The code of a template with one root. -/
theorem emitRoots_singleton (n : Node) :
    emitRoots settings [n] = (do
      let code ← emitChild settings (Path.child [] 0) n
      return code.getD "null") := by
  show (do
    let codes ← emitAll settings [] 0 [n]
    return codes.getLast?.getD "null" : EmitCall String) = _
  rw [emitAll_cons, emitAll, bind_assoc]
  refine bind_congr fun code => ?_
  cases code <;> rfl

/-- The roots declare what all nodes do, but not a root itself. -/
theorem emitRoots_hoists (ht : settings.tolerant = false) (nodes : List Node)
    (hn : ∀ m ∈ Node.withinAll nodes, m.IsSettled) :
    Hoists settings.platform (Node.hoistableAll true nodes)
      (emitRoots (settings.hoisting true) nodes) (emitRoots (settings.hoisting false) nodes)
      Differs := by
  match nodes with
  | [] => exact .pure (.same _)
  | [n] =>
    have hnode := emit_hoists settings ht [] 0 n (List.forall_mem_append.mp hn).1
    rw [emitRoots_singleton, emitRoots_singleton, Node.hoistableAll, Node.hoistableAll,
      List.append_nil]
    refine (emitChild_hoists settings ht hnode).andThen fun swaps _ _ hcode => .pure ?_
    obtain ⟨code, code', rfl, rfl, hcode⟩ := hcode
    rw [List.append_nil]
    exact hcode
  | n :: next :: rest =>
    have hmany : 1 < (n :: next :: rest).length := by simp
    unfold emitRoots
    rw [if_pos hmany, if_pos hmany]
    refine .get fun s ds => ?_
    exact (emitAll_hoists settings ht [] 0 _ hn).deeper.andThen fun _ _ _ hitems =>
      fragmentCall_hoists (arrayLiteral_differs _ hitems) _

/-- How what is emitted with static elements hoisted compares with what is emitted without. -/
structure Hoisted (platform : Platform) (nodes : List Node)
    (on off : RenderUnit × List Diagnostic) : Prop where
  components : on.1.components = off.1.components
  helpers : on.1.helpers = off.1.helpers
  imports : on.1.imports = off.1.imports
  errors : on.2 = off.2
  /-- Without hoisting nothing is declared. -/
  undeclared : off.1.hoisted = []
  /-- There is one declaration a hoisted element, in the order of the document. -/
  declared : on.1.hoisted = Node.declarations platform (Node.hoistableAll true nodes)
  /-- Hoisted elements are static ones of the template. -/
  elements : ∀ e ∈ Node.hoistableAll true nodes, e ∈ Node.withinAll nodes ∧ e.isStatic = true
  /-- What is declared is the code in place with the flag of hoisted nodes as a further argument. -/
  flagged : ∀ e ∈ Node.hoistableAll true nodes, ∃ args,
    e.hoistedCode platform =
        callText "createElementVNode" (args ++ [some PatchFlag.hoisted.render]) ∧
      e.staticCode platform 0 = callText "createElementVNode" args
  /-- What is declared refers to nothing that the template computes or looks up. -/
  constant : ∀ e ∈ Node.hoistableAll true nodes, Constant (e.hoistedCode platform)
  /-- With the code of each hoisted element, at the right level of indentation, in place of its
  name, the root is the same. -/
  root : ∃ placed : List (Nat × Node), placed.map Prod.snd = Node.hoistableAll true nodes ∧
    Differs (Node.swaps platform 0 placed) on.1.root off.1.root

/-- A strict emission with static elements hoisted fails with the fault of one without, or both
succeed and compare. -/
theorem generate_hoists (ht : settings.tolerant = false) {nodes : List Node}
    (hn : ∀ m ∈ Node.withinAll nodes, m.IsSettled) :
    Except.Agree (Hoisted settings.platform nodes) (generate (settings.hoisting true) nodes)
      (generate (settings.hoisting false) nodes) := by
  have hinitial : (({} : CallState).declaring []) = {} := rfl
  have hruns := emitRoots_hoists settings ht nodes hn [] {}
  have hnone : Node.declarations settings.platform [] = [] := rfl
  rw [hnone, hinitial] at hruns
  have helements := Node.mem_hoistableAll true nodes
  unfold generate
  rcases hruns with ⟨d, t, t', hon, hoff⟩ | ⟨root, root', placed, s, hes, hroot, hon, hoff⟩
  · rw [hon, hoff]
    exact .error d
  · rw [hon, hoff]
    refine .ok ⟨rfl, rfl, rfl, rfl, rfl, rfl, fun e he => (helements e he).imp_right And.left,
      ?_, ?_, placed, hes, hroot⟩
    · intro e he
      obtain ⟨-, -, info, children, rfl⟩ := helements e he
      exact ⟨_, rfl, rfl⟩
    · intro e he
      obtain ⟨hmem, hstatic, -⟩ := helements e he
      exact e.constant_hoistedCode ((hn e hmem).static hstatic)

end Nodes

end Calls

end UiTemplate
