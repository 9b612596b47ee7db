import UiTemplate.Proofs.Backend.Growth
import UiTemplate.Proofs.Backend.Names
import UiTemplate.Proofs.Template.Shape

/-!
# The components of a unit

- `Node.componentTags`: the tags of the components that nodes use.
- `Calls.emitAll_gains`: the unit gains a component for each tag that nodes use, and stays well
  named.
- `Calls.generate_wellNamed`: what follows for a template.
-/

namespace UiTemplate

/-! ## What nodes use -/

/-- The tag of the component that an element stands for. -/
def ElementInfo.componentTag? (info : ElementInfo) : Option String :=
  match info.kind with
  | .component => some info.tag
  | _ => none

/-- The tag of the component that a node itself stands for. -/
def Node.componentTag? : Node → Option String
  | .element info _ => info.componentTag?
  | _ => none

/-- The tags of the components that nodes themselves stand for. -/
def Node.componentTags (ns : List Node) : List String :=
  ns.filterMap Node.componentTag?

theorem Node.componentTags_append (ns ns' : List Node) :
    Node.componentTags (ns ++ ns') = Node.componentTags ns ++ Node.componentTags ns' :=
  List.filterMap_append

/-- The components of an element are itself and those of its children. -/
theorem Node.componentTags_element (info : ElementInfo) (children : List Node) :
    Node.componentTags (Node.element info children).within =
      info.componentTag?.toList ++ Node.componentTags (Node.withinAll children) := by
  rw [Node.within, Node.componentTags, List.filterMap_cons, Node.componentTag?]
  cases info.componentTag? <;> rfl

theorem Node.componentTag?_strip (n : Node) :
    (n.strip SlotInfo.plain).componentTag? = n.componentTag? := by
  cases n <;> rfl

/-- Text and interpolations use no component. -/
theorem Node.componentTags_of_isTextLike {ns : List Node} (h : ns.all Node.isTextLike = true) :
    Node.componentTags (Node.withinAll ns) = [] := by
  induction ns with
  | nil => rfl
  | cons n ns ih =>
    rw [List.all_cons, Bool.and_eq_true] at h
    cases n with
    | text => exact ih h.2
    | interpolation => exact ih h.2
    | _ => cases h.1

/-! ## What the unit gains -/

/-- The unit gains components of these tags, and stays well named. -/
structure RenderUnit.GainsComponents (resolver : Resolver) (tags : List String)
    (u u' : RenderUnit) : Prop where
  tags : ∀ t, t ∈ u'.components.map ComponentRef.tag ↔
    t ∈ u.components.map ComponentRef.tag ∨ t ∈ tags
  keeps : u.WellNamed resolver → u'.WellNamed resolver

/-- The components that a unit gains. -/
def componentGrowth (resolver : Resolver) : Growth String where
  By := RenderUnit.GainsComponents resolver
  refl u := ⟨fun t => by simp, id⟩
  append h h' := ⟨fun t => by rw [h'.tags, h.tags, List.mem_append, or_assoc], h'.keeps ∘ h.keeps⟩
  perm h hp := ⟨fun t => by rw [h.tags, hp.mem_iff], h.keeps⟩

/-! ## What is noted -/

/-- A name that is inserted is added to the names. -/
theorem mem_insertName {name n : String} {names : List String} :
    n ∈ insertName name names ↔ n = name ∨ n ∈ names := by
  induction names with
  | nil => simp [insertName]
  | cons first names ih =>
    rw [insertName]
    split
    · simp
    · split
      · rename_i heq
        simp [heq]
      · simp [ih, or_left_comm]

/-- Names stay in ascending order. -/
theorem insertName_ascending {names : List String} (h : names.Pairwise (· < ·)) (name : String) :
    (insertName name names).Pairwise (· < ·) := by
  induction names with
  | nil => exact List.pairwise_singleton ..
  | cons first names ih =>
    obtain ⟨hfirst, hnames⟩ := List.pairwise_cons.mp h
    rw [insertName]
    split
    · rename_i hlt
      refine List.pairwise_cons.mpr ⟨List.forall_mem_cons.mpr ⟨hlt, fun n hn => ?_⟩, h⟩
      exact String.lt_trans hlt (hfirst n hn)
    · rename_i hle
      split
      · exact h
      · rename_i hne
        refine List.pairwise_cons.mpr ⟨fun n hn => ?_, ih hnames⟩
        rcases mem_insertName.mp hn with rfl | hn
        · exact Std.lt_of_le_of_ne (String.not_lt.mp hle) (Ne.symm hne)
        · exact hfirst n hn

namespace RenderUnit.WellNamed

variable {resolver : Resolver} {u : RenderUnit} (h : u.WellNamed resolver)
include h

theorem addImport {name : String} (hname : '_' ∉ name.toList) :
    { u with imports := insertName name u.imports }.WellNamed resolver := by
  refine ⟨h.tags, h.sources, insertName_ascending h.ascending name, fun n hn => ?_, h.hoisted⟩
  rcases mem_insertName.mp hn with rfl | hn
  · exact hname
  · exact h.plain n hn

/-- A component whose tag has none yet. -/
theorem addComponent {tag : String} (htag : tag ∉ u.components.map ComponentRef.tag) :
    { u with components := u.components ++ [(⟨tag, resolver tag⟩ : ComponentRef)] }.WellNamed
      resolver := by
  refine ⟨?_, fun c hc => ?_, h.ascending, h.plain, h.hoisted⟩
  · rw [List.map_append]
    refine List.nodup_append.mpr ⟨h.tags, List.nodup_singleton tag, fun t ht t' ht' heq => ?_⟩
    obtain rfl := List.mem_singleton.mp ht'
    exact htag (heq ▸ ht)
  · rcases List.mem_append.mp hc with hc | hc
    · exact h.sources c hc
    · rw [List.mem_singleton.mp hc]

/-- A hoisted node gets the number behind those of all others. -/
theorem addHoisted (code : String) :
    { u with hoisted := u.hoisted ++ ["const " ++ ("_hoisted_" ++
      Decimal.natText (u.hoisted.length + 1)) ++ " = " ++ code] }.WellNamed resolver := by
  obtain ⟨values, hvalues⟩ := h.hoisted
  refine ⟨h.tags, h.sources, h.ascending, h.plain, values ++ [code], ?_⟩
  have hlength : u.hoisted.length = values.length := by simp [hvalues, hoistedConstants]
  rw [hoistedConstants_concat, List.map_append, hlength, ← hvalues]
  rfl

end RenderUnit.WellNamed

namespace Calls

section Steps

variable (settings : CallSettings)

/-- The components of which tags the unit gains by a step that succeeds. -/
abbrev Gains {α : Type} (settings : CallSettings) (tags : List String) (step : EmitCall α) : Prop :=
  (componentGrowth settings.resolver).Adds tags step fun _ => True

/-- What only changes the imports, the helpers or the hoisted nodes adds no component. -/
theorem gains_modify {f : RenderUnit → RenderUnit} (hc : ∀ u, (f u).components = u.components)
    (h : ∀ u, u.WellNamed settings.resolver → (f u).WellNamed settings.resolver) :
    Gains settings [] (modify fun s => { s with unit := f s.unit }) :=
  .modify fun u => ⟨fun t => by simp [hc], h u⟩

/-- A name that is no alias can be imported. -/
theorem imports_gains {name : String} (hname : '_' ∉ name.toList) :
    Gains settings [] (imports name) :=
  gains_modify settings (f := fun u => { u with imports := insertName name u.imports })
    (fun _ => rfl) fun _ h => h.addImport hname

theorem uses_gains (h : Helper) : Gains settings [] (uses h) :=
  gains_modify settings (f := fun u => { u with helpers := u.helpers.insert h }) (fun _ => rfl)
    fun _ h => ⟨h.tags, h.sources, h.ascending, h.plain, h.hoisted⟩

theorem call_gains {callee : String} (hcallee : '_' ∉ callee.toList) (args : List (Option String)) :
    Gains settings [] (call callee args) :=
  (imports_gains settings hcallee).after fun _ _ => .pure trivial

theorem fragment_gains : Gains settings [] fragment :=
  (imports_gains settings (by decide)).after fun _ _ => .pure trivial

theorem fragmentCall_gains (children : String) (flag : PatchFlag) :
    Gains settings [] (fragmentCall children flag) :=
  (fragment_gains settings).after fun _ _ => call_gains settings (by decide) _

theorem display_gains (e : Expression) (key : Option Key) :
    Gains settings [] (display settings e key) := by
  refine (uses_gains settings _).after fun _ _ => .get fun s => ?_
  split
  · exact .pure trivial
  · exact .pure trivial

/-- A tag has a component after it was looked up. -/
theorem component_gains (tag : String) : Gains settings [tag] (component settings tag) := by
  intro s s' a hr
  unfold component at hr
  rw [Emit.run_bind_ok (rfl : (get : EmitCall CallState).run s = (.ok s, s))] at hr
  refine ⟨trivial, ?_⟩
  split at hr
  · rename_i c hfind
    cases hr
    have htag : c.tag = tag := by simpa using List.find?_some hfind
    have hmem := List.mem_map_of_mem (f := ComponentRef.tag) (List.mem_of_find?_eq_some hfind)
    refine ⟨fun t => (or_iff_left_of_imp fun ht => ?_).symm, id⟩
    rw [List.mem_singleton.mp ht, ← htag]
    exact hmem
  · rename_i hfind
    have hnew : tag ∉ s.unit.components.map ComponentRef.tag := by simpa using hfind
    dsimp only at hr
    split at hr
    · cases hr
      exact ⟨fun t => by simp, fun h => (h.addImport (by decide)).addComponent hnew⟩
    · cases hr
      exact ⟨fun t => by simp, fun h => (h.addImport (by decide)).addComponent hnew⟩
    · cases hr
      exact ⟨fun t => by simp, fun h => h.addComponent hnew⟩

/-- Text adds no component. -/
theorem textParts_gains (ns : List Node) : Gains settings [] (textParts settings ns) := by
  induction ns with
  | nil => exact .pure trivial
  | cons n ns ih =>
    cases n with
    | interpolation e key l =>
      exact (display_gains settings e key).after fun _ _ => ih.after fun _ _ => .pure trivial
    | text value l => exact ih.after fun _ _ => .pure trivial
    | _ => exact ih

/-- The call that makes an element adds its component, if it is one. -/
theorem constructElement_gains (info : ElementInfo) (props : ElementProps)
    (children : Option String) (flag : PatchFlag) (hoisted : Bool) :
    Gains settings info.componentTag?.toList
      (constructElement settings info props children flag hoisted) := by
  unfold constructElement ElementInfo.componentTag?
  cases info.kind with
  | native => exact .given (call_gains settings (by decide) _)
  | component =>
    exact (component_gains settings info.tag).andThen fun _ _ =>
      .given (call_gains settings (by decide) _)
  | fragment =>
    exact (fragment_gains settings).after fun _ _ => .given (call_gains settings (by decide) _)

theorem declare_gains (code : String) : Gains settings [] (declare code) := by
  intro s s' a hr
  cases hr
  exact ⟨trivial, fun t => by simp, fun h => h.addHoisted code⟩

theorem constructLoop_gains (source : String) (info : LoopInfo) (child : String) (keyed : Bool) :
    Gains settings [] (constructLoop source info child keyed) :=
  (uses_gains settings _).after fun _ _ => fragmentCall_gains settings _ _

theorem conditional_gains (arms : List (Option String × String)) :
    Gains settings [] (conditional arms) := by
  unfold conditional
  dsimp only
  split
  · exact .pure trivial
  · exact (call_gains settings (by decide) _).after fun _ _ => .pure trivial

end Steps

/-! ## Nodes -/

section Nodes

variable (settings : CallSettings)

theorem outletOf_gains (info : SlotInfo) (path : Path) :
    Gains settings [] (outletOf settings info path) :=
  .of_keeps (outletOf_keeps settings info path)

/-- The code of an element adds its component and those of its children. -/
theorem elementCode_gains (path : Path) (info : ElementInfo) {children : List Node}
    {c : EmitCall (List String)}
    (hc : Gains settings (Node.componentTags (Node.withinAll children)) c) (hoisted : Bool) :
    Gains settings (Node.componentTags (Node.element info children).within)
      (elementCode settings path info children c hoisted) := by
  rw [Node.componentTags_element]
  unfold elementCode
  by_cases hh : (hasHtml info && !children.isEmpty) = true
  · rw [if_pos hh]
    exact .throw _
  · rw [if_neg hh]
    refine .get fun s => ?_
    have construct (items : Option String) (flag : PatchFlag) :=
      constructElement_gains settings info (elementProps settings.platform s.locals info) items flag
        hoisted
    -- The component of the element is looked up behind those of its children.
    have hbelow (f : List String → Option String) (flag : PatchFlag) :
        Gains settings (info.componentTag?.toList ++ Node.componentTags (Node.withinAll children))
          (deeper c >>= fun items => constructElement settings info
            (elementProps settings.platform s.locals info) (f items) flag hoisted) :=
      (hc.deeper.bind fun items _ => construct (f items) flag).congr List.perm_append_comm
    have hnone (he : children.isEmpty = true) (flag : PatchFlag) :
        Gains settings (info.componentTag?.toList ++ Node.componentTags (Node.withinAll children))
          (constructElement settings info (elementProps settings.platform s.locals info) none flag
            hoisted) := by
      rw [List.isEmpty_iff.mp he]
      exact (construct none flag).congr (by simp [Node.componentTags, Node.withinAll])
    cases info.kind with
    | native =>
      dsimp only
      split
      · rename_i htext
        have hall := (Bool.and_eq_true_iff.mp htext).2
        rw [Node.componentTags_of_isTextLike hall, List.append_nil]
        exact (textParts_gains settings children).after fun _ _ => construct _ _
      · split
        · exact hnone (by assumption) _
        · exact hbelow (fun items => some (arrayLiteral s.level items)) _
    | component =>
      dsimp only
      split
      · exact hnone (by assumption) _
      · exact hbelow (fun items =>
          some ("\x7b default: () => " ++ arrayLiteral s.level items ++ " \x7d")) _
    | fragment => exact hbelow (fun items => some (arrayLiteral s.level items)) _

/-- So it does where static elements are hoisted. -/
theorem elementOrHoisted_gains (path : Path) (info : ElementInfo) {children : List Node}
    {c : EmitCall (List String)}
    (hc : Gains settings (Node.componentTags (Node.withinAll children)) c) :
    Gains settings (Node.componentTags (Node.element info children).within)
      (elementOrHoisted settings path info children c) := by
  have hcode (hoisted : Bool) := elementCode_gains settings path info hc hoisted
  refine Growth.Adds.after (.of_keeps (Emit.checkDirectives_keeps _ _)) fun _ _ => .get fun s => ?_
  split
  · exact (hcode true).aside.andThen fun code _ => declare_gains settings code
  · exact hcode false

/-- The code of a slot adds the components of its fallback. -/
theorem slotCode_gains (path : Path) (info : SlotInfo) {fallback : List Node} {f : EmitCall String}
    {c : EmitCall (List String)}
    (hf : fallback.length = 1 →
      Gains settings (Node.componentTags (Node.withinAll fallback)) f)
    (hc : Gains settings (Node.componentTags (Node.withinAll fallback)) c) :
    Gains settings (Node.componentTags (Node.withinAll fallback))
      (slotCode settings path info fallback.length f c) := by
  refine Growth.Adds.after (.of_keeps (Emit.checkDirectives_keeps _ _)) fun _ _ =>
    (outletOf_gains settings info path).after fun outlet _ =>
      (uses_gains settings _).after fun _ _ => .get fun s => ?_
  dsimp only
  split
  · rename_i hnone
    rw [List.eq_nil_of_length_eq_zero hnone]
    exact .pure trivial
  · split
    · rename_i hone
      exact (hf hone).andThen fun _ _ => .pure trivial
    · exact hc.deeper.andThen fun items _ =>
        (fragmentCall_gains settings _ _).after fun _ _ => .pure trivial

mutual

/-- The unit gains the components that are used in a node. -/
theorem emit_gains (ht : settings.tolerant = false) (path : Path) (n : Node)
    (h : ∀ m ∈ n.within, m.IsSingle) :
    Gains settings (Node.componentTags n.within) (emit settings path n) := by
  match n with
  | .element info children =>
    rw [emit]
    exact elementOrHoisted_gains settings path info
      (emitAll_gains ht path 0 children (List.forall_mem_cons.mp h).2)
  | .text value l =>
    rw [emit]
    exact call_gains settings (by decide) _
  | .interpolation e key l =>
    rw [emit]
    exact (display_gains settings e key).after fun _ _ => call_gains settings (by decide) _
  | .slot info fallback =>
    obtain ⟨-, hbelow⟩ := List.forall_mem_cons.mp h
    rw [emit]
    exact slotCode_gains settings path info (fun hone => emitFirst_gains ht path fallback hone hbelow)
      (emitAll_gains ht path 0 fallback hbelow)
  | .chain branches key l =>
    obtain ⟨hsingle, hbelow⟩ := List.forall_mem_cons.mp h
    rw [emit]
    exact (emitBranches_gains ht path 0 branches hsingle hbelow).andThen fun _ _ =>
      conditional_gains settings _
  | .loop info children =>
    obtain ⟨⟨child, hchild⟩, hbelow⟩ := List.forall_mem_cons.mp h
    have hone : children.length = 1 := congrArg List.length hchild
    rw [emit]
    refine .get fun s => ?_
    exact ((emitFirst_gains ht path children hone hbelow).withLocals info.locals).andThen
      fun _ _ => constructLoop_gains settings _ _ _ _
  | .comment value l =>
    rw [emit]
    exact call_gains settings (by decide) _

/-- A single child adds the components of its node. -/
theorem emitFirst_gains (ht : settings.tolerant = false) (path : Path) (ns : List Node)
    (hone : ns.length = 1) (h : ∀ m ∈ Node.withinAll ns, m.IsSingle) :
    Gains settings (Node.componentTags (Node.withinAll ns)) (emitFirst settings path ns) := by
  match ns with
  | [n] =>
    rw [emitFirst, Node.withinAll, Node.withinAll, List.append_nil]
    exact emit_gains ht _ n (List.forall_mem_append.mp h).1

/-- The unit gains the components that are used in nodes. -/
theorem emitAll_gains (ht : settings.tolerant = false) (parent : Path) (index : Nat)
    (ns : List Node) (h : ∀ m ∈ Node.withinAll ns, m.IsSingle) :
    Gains settings (Node.componentTags (Node.withinAll ns)) (emitAll settings parent index ns) := by
  match ns with
  | [] =>
    rw [emitAll]
    exact .pure trivial
  | n :: rest =>
    obtain ⟨hn, hrest⟩ := List.forall_mem_append.mp h
    rw [emitAll_cons, Node.withinAll, Node.componentTags_append]
    exact ((emit_gains ht (parent.child index) n hn).handle ht).bind fun _ _ =>
      (emitAll_gains ht parent (index + 1) rest hrest).andThen fun _ _ => .pure trivial

/-- The branches of a chain add the components of their children. -/
theorem emitBranches_gains (ht : settings.tolerant = false) (parent : Path) (index : Nat)
    (bs : List Branch) (hs : ∀ b ∈ bs, ∃ n, b.children = [n] ∧ n.isComment = false)
    (h : ∀ m ∈ Branch.withinAll bs, m.IsSingle) :
    Gains settings (Node.componentTags (Branch.withinAll bs))
      (emitBranches settings parent index bs) := by
  match bs with
  | [] =>
    rw [emitBranches]
    exact .pure trivial
  | .mk info [] :: rest =>
    obtain ⟨⟨n, hn, -⟩, -⟩ := List.forall_mem_cons.mp hs
    cases hn
  | .mk info (n :: more) :: rest =>
    obtain ⟨⟨m, hm, -⟩, hsingle⟩ := List.forall_mem_cons.mp hs
    obtain rfl : more = [] := (List.cons.inj hm).2
    obtain ⟨hfirst, hbelow⟩ := List.forall_mem_append.mp h
    have hnode := emit_gains ht ((parent.child index).child 0) n
      (List.forall_mem_append.mp hfirst).1
    rw [emitBranches, Branch.withinAll, Node.withinAll, Node.withinAll, List.append_nil,
      Node.componentTags_append]
    exact hnode.bind fun _ _ => .get fun s =>
      (emitBranches_gains ht parent (index + 1) rest hsingle hbelow).andThen fun _ _ =>
        .pure trivial

end

/-- The root adds those of all nodes. -/
theorem emitRoots_gains (ht : settings.tolerant = false) (nodes : List Node)
    (h : ∀ n ∈ Node.withinAll nodes, n.IsSingle) :
    Gains settings (Node.componentTags (Node.withinAll nodes)) (emitRoots settings nodes) := by
  have hall := emitAll_gains settings ht [] 0 nodes h
  unfold emitRoots
  split
  · exact .get fun s => hall.deeper.andThen fun _ _ => fragmentCall_gains settings _ _
  · exact hall.andThen fun _ _ => .pure trivial

/-- The unit of a template is well named, and its components are those that the template uses. -/
theorem generate_wellNamed (ht : settings.tolerant = false) {nodes : List Node} {unit : RenderUnit}
    {errors : List Diagnostic} (h : ∀ n ∈ Node.withinAll nodes, n.IsSingle)
    (hg : generate settings nodes = .ok (unit, errors)) :
    unit.WellNamed settings.resolver ∧
      ∀ t, t ∈ unit.components.map ComponentRef.tag ↔
        t ∈ Node.componentTags (Node.withinAll nodes) := by
  rcases hr : (emitRoots settings nodes).run {} with ⟨r, s⟩
  unfold generate at hg
  rw [hr] at hg
  cases r with
  | error d => cases hg
  | ok root =>
    cases hg
    obtain ⟨-, htags, hkeeps⟩ := emitRoots_gains settings ht nodes h {} s root hr
    have hstart : ({} : RenderUnit).WellNamed settings.resolver :=
      ⟨List.nodup_nil, nofun, List.Pairwise.nil, nofun, [], rfl⟩
    obtain ⟨tags, sources, ascending, plain, hoisted⟩ := hkeeps hstart
    refine ⟨⟨tags, sources, ascending, plain, hoisted⟩, fun t => (htags t).trans ?_⟩
    exact or_iff_right List.not_mem_nil

end Nodes

end Calls

end UiTemplate
