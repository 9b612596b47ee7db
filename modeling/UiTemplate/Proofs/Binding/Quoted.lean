import UiTemplate.Proofs.Compile.Annotate
import UiTemplate.Proofs.Rendering.Quotes

/-!
# Expressions in the function that computes bound values

- `Site.bindingText`: how an expression is written in the function, given the parameters of the
  producers around it.
- `BindingContext.functionSource_quotes`: the function has the texts of all expressions, one behind
  the other.
-/

namespace UiTemplate

/-- The text of an expression in the function that computes bound values. -/
def Site.bindingText (s : Site) : String :=
  s.expression.render (s.loops.flatMap LoopInfo.params)

/-- All expressions in their order, and perhaps some again: a condition chooses a branch and is also
a value in the record of the branch. -/
def Quoting.binding : Quoting where
  text := Site.bindingText
  chosen ss quoted := ss.Sublist quoted ∧ quoted ⊆ ss
  all ss := ⟨.refl ss, List.Subset.refl ss⟩
  append := by
    rintro ss ss' qs qs' ⟨hl, hs⟩ ⟨hl', hs'⟩
    refine ⟨hl.append hl', List.append_subset.mpr ⟨?_, ?_⟩⟩
    · exact List.subset_append_of_subset_left _ hs
    · exact List.subset_append_of_subset_right _ hs'

theorem Quoting.binding_chosen_twice {ss ss' qs : List Site}
    (h : binding.chosen (ss ++ (ss ++ ss')) qs) : binding.chosen (ss ++ ss') qs := by
  obtain ⟨hl, hs⟩ := h
  refine ⟨(List.sublist_append_right ss (ss ++ ss')).trans hl, List.Subset.trans hs ?_⟩
  exact List.append_subset.mpr ⟨List.subset_append_left _ _, List.Subset.refl _⟩

theorem Record.renderFields_append (locals : List String) (level : Nat) (r r' : Record) :
    Record.renderFields locals level (r ++ r') =
      Record.renderFields locals level r ++ Record.renderFields locals level r' := by
  induction r with
  | nil => rfl
  | cons entry r ih =>
    obtain ⟨key, t⟩ := entry
    rw [List.cons_append, Record.renderFields, Record.renderFields, ih, List.cons_append]

/-! ## Parts -/

section Parts

/-- The function that computes the record of a pass through a loop. -/
theorem Quoting.Has.producer {q : Quoting} {record : String} {ss : List Site} (h : q.Has record ss)
    (level : Nat) (params : List String) :
    q.Has ("(" ++ ", ".intercalate params ++ ") => \x7b\n" ++ Code.indent (level + 1) ++ "return " ++
      record ++ ";\n" ++ Code.indent level ++ "\x7d") ss := by
  have hreturn : Code.closes ("(" ++ ", ".intercalate params ++ ") => \x7b\n" ++
      Code.indent (level + 1) ++ "return ") = true := Code.closes_append _ (by decide)
  have hline := (h.prepend _ (.of_closes hreturn _)).follow ";\n" (.of_opens _ (by decide))
  have hnewline : Code.closes ("(" ++ ", ".intercalate params ++ ") => \x7b\n" ++
      Code.indent (level + 1) ++ "return " ++ record ++ ";\n") = true :=
    Code.closes_append _ (by decide)
  exact (hline.follow _ (.of_closes hnewline _)).follow _ (.of_opens _ (by decide))

/-- The fields of parts quote expressions that are inside the given loops. -/
def FieldsQuote (loops : List LoopInfo) (level : Nat) (parts : List Part) (ss : List Site) : Prop :=
  Quoting.binding.HasEach
    (Record.renderFields (loops.flatMap LoopInfo.params) level (Record.ofParts parts)) ss

variable {loops : List LoopInfo} {level : Nat}

theorem FieldsQuote.append {ps ps' : List Part} {ss ss' : List Site}
    (h : FieldsQuote loops level ps ss) (h' : FieldsQuote loops level ps' ss') :
    FieldsQuote loops level (ps ++ ps') (ss ++ ss') := by
  rw [FieldsQuote, Record.ofParts_append, Record.renderFields_append]
  exact Quoting.HasEach.append h h'

theorem FieldsQuote.nil : FieldsQuote loops level [] [] :=
  Quoting.HasEach.plain _ []

/-- The field of a part under a key. -/
theorem FieldsQuote.part {k : Option Key} {t : Thunk} {ss : List Site} (hk : ∃ key, k = some key)
    (h : Quoting.binding.Has (t.render (loops.flatMap LoopInfo.params) level) ss) :
    FieldsQuote loops level [(k, t)] ss := by
  obtain ⟨key, rfl⟩ := hk
  have hcolon : Code.closes (key ++ ": ") = true := Code.closes_append key (by decide)
  exact .singleton (h.prepend _ (.of_closes hcolon _))

theorem FieldsQuote.object {ps : List Part} {ss : List Site}
    (h : FieldsQuote loops (level + 1) ps ss) :
    Quoting.binding.Has
      (Code.object level
        (Record.renderFields (loops.flatMap LoopInfo.params) (level + 1) (Record.ofParts ps))) ss :=
  Quoting.Has.object level h

theorem directiveParts_quote (ds : List Directive) (hk : Keyed (directiveParts ds)) :
    FieldsQuote loops level (directiveParts ds)
      ((boundExpressions ds).map (⟨·, loops, false⟩)) := by
  induction ds with
  | nil => exact .nil
  | cons d ds ih =>
    cases d with
    | structural s l => exact ih hk
    | unsupported name value l => exact ih hk
    | binding b =>
      by_cases hb : b.kind = .event
      · have hparts : directiveParts (.binding b :: ds) = directiveParts ds := by
          rw [directiveParts, List.filterMap_cons_none (by rw [Directive.part?, if_pos hb])]
          rfl
        have hbound : boundExpressions (.binding b :: ds) = boundExpressions ds :=
          List.filterMap_cons_none (if_pos hb)
        rw [hparts] at hk ⊢
        rw [hbound]
        exact ih hk
      · have hparts : directiveParts (.binding b :: ds) =
            (b.key, .field b.expression) :: directiveParts ds := by
          rw [directiveParts,
            List.filterMap_cons_some (by rw [Directive.part?, if_neg hb])]
          rfl
        have hbound : boundExpressions (.binding b :: ds) = b.expression :: boundExpressions ds :=
          List.filterMap_cons_some (if_neg hb)
        rw [hparts] at hk ⊢
        rw [hbound]
        have hfield : FieldsQuote loops level [(b.key, .field b.expression)]
            [⟨b.expression, loops, false⟩] := .part hk.head (.site _ _)
        exact hfield.append (ih hk.tail)

theorem BranchInfo.parts_quote (info : BranchInfo) (hk : Keyed info.parts) :
    FieldsQuote loops level info.parts (info.condition.toList.map (⟨·, loops, true⟩)) := by
  cases hc : info.condition with
  | none =>
    rw [BranchInfo.parts, hc]
    exact .nil
  | some e =>
    rw [BranchInfo.parts, hc] at hk ⊢
    exact FieldsQuote.part hk.head (.site _ ⟨e, loops, true⟩)

theorem SlotInfo.parts_quote (info : SlotInfo) {r : Resolution} (hr : info.resolution = some r)
    (hk : Keyed (info.parts .markup)) :
    FieldsQuote loops level (info.parts .markup) (info.sites loops) := by
  rw [SlotInfo.parts] at hk ⊢
  rw [← List.nil_append (info.sites loops)]
  refine FieldsQuote.append ?_ ?_
  · cases hi : info.identity? .markup with
    | none => exact .nil
    | some t =>
      have hkey := hk.left
      rw [hi] at hkey
      exact FieldsQuote.part hkey.head (.plain _ _)
  · have hkey := hk.right
    unfold SlotInfo.outlet? at hkey ⊢
    rw [hr] at hkey ⊢
    dsimp only at hkey ⊢
    split
    · rename_i hcond
      rw [if_pos hcond] at hkey
      exact FieldsQuote.part hkey.head (.outletCall (fun _ => rfl) rfl)
    · rename_i hcond
      -- Nothing is passed to the outlet.
      have hprops : info.props = [] := by
        refine Classical.byContradiction fun hne => hcond ?_
        simp [hne]
      have hnone := (List.append_eq_nil_iff.mp hprops).2
      rw [SlotInfo.sites, List.map_eq_nil_iff.mp hnone]
      exact .nil

end Parts

/-! ## Nodes -/

section Nodes

variable {capabilities : Capabilities}

mutual

/-- The fields of a node quote its expressions. -/
theorem Node.parts_quote (loops : List LoopInfo) (level : Nat) (n : Node)
    (hk : Keyed (n.parts .markup)) (hs : ∀ ps ∈ n.scopes .markup, Keyed ps)
    (hr : ∀ m ∈ n.within, m.IsResolved capabilities) :
    FieldsQuote loops level (n.parts .markup) (n.sites loops) := by
  match n with
  | .element info children =>
    exact (directiveParts_quote info.directives hk.left).append
      (Node.partsAll_quote loops level children hk.right hs (List.forall_mem_cons.mp hr).2)
  | .text .. => exact .nil
  | .interpolation e key l =>
    exact FieldsQuote.part hk.head (.call _ (.singleton (.site _ ⟨e, loops, false⟩)))
  | .slot info fallback =>
    obtain ⟨⟨r, hres, -⟩, hrest⟩ := List.forall_mem_cons.mp hr
    exact (SlotInfo.parts_quote info hres hk.left).append
      (Node.partsAll_quote loops level fallback hk.right hs hrest)
  | .chain branches key l =>
    refine FieldsQuote.part hk.head (.call _ ?_)
    exact Branch.mergedAll_quote loops level branches hs (List.forall_mem_cons.mp hr).2
  | .loop info children =>
    obtain ⟨hkeyed, hscopes⟩ := List.forall_mem_cons.mp hs
    have hinner := Node.partsAll_quote (loops ++ [info.unkeyed]) (level + 2) children hkeyed
      hscopes (List.forall_mem_cons.mp hr).2
    have hobject := hinner.object
    rw [List.flatMap_append, List.flatMap_singleton] at hobject
    refine FieldsQuote.part hk.head (.call _ ?_)
    refine .cons (.site _ ⟨info.source, loops, false⟩) (.singleton ?_)
    exact hobject.producer level info.params
  | .comment .. => exact .nil

theorem Node.partsAll_quote (loops : List LoopInfo) (level : Nat) (ns : List Node)
    (hk : Keyed (Node.partsAll .markup ns)) (hs : ∀ ps ∈ Node.scopesAll .markup ns, Keyed ps)
    (hr : ∀ m ∈ Node.withinAll ns, m.IsResolved capabilities) :
    FieldsQuote loops level (Node.partsAll .markup ns) (Node.sitesAll loops ns) := by
  match ns with
  | [] => exact .nil
  | n :: rest =>
    obtain ⟨hs₁, hs₂⟩ := List.forall_mem_append.mp hs
    obtain ⟨hr₁, hr₂⟩ := List.forall_mem_append.mp hr
    exact (Node.parts_quote loops level n hk.left hs₁ hr₁).append
      (Node.partsAll_quote loops level rest hk.right hs₂ hr₂)

/-- The producers of branches quote the expressions in them. -/
theorem Branch.mergedAll_quote (loops : List LoopInfo) (level : Nat) (bs : List Branch)
    (hs : ∀ ps ∈ Branch.scopesAll .markup bs, Keyed ps)
    (hr : ∀ m ∈ Branch.withinAll bs, m.IsResolved capabilities) :
    Quoting.binding.HasEach
      (MergeBranch.renderAll (loops.flatMap LoopInfo.params) level (Branch.mergedAll .markup bs))
      (Branch.sitesAll loops bs) := by
  match bs with
  | [] => exact .plain _ []
  | .mk info children :: rest =>
    obtain ⟨hs₁, hs₂⟩ := List.forall_mem_append.mp hs
    obtain ⟨hkeyed, hscopes⟩ := List.forall_mem_cons.mp hs₁
    obtain ⟨hr₁, hr₂⟩ := List.forall_mem_append.mp hr
    have hcondition : Quoting.binding.Has
        ("() => " ++ (info.condition.map fun e =>
          e.render (loops.flatMap LoopInfo.params)).getD "true")
        (info.condition.toList.map (⟨·, loops, true⟩)) := by
      cases info.condition with
      | none => exact .plain _ _
      | some e =>
        exact (Quoting.Has.site Quoting.binding ⟨e, loops, true⟩).prepend _ (.of_closes (by decide) _)
    have hrecord := ((BranchInfo.parts_quote info hkeyed.left).append
      (Node.partsAll_quote loops (level + 1) children hkeyed.right hscopes hr₁)).object
    have hproduced := (hrecord.prepend "() => (" (.of_closes (by decide) _)).follow ")"
      (.of_opens _ (by decide))
    have hbranch := (Quoting.HasEach.cons hcondition (.singleton hproduced)).imp
      fun _ => Quoting.binding_chosen_twice
    exact hbranch.append (Branch.mergedAll_quote loops level rest hs₂ hr₂)

end

end Nodes

/-! ## The function -/

/-- The function that computes the bound values of a template has the texts of all expressions. -/
theorem Template.functionSource_quotes (nodes : List Node) (runtime : String) :
    Quoting.binding.Has
      ((Template.annotate Family.markup.capabilities nodes).context.functionSource runtime)
      (Template.sites nodes) := by
  have hi := Template.extract_increasing Family.markup.capabilities
    (Template.resolveSlots Family.markup.capabilities nodes)
  have hroot := Template.extract_root Family.markup.capabilities
    (Template.resolveSlots Family.markup.capabilities nodes)
  have hfields := Node.partsAll_quote [] 2
    (Template.annotate Family.markup.capabilities nodes).nodes
    (hi.sublist (Node.partsAll_sublist Family.markup.capabilities _)).keyed
    (fun ps hp => (Template.extract_scopes Family.markup.capabilities _ ps hp).keyed)
    (Template.annotate_isResolved Family.markup.capabilities nodes)
  have hobject : Quoting.binding.Has
      ((Template.annotate Family.markup.capabilities nodes).context.root.render [] 1)
      (Template.sites nodes) := by
    rw [← Template.sites_annotate Family.markup.capabilities]
    have hcode := hfields.object
    unfold Record.render
    rw [show (Template.annotate Family.markup.capabilities nodes).context.root = _ from hroot]
    exact hcode
  exact (hobject.prepend _ (.of_closes (Code.closes_append _ (by decide)) _)).follow _
    (.of_opens _ (by decide))

end UiTemplate
