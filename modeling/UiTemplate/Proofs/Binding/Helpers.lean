import UiTemplate.Proofs.Binding.Key
import UiTemplate.Proofs.Binding.Leftover
import UiTemplate.Proofs.Rendering.Aliases

/-!
# The helpers that bound values call

- `Record.reachable`: the bound values of a record and of the records inside it.
- `Record.renderFields_calls`: the code of a record calls the helpers of these, in their order.
- `Template.extract_notes`: extraction notes just the helpers of the bound values that it gives.
-/

namespace UiTemplate

open Extract

/-! ## Reachable bound values -/

mutual

/-- The entries of a record and of the records inside it, in the order in which they are written. -/
def Record.reachable : List (Key × Thunk) → List (Key × Thunk)
  | [] => []
  | (key, t) :: rest => (key, t) :: (t.reachable ++ Record.reachable rest)

/-- The entries of the records inside a bound value. -/
def Thunk.reachable : Thunk → List (Key × Thunk)
  | .field _ => []
  | .display _ => []
  | .loop _ _ _ _ record => Record.reachable record
  | .merge branches => MergeBranch.reachable branches
  | .outletName .. => []
  | .outlet _ => []

/-- The entries of the records of branches. -/
def MergeBranch.reachable : List MergeBranch → List (Key × Thunk)
  | [] => []
  | .mk _ _ record :: rest => Record.reachable record ++ MergeBranch.reachable rest

end

theorem Record.reachable_append (r r' : Record) :
    Record.reachable (r ++ r') = Record.reachable r ++ Record.reachable r' := by
  induction r with
  | nil => rfl
  | cons entry r ih =>
    obtain ⟨key, t⟩ := entry
    rw [List.cons_append, Record.reachable, Record.reachable, ih, List.cons_append,
      List.append_assoc]

mutual

/-- What is inside an entry of a record is reachable with it. -/
theorem Record.reachable_trans (r : List (Key × Thunk)) :
    ∀ e ∈ Record.reachable r, e.2.reachable ⊆ Record.reachable r := by
  match r with
  | [] => exact fun e he => absurd he List.not_mem_nil
  | (key, t) :: rest =>
    rw [Record.reachable]
    refine List.forall_mem_cons.mpr ⟨?_, List.forall_mem_append.mpr ⟨?_, ?_⟩⟩
    · exact List.subset_cons_of_subset _ (List.subset_append_left _ _)
    · intro e he
      exact List.subset_cons_of_subset _
        (List.subset_append_of_subset_left _ (Thunk.reachable_trans t e he))
    · intro e he
      exact List.subset_cons_of_subset _
        (List.subset_append_of_subset_right _ (Record.reachable_trans rest e he))

theorem Thunk.reachable_trans (t : Thunk) : ∀ e ∈ t.reachable, e.2.reachable ⊆ t.reachable := by
  match t with
  | .loop _ _ _ _ record => exact Record.reachable_trans record
  | .merge branches => exact MergeBranch.reachable_trans branches
  | .field _ => exact fun e he => absurd he List.not_mem_nil
  | .display _ => exact fun e he => absurd he List.not_mem_nil
  | .outletName .. => exact fun e he => absurd he List.not_mem_nil
  | .outlet _ => exact fun e he => absurd he List.not_mem_nil

theorem MergeBranch.reachable_trans (bs : List MergeBranch) :
    ∀ e ∈ MergeBranch.reachable bs, e.2.reachable ⊆ MergeBranch.reachable bs := by
  match bs with
  | [] => exact fun e he => absurd he List.not_mem_nil
  | .mk _ _ record :: rest =>
    rw [MergeBranch.reachable]
    refine List.forall_mem_append.mpr ⟨fun e he => ?_, fun e he => ?_⟩
    · exact List.subset_append_of_subset_left _ (Record.reachable_trans record e he)
    · exact List.subset_append_of_subset_right _ (MergeBranch.reachable_trans rest e he)

end

/-- The helper that the code of a bound value calls itself. -/
def Thunk.helper? : Thunk → Option Helper
  | .field _ => none
  | .display _ => some .display
  | .loop .. => some .forEach
  | .merge _ => some .mergeBranches
  | .outletName (.fixed _) _ => none
  | .outletName (.computed _) _ => some .display
  | .outlet _ => some .resolveOutlet

/-- The helpers that bound values call themselves. -/
def helpersOf (entries : List (Key × Thunk)) : List Helper :=
  entries.filterMap fun e => e.2.helper?

theorem helpersOf_append (es es' : List (Key × Thunk)) :
    helpersOf (es ++ es') = helpersOf es ++ helpersOf es' :=
  List.filterMap_append

theorem helpersOf_cons (key : Key) (t : Thunk) (es : List (Key × Thunk)) :
    helpersOf ((key, t) :: es) = t.helper?.toList ++ helpersOf es := by
  rw [helpersOf, List.filterMap_cons]
  cases t.helper? <;> rfl

/-- The condition of a branch. -/
def MergeBranch.condition : MergeBranch → Option Expression
  | .mk condition _ _ => condition

/-- The expressions that a bound value has itself. -/
def Thunk.expressions : Thunk → List Expression
  | .field e => [e]
  | .display e => [e]
  | .loop source _ _ _ _ => [source]
  | .merge branches => branches.filterMap MergeBranch.condition
  | .outletName base _ => base.expressions
  | .outlet call => call.expressions

/-- The parameters of the producer in a bound value. -/
def Thunk.parameters : Thunk → List (List String)
  | .loop _ item index depth _ => [[item, index.getD "_", Code.pathVariable depth]]
  | _ => []

/-- What the code of a record takes over. -/
def Record.sources (r : Record) : Sources where
  expressions := (Record.reachable r).flatMap fun e => e.2.expressions
  parameters := (Record.reachable r).flatMap fun e => e.2.parameters

/-! ## The code of records -/

/-- The key is a name, and what the bound value itself has can be taken over. -/
structure Sources.Admits (src : Sources) (entry : Key × Thunk) : Prop where
  key : Code.isPlainName entry.1.toList = true
  expressions : entry.2.expressions ⊆ src.expressions
  parameters : entry.2.parameters ⊆ src.parameters

section Render

variable {src : Sources}

mutual

/-- The code of a bound value calls its own helper and those of the values inside it. -/
theorem Thunk.render_calls (locals : List String) (level : Nat) (t : Thunk)
    (he : t.expressions ⊆ src.expressions) (hp : t.parameters ⊆ src.parameters)
    (h : ∀ e ∈ t.reachable, src.Admits e) :
    src.Calls (t.render locals level) (t.helper?.toList ++ helpersOf t.reachable) := by
  match t with
  | .field e => exact .text (.expression (he List.mem_cons_self) locals)
  | .display e =>
    exact .call _ (.singleton (.text (.expression (he List.mem_cons_self) locals)))
  | .loop source item index depth record =>
    have hparams : src.Text (", ".intercalate [item, index.getD "_", Code.pathVariable depth]) :=
      .parameters (hp List.mem_cons_self)
    have hrecord := Sources.Calls.object (level + 1) (Record.renderFields_calls
      (locals ++ [item, index.getD "_", Code.pathVariable depth]) (level + 2) record h)
    have hhead := ((((Sources.Calls.text hparams).prepend "(" (by decide)).follow ") => \x7b\n" (by decide)).indent
      (level + 1)).follow "return " (by decide)
    have hproducer := (((hhead.append hrecord).follow ";\n" (by decide)).indent level).follow "\x7d" (by decide)
    have hsource : src.Calls (source.render locals) [] :=
      .text (.expression (he List.mem_cons_self) locals)
    exact .call _ (.cons hsource (.singleton hproducer))
  | .merge branches =>
    exact .call _ (MergeBranch.renderAll_calls locals level branches
      (fun b hb e hc => he (List.mem_filterMap.mpr ⟨b, hb, hc⟩)) h)
  | .outletName base loopPath =>
    have hname := renderOutletName_calls base he loopPath locals
    cases base with
    | fixed name => exact hname
    | computed e => exact hname
  | .outlet call => exact call.render_calls he locals

theorem Record.renderFields_calls (locals : List String) (level : Nat)
    (r : List (Key × Thunk)) (h : ∀ e ∈ Record.reachable r, src.Admits e) :
    src.CallsEach (Record.renderFields locals level r) (helpersOf (Record.reachable r)) := by
  match r with
  | [] => exact .nil
  | (key, t) :: rest =>
    obtain ⟨hentry, hmore⟩ := List.forall_mem_cons.mp h
    obtain ⟨hinner, hrest⟩ := List.forall_mem_append.mp hmore
    rw [Record.renderFields, Record.reachable, helpersOf_cons, helpersOf_append,
      ← List.append_assoc]
    have hvalue := Thunk.render_calls locals level t hentry.expressions hentry.parameters hinner
    exact .cons (hvalue.prependText (.field hentry.key))
      (Record.renderFields_calls locals level rest hrest)

theorem MergeBranch.renderAll_calls (locals : List String) (level : Nat) (bs : List MergeBranch)
    (hc : ∀ b ∈ bs, ∀ e, b.condition = some e → e ∈ src.expressions)
    (h : ∀ e ∈ MergeBranch.reachable bs, src.Admits e) :
    src.CallsEach (MergeBranch.renderAll locals level bs)
      (helpersOf (MergeBranch.reachable bs)) := by
  match bs with
  | [] => exact .nil
  | .mk condition key record :: rest =>
    obtain ⟨hinner, hmore⟩ := List.forall_mem_append.mp h
    obtain ⟨hcondition, hconditions⟩ := List.forall_mem_cons.mp hc
    have htest : src.Calls ((condition.map fun e => e.render locals).getD "true") [] := by
      cases condition with
      | none => exact .plain "true" (by decide)
      | some e => exact .text (.expression (hcondition e rfl) locals)
    have hrecord := Sources.Calls.object level
      (Record.renderFields_calls locals (level + 1) record hinner)
    have hproducers := Sources.CallsEach.cons (htest.prepend "() => " (by decide)) (.cons
      ((hrecord.prepend "() => (" (by decide)).follow ")" (by decide))
      (MergeBranch.renderAll_calls locals level rest hconditions hmore))
    rw [MergeBranch.reachable, helpersOf_append]
    exact hproducers

end

end Render

/-! ## What extraction notes -/

/-- A step of the walk gives entries under keys, and notes just the helpers that they call. -/
structure Notes (before : HelperSet) (entries : List (Key × Thunk)) (after : HelperSet) : Prop where
  helpers : before.Gains (helpersOf entries) after
  keys : ∀ e ∈ entries, ∃ n, e.1 = Key.number n

section Notes

variable {s s' s'' : HelperSet} {es es' : List (Key × Thunk)}

theorem Notes.nil (s : HelperSet) : Notes s [] s :=
  ⟨.refl s, fun _ h => absurd h List.not_mem_nil⟩

theorem Notes.append (h : Notes s es s') (h' : Notes s' es' s'') : Notes s (es ++ es') s'' := by
  refine ⟨?_, List.forall_mem_append.mpr ⟨h.keys, h'.keys⟩⟩
  rw [helpersOf_append]
  exact h.helpers.append h'.helpers

theorem Notes.join {r r' : Record} (h : Notes s (Record.reachable r) s')
    (h' : Notes s' (Record.reachable r') s'') : Notes s (Record.reachable (r ++ r')) s'' := by
  rw [Record.reachable_append]
  exact h.append h'

/-- An entry whose helper is noted after those of the entries inside it. -/
theorem Notes.entry (n : Nat) (t : Thunk) (h : Notes s t.reachable s') :
    Notes s (Record.reachable [(Key.number n, t)]) (t.helper?.elim s' s'.insert) := by
  rw [Record.reachable, Record.reachable, List.append_nil]
  refine ⟨?_, List.forall_mem_cons.mpr ⟨⟨n, rfl⟩, h.keys⟩⟩
  rw [helpersOf_cons]
  cases t.helper? with
  | none => exact h.helpers
  | some k =>
    refine (h.helpers.append (.insert s' k)).congr fun _ => ?_
    exact List.perm_append_comm.mem_iff

/-- An entry without entries inside it. -/
theorem Notes.leaf (n : Nat) (t : Thunk) (ht : t.reachable = []) :
    Notes s (Record.reachable [(Key.number n, t)]) (t.helper?.elim s s.insert) := by
  refine .entry n t ?_
  rw [ht]
  exact .nil s

end Notes

theorem extractDirectives_notes (ds : List Directive) (a : Allocation) :
    Notes a.helpers (Record.reachable (extractDirectives ds a).1.2)
      (extractDirectives ds a).2.helpers := by
  induction ds generalizing a with
  | nil => exact .nil _
  | cons d ds ih =>
    cases d with
    | structural s l => exact ih a
    | unsupported name value l => exact ih a
    | binding b =>
      by_cases hb : b.kind = .event
      · rw [extractDirectives_event hb]
        exact ih a
      · rw [extractDirectives_bound hb]
        exact (Notes.leaf a.next (.field b.expression) rfl).join
          (ih { a with next := a.next + 1 })

theorem extractCondition_notes (condition : Option Expression) (a : Allocation) :
    Notes a.helpers (Record.reachable (extractCondition condition a).1.2)
      (extractCondition condition a).2.helpers := by
  cases condition with
  | none => exact .nil _
  | some e => exact .leaf a.next (.field e) rfl

theorem extractOutlet_notes (slot : SlotInfo) (r : Resolution) (a : Allocation) :
    Notes a.helpers (Record.reachable (extractOutlet slot r a).1.2)
      (extractOutlet slot r a).2.helpers :=
  .leaf a.next (.outlet ⟨r.base, slot.props, r.loopPath⟩) rfl

/-- The identity of a slot's outlet is displayed exactly if its name is computed. -/
theorem extractIdentity_notes (slot : SlotInfo) (r : Resolution) (a : Allocation) :
    Notes a.helpers (Record.reachable (extractIdentity slot r a).1.2)
      (extractIdentity slot r a).2.helpers := by
  obtain ⟨base, path, branch, fallback⟩ := r
  cases base with
  | fixed name =>
    cases path with
    | nil => exact .nil _
    | cons depth path => exact .leaf a.next (.outletName (.fixed name) (depth :: path)) rfl
  | computed e =>
    cases path with
    | nil => exact .leaf a.next (.display e) rfl
    | cons depth path => exact .leaf a.next (.outletName (.computed e) (depth :: path)) rfl

theorem extractSlot_notes (capabilities : Capabilities) (slot : SlotInfo) (a : Allocation) :
    Notes a.helpers (Record.reachable (extractSlot capabilities slot a).1.2)
      (extractSlot capabilities slot a).2.helpers := by
  obtain ⟨family, introspects, localKeys, default⟩ := capabilities
  cases hr : slot.resolution with
  | none =>
    rw [extractSlot_unresolved hr]
    exact .nil _
  | some r =>
    cases family with
    | calls =>
      rw [extractSlot_calls hr]
      exact extractOutlet_notes slot r a
    | markup =>
      rw [extractSlot_markup hr]
      dsimp only
      split
      · exact (extractIdentity_notes slot r a).join (extractOutlet_notes _ r _)
      · exact extractIdentity_notes slot r a

mutual

theorem Node.extract_notes (capabilities : Capabilities) (n : Node) (a : Allocation) :
    Notes a.helpers (Record.reachable (n.extract capabilities a).1.2)
      (n.extract capabilities a).2.helpers := by
  match n with
  | .element info children =>
    rw [Node.extract]
    exact (extractDirectives_notes info.directives a).join
      (Node.extractAll_notes capabilities children _)
  | .text value location =>
    rw [Node.extract]
    exact .nil _
  | .interpolation e key location =>
    rw [Node.extract]
    exact .leaf a.next (.display e) rfl
  | .slot info fallback =>
    rw [Node.extract_slot]
    exact (extractSlot_notes capabilities info a).join
      (Node.extractAll_notes capabilities fallback _)
  | .chain branches key location =>
    rw [Node.extract]
    exact .entry a.next (.merge _)
      (Branch.extractAll_notes capabilities branches { a with next := a.next + 1 })
  | .loop info children =>
    by_cases hl : capabilities.localKeys = true
    · rw [Node.extract_loop_local hl]
      exact .entry a.next (.loop info.source info.item info.index info.depth _)
        (Node.extractAll_notes capabilities children { a with next := 0 })
    · rw [Node.extract_loop_shared hl]
      exact .entry a.next (.loop info.source info.item info.index info.depth _)
        (Node.extractAll_notes capabilities children { a with next := a.next + 1 })
  | .comment value location =>
    rw [Node.extract]
    exact .nil _

/-- Extraction notes the helpers of the bound values that it gives. -/
theorem Node.extractAll_notes (capabilities : Capabilities) (ns : List Node) (a : Allocation) :
    Notes a.helpers (Record.reachable (Node.extractAll capabilities ns a).1.2)
      (Node.extractAll capabilities ns a).2.helpers := by
  match ns with
  | [] => exact .nil _
  | n :: rest =>
    rw [Node.extractAll]
    exact (Node.extract_notes capabilities n a).join (Node.extractAll_notes capabilities rest _)

theorem Branch.extractAll_notes (capabilities : Capabilities) (bs : List Branch) (a : Allocation) :
    Notes a.helpers (MergeBranch.reachable (Branch.extractAll capabilities bs a).1.2)
      (Branch.extractAll capabilities bs a).2.helpers := by
  match bs with
  | [] => exact .nil _
  | .mk info children :: rest =>
    rw [Branch.extractAll_cons, MergeBranch.reachable]
    exact ((extractCondition_notes info.condition a).join
      (Node.extractAll_notes capabilities children _)).append
        (Branch.extractAll_notes capabilities rest _)

end

/-! ## Keys -/

theorem Key.isPlainName_append_letter {cs : List Char} (h : Code.isPlainName cs = true) {n : Nat}
    (hn : n < 26) : Code.isPlainName (cs ++ [letter n]) = true := by
  have hletter : ∀ m < 26, Code.isPlain (letter m) = true := by decide
  cases cs with
  | nil => cases h
  | cons c cs =>
    obtain ⟨hstart, hrest⟩ := Bool.and_eq_true_iff.mp h
    rw [List.cons_append, Code.isPlainName, hstart, List.all_append, hrest, List.all_cons,
      hletter n hn]
    rfl

/-- Keys are names. -/
theorem Key.isPlainName_number (n : Nat) : Code.isPlainName (Key.number n).toList = true := by
  have hletter : ∀ m < 26, Code.isPlainName [letter m] = true := by decide
  rw [Key.number, String.toList_ofList]
  fun_induction Key.spelling (Key.skipReserved n) with
  | case1 m h => exact hletter m h
  | case2 m h ih => exact Key.isPlainName_append_letter ih (Nat.mod_lt m (by decide))

/-! ## Templates -/

/-- Extraction notes just the helpers of the bound values that it gives, under keys. -/
theorem Template.extract_notes (capabilities : Capabilities) (nodes : List Node) :
    Notes {} (Record.reachable (Template.extract capabilities nodes).2.root)
      (Template.extract capabilities nodes).2.helpers :=
  Node.extractAll_notes capabilities nodes {}

section Keys

variable {r : Record} (h : ∀ e ∈ Record.reachable r, ∃ n, e.1 = Key.number n)
include h

/-- What is reachable in a record under keys can be taken over from it. -/
theorem Record.admits : ∀ e ∈ Record.reachable r, (Record.sources r).Admits e := by
  intro e he
  obtain ⟨n, hn⟩ := h e he
  refine ⟨?_, fun x hx => List.mem_flatMap.mpr ⟨e, he, hx⟩,
    fun x hx => List.mem_flatMap.mpr ⟨e, he, hx⟩⟩
  rw [hn]
  exact Key.isPlainName_number n

/-- The code of a record under keys calls the helpers of the bound values that it has. -/
theorem Record.render_calls (locals : List String) (level : Nat) :
    (Record.sources r).Calls (r.render locals level) (helpersOf (Record.reachable r)) :=
  .object level (Record.renderFields_calls locals (level + 1) r (Record.admits h))

/-- The code of a bound value in a record under keys calls its own helper and those of the bound
values inside it. -/
theorem Record.render_entry_calls {e : Key × Thunk} (he : e ∈ Record.reachable r)
    (locals : List String) (level : Nat) :
    (Record.sources r).Calls (e.2.render locals level)
      (e.2.helper?.toList ++ helpersOf e.2.reachable) := by
  have hadmits := Record.admits h e he
  refine Thunk.render_calls locals level e.2 hadmits.expressions hadmits.parameters fun e' he' => ?_
  exact Record.admits h e' (Record.reachable_trans r e he he')

end Keys

end UiTemplate
