import UiTemplate.Backend.Calls

/-!
# Code and the helpers that it calls

Emitted code is put together from the short names of helpers and from texts that name no helper:
texts without an underscore, with which every short name starts, literals, and what the code takes
over from a template.

- `HelperSet.Gains`: a set of helpers before and after some are called.
- `Sources`: the expressions and the parameters that code takes over.
- `Sources.Calls`, `Sources.CallsEach`: code, or pieces of code, with the helpers that it calls in
  their order; with one lemma for each way in which code is put together.
-/

namespace UiTemplate

/-! ## Sets of helpers -/

/-- The helpers afterwards are those before and those that are called. -/
def HelperSet.Gains (before : HelperSet) (called : List Helper) (after : HelperSet) : Prop :=
  ∀ h, after.contains h = true ↔ before.contains h = true ∨ h ∈ called

namespace HelperSet.Gains

variable {s s' s'' : HelperSet} {hs hs' : List Helper}

theorem refl (s : HelperSet) : s.Gains [] s :=
  fun _ => (or_iff_left List.not_mem_nil).symm

/-- Helpers that are called in two steps are those of the first and of the second. -/
theorem append (h : s.Gains hs s') (h' : s'.Gains hs' s'') : s.Gains (hs ++ hs') s'' := by
  intro k
  rw [h' k, h k, List.mem_append, or_assoc]

/-- The order in which helpers are called does not matter. -/
theorem congr (h : s.Gains hs s') (hm : ∀ k, k ∈ hs' ↔ k ∈ hs) : s.Gains hs' s' :=
  fun k => (h k).trans (or_congr_right (hm k).symm)

/-- A helper that is noted is called. -/
theorem insert (s : HelperSet) (h : Helper) : s.Gains [h] (s.insert h) := by
  intro k
  rw [contains_insert, Bool.or_eq_true, decide_eq_true_eq, List.mem_singleton, or_comm]

end HelperSet.Gains

/-- The helpers that are noted are those in the list. -/
theorem HelperSet.mem_toList {s : HelperSet} {h : Helper} : h ∈ s.toList ↔ s.contains h = true := by
  rw [toList, List.mem_filter]
  refine and_iff_right ?_
  cases h <;> decide

/-! ## Code -/

/-- What code takes over from a template: expressions, and the parameters of producers. -/
structure Sources where
  expressions : List Expression
  parameters : List (List String)

/-- A text of emitted code that does not name a helper. -/
inductive Sources.Text (src : Sources) : String → Prop where
  /-- The short name of a helper starts with an underscore. -/
  | plain {text : String} (h : '_' ∉ text.toList) : Text src text
  | literal (value : String) : Text src (Code.literal value)
  | field {name : String} (h : Code.isPlainName name.toList = true) : Text src (name ++ ": ")
  | expression {e : Expression} (h : e ∈ src.expressions) (locals : List String) :
      Text src (e.render locals)
  | parameters {names : List String} (h : names ∈ src.parameters) :
      Text src (", ".intercalate names)
  | component (c : ComponentRef) : Text src c.variableName
  | hoisted (number : Nat) : Text src ("_hoisted_" ++ Decimal.natText number)
  | flag (flag : PatchFlag) : Text src flag.render

/-- The code calls these helpers, in this order, and is made of texts that name none besides. -/
inductive Sources.Calls (src : Sources) : String → List Helper → Prop where
  | text {text : String} (h : src.Text text) : Calls src text []
  | shortName (h : Helper) : Calls src h.shortName [h]
  | append {code code' : String} {hs hs' : List Helper} (first : Calls src code hs)
      (rest : Calls src code' hs') : Calls src (code ++ code') (hs ++ hs')

/-- The pieces of code, one behind the other, call these helpers. -/
inductive Sources.CallsEach (src : Sources) : List String → List Helper → Prop where
  | nil : CallsEach src [] []
  | cons {code : String} {codes : List String} {hs hs' : List Helper} (first : src.Calls code hs)
      (rest : CallsEach src codes hs') : CallsEach src (code :: codes) (hs ++ hs')

/-- Every short name starts with an underscore. -/
theorem Helper.underscore_mem_shortName (h : Helper) : '_' ∈ h.shortName.toList := by
  cases h <;> decide

namespace Sources

variable {src : Sources} {code code' : String} {codes codes' : List String} {hs hs' : List Helper}

/-! ## Texts without an underscore -/

theorem underscore_notMem_indent (level : Nat) : '_' ∉ (Code.indent level).toList := by
  simp [Code.indent, List.mem_replicate]

theorem underscore_notMem_natText (n : Nat) : '_' ∉ (Decimal.natText n).toList := by
  rw [Decimal.natText, String.toList_ofList]
  intro h
  exact absurd (Nat.isDigit_of_mem_toDigits (by decide) (by decide) h) (by decide)

theorem underscore_notMem_pathVariable (depth : Nat) :
    '_' ∉ (Code.pathVariable depth).toList := by
  rw [Code.pathVariable, String.toList_append]
  exact List.not_mem_append (by decide) (underscore_notMem_natText depth)

/-! ## Putting code together -/

namespace Calls

/-- Code without an underscore calls nothing. -/
theorem plain (code : String) (h : '_' ∉ code.toList) : src.Calls code [] :=
  .text (.plain h)

/-- A text before the code calls nothing. -/
theorem prependText (h : src.Calls code hs) {before : String} (hb : src.Text before) :
    src.Calls (before ++ code) hs :=
  (Calls.text hb).append h

/-- Nor does one behind it. -/
theorem followText (h : src.Calls code hs) {after : String} (ha : src.Text after) :
    src.Calls (code ++ after) hs := by
  have h' := h.append (.text ha)
  rwa [List.append_nil] at h'

theorem prepend (h : src.Calls code hs) (before : String)
    (hb : '_' ∉ before.toList) : src.Calls (before ++ code) hs :=
  h.prependText (.plain hb)

theorem follow (h : src.Calls code hs) (after : String)
    (ha : '_' ∉ after.toList) : src.Calls (code ++ after) hs :=
  h.followText (.plain ha)

theorem indent (h : src.Calls code hs) (level : Nat) : src.Calls (code ++ Code.indent level) hs :=
  h.follow _ (underscore_notMem_indent level)

end Calls

namespace CallsEach

theorem append (h : src.CallsEach codes hs) (h' : src.CallsEach codes' hs') :
    src.CallsEach (codes ++ codes') (hs ++ hs') := by
  induction h with
  | nil => exact h'
  | cons first _ ih =>
    rw [List.cons_append, List.append_assoc]
    exact .cons first ih

theorem singleton (h : src.Calls code hs) : src.CallsEach [code] hs := by
  have h' := CallsEach.cons h .nil
  rwa [List.append_nil] at h'

/-- Pieces that call no helper. -/
theorem none (h : ∀ code ∈ codes, src.Calls code []) : src.CallsEach codes [] := by
  induction codes with
  | nil => exact .nil
  | cons code codes ih =>
    obtain ⟨hfirst, hrest⟩ := List.forall_mem_cons.mp h
    exact .cons hfirst (ih hrest)

theorem map {f : String → String} (hf : ∀ {code hs}, src.Calls code hs → src.Calls (f code) hs)
    (h : src.CallsEach codes hs) : src.CallsEach (codes.map f) hs := by
  induction h with
  | nil => exact .nil
  | cons first _ ih => exact .cons (hf first) ih

theorem join (h : src.CallsEach codes hs) : src.Calls (String.join codes) hs := by
  induction h with
  | nil => exact .plain "" (by decide)
  | cons first _ ih =>
    rw [String.join_cons]
    exact first.append ih

/-- Codes with a separator between them call what they call in their order. -/
theorem intercalate (h : src.CallsEach codes hs) (separator : String)
    (hseparator : '_' ∉ separator.toList) :
    src.Calls (separator.intercalate codes) hs := by
  induction h with
  | nil =>
    rw [String.intercalate_nil]
    exact .plain "" (by decide)
  | @cons code codes hs hs' first rest ih =>
    cases codes with
    | nil =>
      cases rest
      rw [String.intercalate_singleton, List.append_nil]
      exact first
    | cons next codes =>
      rw [String.intercalate_cons_cons, String.append_assoc]
      exact first.append (ih.prepend separator hseparator)

/-- Lines of code, each behind some blanks. -/
theorem lines (level : Nat) (h : src.CallsEach codes hs) :
    src.Calls (",\n".intercalate (codes.map fun code => Code.indent level ++ code)) hs :=
  (h.map fun hcode => hcode.prepend _ (underscore_notMem_indent level)).intercalate ",\n"
    (by decide)

/-- Pieces that there are none of call no helper. -/
theorem of_nil (h : src.CallsEach [] hs) (hc : src.Calls code []) : src.Calls code hs := by
  cases h
  exact hc

end CallsEach

/-! ## Calls and literals -/

/-- A call of a helper calls the helper and what its arguments call. -/
theorem Calls.call (h : Helper) {args : List String} (ha : src.CallsEach args hs) :
    src.Calls (h.call args) (h :: hs) :=
  (((Calls.shortName h).follow "(" (by decide)).append
    (ha.intercalate ", " (by decide))).follow ")" (by decide)

/-- An object on one line calls what its fields call. -/
theorem Calls.inlineObject {fields : List String} (h : src.CallsEach fields hs) :
    src.Calls (Code.inlineObject fields) hs :=
  ((h.intercalate ", " (by decide)).prepend "\x7b " (by decide)).follow " \x7d" (by decide)

/-- So does one on several lines. -/
theorem Calls.object (level : Nat) {fields : List String} (h : src.CallsEach fields hs) :
    src.Calls (Code.object level fields) hs := by
  unfold Code.object
  split
  · rename_i hempty
    rw [List.isEmpty_iff.mp hempty] at h
    exact h.of_nil (.plain "\x7b\x7d" (by decide))
  · have hlines := ((h.lines (level + 1)).prepend "\x7b\n" (by decide)).follow "\n" (by decide)
    exact (hlines.indent level).follow "\x7d" (by decide)

/-- A field with a name that is written bare if it can be. -/
theorem Calls.field (name : String) (h : src.Calls code hs) :
    src.Calls (Code.fieldKey name ++ ": " ++ code) hs := by
  unfold Code.fieldKey
  split
  · rename_i hplain
    exact h.prependText (.field hplain)
  · rw [String.append_assoc]
    exact (h.prepend ": " (by decide)).prependText (.literal name)

/-! ## Outlets -/

/-- The path of a loop is made of its variables and calls nothing. -/
theorem loopPath_calls {loops : List Nat} {path : String} (h : Code.loopPath loops = some path) :
    src.Calls path [] := by
  unfold Code.loopPath at h
  split at h
  · cases h
  · cases h
    refine (CallsEach.none fun code hcode => ?_).intercalate " + \"-\" + " (by decide)
    obtain ⟨depth, -, rfl⟩ := List.mem_map.mp hcode
    exact .plain _ (underscore_notMem_pathVariable depth)

end Sources

/-- The expressions in the name of an outlet. -/
def OutletBase.expressions : OutletBase → List Expression
  | fixed _ => []
  | computed e => [e]

/-- The expressions in a property that is passed to an outlet. -/
def OutletProp.expressions : OutletProp → List Expression
  | fixed _ _ => []
  | bound _ e => [e]

/-- The expressions in what asks for an outlet. -/
def OutletCall.expressions (call : OutletCall) : List Expression :=
  call.base.expressions ++ call.props.flatMap OutletProp.expressions

section Outlets

variable {src : Sources}

/-- The name of an outlet calls nothing. -/
theorem OutletBase.render_calls (base : OutletBase) (h : base.expressions ⊆ src.expressions)
    (locals : List String) : src.Calls (base.render locals) [] := by
  cases base with
  | fixed name => exact .text (.literal name)
  | computed e => exact .text (.expression (h List.mem_cons_self) locals)

/-- Nor does a property of an outlet. -/
theorem OutletProp.render_calls (prop : OutletProp) (h : prop.expressions ⊆ src.expressions)
    (locals : List String) : src.Calls (prop.render locals) [] := by
  cases prop with
  | fixed name value => exact .field name (.text (.literal value))
  | bound name e => exact .field name (.text (.expression (h List.mem_cons_self) locals))

/-- The code that asks for an outlet calls one helper. -/
theorem OutletCall.render_calls (call : OutletCall) (h : call.expressions ⊆ src.expressions)
    (locals : List String) : src.Calls (call.render locals) [.resolveOutlet] := by
  obtain ⟨hbase, hprops⟩ := List.append_subset.mp h
  have hobject : src.Calls (call.renderProps locals) [] := by
    unfold OutletCall.renderProps
    split
    · exact .plain "null" (by decide)
    · refine .inlineObject (.none fun code hcode => ?_)
      obtain ⟨prop, hprop, rfl⟩ := List.mem_map.mp hcode
      exact prop.render_calls (fun e he => hprops (List.mem_flatMap.mpr ⟨prop, hprop, he⟩)) locals
  have hpath : src.Calls ((Code.loopPath call.loopPath).getD "null") [] := by
    cases hp : Code.loopPath call.loopPath with
    | none => exact .plain "null" (by decide)
    | some path => exact Sources.loopPath_calls hp
  exact .call _ (.cons (call.base.render_calls hbase locals) (.cons hobject (.singleton hpath)))

/-- The code of an outlet's identity calls a helper if its name is computed. -/
theorem renderOutletName_calls (base : OutletBase) (h : base.expressions ⊆ src.expressions)
    (loopPath : List Nat) (locals : List String) :
    src.Calls (renderOutletName base loopPath locals) (base.expressions.map fun _ => .display) := by
  unfold renderOutletName
  cases base with
  | fixed name =>
    cases hp : Code.loopPath loopPath with
    | none => exact .text (.literal name)
    | some path =>
      have hname : src.Calls (Code.literal (name ++ "-")) [] := .text (.literal _)
      exact (hname.follow " + " (by decide)).append (Sources.loopPath_calls hp)
  | computed e =>
    have hdisplay : src.Calls (Helper.display.call [e.render locals]) [.display] :=
      .call _ (.singleton (.text (.expression (h List.mem_cons_self) locals)))
    cases hp : Code.loopPath loopPath with
    | none => exact hdisplay
    | some path =>
      exact (hdisplay.follow " + \"-\" + " (by decide)).append (Sources.loopPath_calls hp)

end Outlets

end UiTemplate
