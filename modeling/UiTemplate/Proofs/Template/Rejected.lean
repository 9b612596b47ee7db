import UiTemplate.Proofs.Result
import UiTemplate.Proofs.Template.Placed

/-!
# Rejected expressions

Reading a template fails with the fault of an expression only where an expression is read.

- `Raw.not_isExpression_of_read`: the tree as it is written is read without reading expressions.
- `Rejects`: the place of a fault in a text that is no expression.
- `Raw.settle_rejects`: the fault of an expression is that of a text of the nodes.
-/

namespace UiTemplate

open Piece

/-- Whether a fault is that of an expression. -/
def ParseFault.isExpression : ParseFault → Bool
  | expression _ => true
  | _ => false

/-! ## Reading the tree as it is written -/

theorem readValue_fault {name : String} {start : Nat} {p : Place} {flaw : Flaw}
    (h : readValue name start p = .error flaw) : flaw.fault.isExpression = false := by
  simp only [readValue] at h
  split at h
  · split at h
    · cases h
      rfl
    · cases h
  · split at h
    · cases h
      rfl
    · cases h

theorem readAttribute_fault {p : Place} {flaw : Flaw} (h : readAttribute p = .error flaw) :
    flaw.fault.isExpression = false := by
  simp only [readAttribute] at h
  split at h
  · cases h
    rfl
  · split at h
    · exact readValue_fault h
    · cases h

theorem readAttributes_fault {tag : String} {start : Nat} {p : Place} {flaw : Flaw}
    (h : readAttributes tag start p = .error flaw) : flaw.fault.isExpression = false := by
  induction hn : p.rest.length using Nat.strongRecOn generalizing p with
  | ind n ih =>
    rw [readAttributes] at h
    split at h
    · cases h
      rfl
    · split at h
      · cases h
      · split at h
        · cases h
        · split at h
          · rename_i hr
            cases h
            exact readAttribute_fault hr
          · rename_i a r hr
            have hlt := length_readAttribute hr
            have hlen := Place.length_skipBlanks p
            split at h
            · rename_i hmore
              cases h
              exact ih r.rest.length (by omega) hmore rfl
            · cases h

theorem next_fault {p : Place} {flaw : Flaw} (h : next p = .error flaw) :
    flaw.fault.isExpression = false := by
  rw [next] at h
  split at h
  · split at h
    · cases h
      rfl
    · cases h
  · split at h
    · simp only [readCloseTag] at h
      split at h
      · cases h
      · cases h
        rfl
    · split at h
      · simp only [readOpenTag] at h
        split at h
        · rename_i hr
          cases h
          exact readAttributes_fault hr
        · cases h
      · split at h
        · dsimp only at h
          split at h
          · cases h
            rfl
          · cases h
        · cases h

theorem pieces_fault (p : Place) : ∀ flaw ∈ (pieces p).2, flaw.fault.isExpression = false := by
  induction hn : p.rest.length using Nat.strongRecOn generalizing p with
  | ind n ih =>
    rw [pieces]
    split
    · exact fun flaw h => absurd h (Option.not_mem_none flaw)
    · rename_i hne
      split
      · rename_i hnext
        rintro flaw ⟨⟩
        exact next_fault hnext
      · rename_i hnext
        have hlt := length_next hne hnext
        exact ih _ (by omega) _ rfl

namespace Raw

theorem build_fault {opened : List OpenElement} {done : List Raw} {ended : Option Flaw}
    {ps : List Piece} (hended : ∀ flaw ∈ ended, flaw.fault.isExpression = false) {flaw : Flaw}
    (h : build opened done ended ps = .error flaw) : flaw.fault.isExpression = false := by
  induction ps generalizing opened done with
  | nil =>
    cases ended with
    | some f =>
      cases h
      exact hended _ rfl
    | none =>
      cases opened with
      | nil => cases h
      | cons e outer =>
        cases h
        rfl
  | cons p ps ih =>
    cases p with
    | text value start => exact ih h
    | interpolation source start => exact ih h
    | comment value start => exact ih h
    | openTag tag attributes closed start =>
      rw [build] at h
      split at h
      · exact ih h
      · exact ih h
    | closeTag tag start =>
      cases opened with
      | nil =>
        cases h
        rfl
      | cons e outer =>
        rw [build] at h
        split at h
        · exact ih h
        · cases h
          rfl

/-- The tree as it is written is read without reading expressions. -/
theorem not_isExpression_of_read {source : List Char} {flaw : Flaw}
    (h : read source = .error flaw) : flaw.fault.isExpression = false :=
  build_fault (pieces_fault ⟨0, source⟩) h

end Raw

/-! ## Reading expressions -/

/-- The text, which starts at a byte, is no expression: `error` says why, and byte `offset` is its
place behind the blanks at the front of the text. -/
structure Rejects (error : ExpressionError) (offset : Nat) (t : String × Nat) : Prop where
  rejected : Expression.parse t.1 = .error error
  place : offset = t.2 + Text.byteLength (t.1.toList.takeWhile Text.isBlank) + error.offset

theorem expressionAt_rejects {error : ExpressionError} {offset : Nat} {text : String} {start : Nat}
    (h : expressionAt text start = .error ⟨.expression error, offset⟩) :
    Rejects error offset (text, start) := by
  unfold expressionAt at h
  split at h
  · cases h
  · rename_i hparse
    cases h
    exact ⟨hparse, rfl⟩

namespace RawAttribute

variable {a : RawAttribute}

theorem requiredValue_fault {flaw : Flaw} (h : a.requiredValue = .error flaw) :
    flaw.fault.isExpression = false := by
  unfold requiredValue at h
  split at h
  · split at h
    · cases h
      rfl
    · cases h
  · cases h
    rfl

theorem value_of_requiredValue {v : String} (h : a.requiredValue = .ok v) : a.value = some v := by
  unfold requiredValue at h
  split at h
  · rename_i hvalue
    split at h
    · cases h
    · cases h
      exact hvalue
  · cases h

/-- Fails only with the fault of the text of the attribute that an expression is read from. -/
def RejectsText (a : RawAttribute) {α : Type} (x : Except Flaw α) : Prop :=
  ∀ error offset, x = .error ⟨.expression error, offset⟩ →
    ∃ t ∈ a.expressionText?, Rejects error offset t

theorem RejectsText.bind {α β : Type} {x : Except Flaw α} {f : α → Except Flaw β}
    (hx : a.RejectsText x) (hf : ∀ b, x = .ok b → a.RejectsText (f b)) :
    a.RejectsText (x >>= f) := by
  intro error offset h
  rcases Except.bind_eq_error.mp h with h | ⟨b, hb, h⟩
  · exact hx error offset h
  · exact hf b hb error offset h

theorem rejectsText_ok {α : Type} (b : α) : a.RejectsText (.ok b) :=
  fun _ _ h => by cases h

theorem rejectsText_error {α : Type} {flaw : Flaw} (h : flaw.fault.isExpression = false) :
    a.RejectsText (α := α) (.error flaw) := by
  rintro error offset ⟨⟩
  cases h

theorem rejectsText_requiredValue : a.RejectsText a.requiredValue := by
  intro error offset h
  exact absurd (requiredValue_fault h) (by simp [ParseFault.isExpression])

theorem rejectsText_expression (hloop : a.isLoop = false) : a.RejectsText a.expression := by
  refine rejectsText_requiredValue.bind fun v hv error offset h => ?_
  refine ⟨(v, a.valueStart), ?_, expressionAt_rejects h⟩
  rw [expressionText?, value_of_requiredValue hv, hloop]
  rfl

theorem isLoop_of_isChain (h : a.isChain = true) : a.isLoop = false := by
  simp only [isChain, Bool.or_eq_true, beq_iff_eq] at h
  rcases h with (h | h) | h <;> rw [isLoop, h] <;> decide

theorem rejectsText_chainRole (hchain : a.isChain = true) : a.RejectsText a.chainRole := by
  have hexpression := rejectsText_expression (isLoop_of_isChain hchain)
  unfold chainRole
  split
  · exact hexpression.bind fun e _ => rejectsText_ok _
  · split
    · exact hexpression.bind fun e _ => rejectsText_ok _
    · split
      · exact rejectsText_ok _
      · exact rejectsText_error rfl

theorem rejectsText_loopRole (hloop : a.isLoop = true) : a.RejectsText a.loopRole := by
  refine rejectsText_requiredValue.bind fun v hv => ?_
  split
  · exact rejectsText_error rfl
  · rename_i head hhead
    refine RejectsText.bind (fun error offset h => ?_) fun e _ => rejectsText_ok _
    refine ⟨(head.source, head.sourceStart), ?_, expressionAt_rejects h⟩
    rw [expressionText?, value_of_requiredValue hv, hloop, Option.bind_some, if_pos rfl, hhead]
    rfl

theorem rejectsText_plainItem (locate : Nat → Location) (hloop : a.isLoop = false) :
    a.RejectsText (a.plainItem locate) := by
  have hexpression := rejectsText_expression hloop
  unfold plainItem
  dsimp only
  split
  · exact hexpression.bind fun e _ => rejectsText_ok _
  · split
    · split
      · exact rejectsText_ok _
      · exact hexpression.bind fun e _ => rejectsText_ok _
    · split
      · exact rejectsText_ok _
      · exact rejectsText_ok _

/-- The fault of an expression in a start tag is that of the text of one of its attributes. -/
theorem items_rejects {locate : Nat → Location} {inChain inLoop : Bool}
    {attributes : List RawAttribute} {error : ExpressionError} {offset : Nat}
    (h : items locate inChain inLoop attributes = .error ⟨.expression error, offset⟩) :
    ∃ t ∈ attributes.filterMap expressionText?, Rejects error offset t := by
  induction attributes generalizing inChain inLoop with
  | nil => cases h
  | cons a rest ih =>
    -- The fault is that of the first attribute or of a later one.
    have first {t : String × Nat} (ht : t ∈ a.expressionText?) (hr : Rejects error offset t) :
        ∃ t ∈ (a :: rest).filterMap expressionText?, Rejects error offset t :=
      ⟨t, List.mem_filterMap.mpr ⟨a, List.mem_cons_self, ht⟩, hr⟩
    have later (h : ∃ t ∈ rest.filterMap expressionText?, Rejects error offset t) :
        ∃ t ∈ (a :: rest).filterMap expressionText?, Rejects error offset t := by
      obtain ⟨t, ht, hr⟩ := h
      obtain ⟨b, hb, ht⟩ := List.mem_filterMap.mp ht
      exact ⟨t, List.mem_filterMap.mpr ⟨b, List.mem_cons_of_mem a hb, ht⟩, hr⟩
    have step {α : Type} {x : Except Flaw α} {y : Except Flaw (List StartItem)}
        {f : α → List StartItem → List StartItem} (hx : a.RejectsText x)
        (hy : y = .error ⟨.expression error, offset⟩ →
          ∃ t ∈ rest.filterMap expressionText?, Rejects error offset t)
        (h : (x >>= fun b => y >>= fun more => .ok (f b more)) =
          .error ⟨.expression error, offset⟩) :
        ∃ t ∈ (a :: rest).filterMap expressionText?, Rejects error offset t := by
      rcases Except.bind_eq_error.mp h with h | ⟨b, -, h⟩
      · obtain ⟨t, ht, hr⟩ := hx error offset h
        exact first ht hr
      · rcases Except.bind_eq_error.mp h with h | ⟨more, -, h⟩
        · exact later (hy h)
        · cases h
    unfold items at h
    split at h
    · rename_i hchain
      split at h
      · cases h
      · exact step (rejectsText_chainRole hchain) ih h
    · split at h
      · rename_i hloop
        split at h
        · cases h
        · exact step (rejectsText_loopRole hloop) ih h
      · rename_i hloop
        exact step (rejectsText_plainItem locate (by simpa using hloop)) ih h

end RawAttribute

/-! ## Reading nodes -/

/-- Forming chains reads no expression. -/
theorem groupFrom_fault {chain : Option OpenChain} {siblings : List Sibling} {flaw : Flaw}
    (h : groupFrom chain siblings = .error flaw) : flaw.fault.isExpression = false := by
  induction siblings generalizing chain with
  | nil => cases h
  | cons s rest ih =>
    have after {chain' : Option OpenChain} {f : List Node → List Node}
        (h : (groupFrom chain' rest >>= fun more => .ok (f more)) = .error flaw) :
        flaw.fault.isExpression = false := by
      rcases Except.bind_eq_error.mp h with h | ⟨more, -, h⟩
      · exact ih h
      · cases h
    unfold groupFrom at h
    split at h
    · exact after h
    · split at h
      · cases h
        rfl
      · exact ih h
    · split at h
      · cases h
        rfl
      · exact after h
    · split at h
      · exact after h
      · split at h
        · exact ih h
        · exact after h

namespace Raw

section

variable {platform : Platform} {locate : Nat → Location} {error : ExpressionError} {offset : Nat}

theorem settle_fault {read : List Sibling × Option Flaw}
    (h : settle read = .error ⟨.expression error, offset⟩) :
    read.2 = some ⟨.expression error, offset⟩ := by
  rcases Except.bind_eq_error.mp h with h | ⟨nodes, -, h⟩
  · exact absurd (groupFrom_fault h) (by simp [ParseFault.isExpression])
  · split at h
    · cases h
    · rename_i flaw hflaw
      cases h
      exact hflaw

mutual

/-- The fault of an expression in a node is that of a text of the node. -/
theorem lower_rejects {depth : Nat} (r : Raw)
    (h : lower platform locate depth r = .error ⟨.expression error, offset⟩) :
    ∃ t ∈ r.expressionTexts, Rejects error offset t := by
  match r with
  | .text .. => cases h
  | .comment .. => cases h
  | .interpolation source start =>
    rcases Except.bind_eq_error.mp h with h | ⟨e, -, h⟩
    · exact ⟨_, List.mem_singleton_self _, expressionAt_rejects h⟩
    · cases h
  | .element tag attributes selfClosing start children =>
    rw [lower] at h
    rcases Except.bind_eq_error.mp h with h | ⟨items, -, h⟩
    · obtain ⟨t, ht, hr⟩ := RawAttribute.items_rejects h
      exact ⟨t, List.mem_append_left _ ht, hr⟩
    · rcases Except.bind_eq_error.mp h with h | ⟨nodes, -, h⟩
      · obtain ⟨t, ht, hr⟩ := lowerEach_rejects children (settle_fault h)
        exact ⟨t, List.mem_append_right _ ht, hr⟩
      · dsimp only at h
        split at h <;> cases h

theorem lowerEach_rejects {depth : Nat} (rs : List Raw)
    (h : (lowerEach platform locate depth rs).2 = some ⟨.expression error, offset⟩) :
    ∃ t ∈ expressionTextsAll rs, Rejects error offset t := by
  match rs with
  | [] => cases h
  | r :: rest =>
    rw [lowerEach] at h
    split at h
    · rename_i hr
      cases h
      obtain ⟨t, ht, hr⟩ := lower_rejects r hr
      exact ⟨t, List.mem_append_left _ ht, hr⟩
    · obtain ⟨t, ht, hr⟩ := lowerEach_rejects rest h
      exact ⟨t, List.mem_append_right _ ht, hr⟩

end

/-- The fault of an expression is that of a text of the nodes. -/
theorem settle_rejects {depth : Nat} {rs : List Raw}
    (h : settle (lowerEach platform locate depth rs) = .error ⟨.expression error, offset⟩) :
    ∃ t ∈ expressionTextsAll rs, Rejects error offset t :=
  lowerEach_rejects rs (settle_fault h)

end

end Raw

/-- A template that is rejected for an expression has a text that is none at the place that the
fault says. -/
theorem Template.read_rejects {options : ParseOptions} {source : List Char}
    {error : ExpressionError} {offset : Nat}
    (h : Template.read options source = .error ⟨.expression error, offset⟩) :
    ∃ rs, Raw.read source = .ok rs ∧
      ∃ t ∈ Raw.expressionTextsAll rs, Rejects error offset t := by
  rcases Except.bind_eq_error.mp h with hraw | ⟨rs, hraw, -⟩
  · exact absurd (Raw.not_isExpression_of_read hraw) (by simp [ParseFault.isExpression])
  · rw [Template.read_eq options hraw] at h
    obtain ⟨t, ht, hr⟩ := Raw.settle_rejects h
    rw [Raw.expressionTextsAll_kept] at ht
    exact ⟨rs, hraw, t, ht, hr⟩

end UiTemplate
