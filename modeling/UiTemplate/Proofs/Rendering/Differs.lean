import UiTemplate.Backend.Calls
import UiTemplate.Proofs.Rendering.Quotes

/-!
# Code in which some texts are others

- `Differs`, `DiffersEach`: two pieces of code, or two lists of them, that are the same but for some
  texts, one behind the other; with one lemma for each way in which code is put together.
-/

namespace UiTemplate

/-- The second code is the first one with other texts in place of some: in the order of the pairs,
the second text of each stands where the first code has the first text. -/
inductive Differs : List (String × String) → String → String → Prop where
  | same (code : String) : Differs [] code code
  | swap (text text' : String) : Differs [(text, text')] text text'
  | append {swaps swaps' : List (String × String)} {before before' after after' : String}
      (first : Differs swaps before before') (second : Differs swaps' after after') :
      Differs (swaps ++ swaps') (before ++ after) (before' ++ after')

/-- Two lists of pieces of code that differ in this way, piece by piece. -/
inductive DiffersEach : List (String × String) → List String → List String → Prop where
  | nil : DiffersEach [] [] []
  | cons {swaps swaps' : List (String × String)} {code code' : String} {codes codes' : List String}
      (first : Differs swaps code code') (rest : DiffersEach swaps' codes codes') :
      DiffersEach (swaps ++ swaps') (code :: codes) (code' :: codes')

section Lemmas

variable {swaps swaps' : List (String × String)} {code code' : String} {codes codes' : List String}

namespace Differs

theorem prepend (h : Differs swaps code code') (before : String) :
    Differs swaps (before ++ code) (before ++ code') :=
  (same before).append h

theorem follow (h : Differs swaps code code') (after : String) :
    Differs swaps (code ++ after) (code' ++ after) := by
  have h' := h.append (same after)
  rwa [List.append_nil] at h'

end Differs

namespace DiffersEach

theorem same (codes : List String) : DiffersEach [] codes codes := by
  induction codes with
  | nil => exact .nil
  | cons code codes ih => exact .cons (.same code) ih

theorem singleton (h : Differs swaps code code') : DiffersEach swaps [code] [code'] := by
  have h' := DiffersEach.cons h .nil
  rwa [List.append_nil] at h'

theorem prepend (h : DiffersEach swaps codes codes') (before : List String) :
    DiffersEach swaps (before ++ codes) (before ++ codes') := by
  induction before with
  | nil => exact h
  | cons code before ih => exact .cons (.same code) ih

theorem isEmpty_eq (h : DiffersEach swaps codes codes') : codes.isEmpty = codes'.isEmpty := by
  cases h <;> rfl

theorem map {f : String → String}
    (hf : ∀ {swaps code code'}, Differs swaps code code' → Differs swaps (f code) (f code'))
    (h : DiffersEach swaps codes codes') : DiffersEach swaps (codes.map f) (codes'.map f) := by
  induction h with
  | nil => exact .nil
  | cons first _ ih => exact .cons (hf first) ih

theorem join (h : DiffersEach swaps codes codes') :
    Differs swaps (String.join codes) (String.join codes') := by
  induction h with
  | nil => exact .same _
  | cons first _ ih =>
    rw [String.join_cons, String.join_cons]
    exact first.append ih

theorem intercalate (separator : String) (h : DiffersEach swaps codes codes') :
    Differs swaps (separator.intercalate codes) (separator.intercalate codes') := by
  induction h with
  | nil => exact .same _
  | @cons swaps swaps' code code' codes codes' first rest ih =>
    cases rest with
    | nil =>
      rw [String.intercalate_singleton, String.intercalate_singleton, List.append_nil]
      exact first
    | cons =>
      rw [String.intercalate_cons_cons, String.intercalate_cons_cons]
      exact (first.follow separator).append ih

end DiffersEach

/-! ## Calls and literals -/

namespace Calls

theorem arrayLiteral_differs (level : Nat) (h : DiffersEach swaps codes codes') :
    Differs swaps (arrayLiteral level codes) (arrayLiteral level codes') := by
  unfold arrayLiteral
  rw [h.isEmpty_eq]
  split
  · rename_i hempty
    have hnil : codes' = [] := List.isEmpty_iff.mp hempty
    rw [hnil] at h
    cases h
    exact .same _
  · have hlines := (h.map fun hcode => hcode.prepend (Code.indent (level + 1))).intercalate ",\n"
    exact (((hlines.prepend "[\n").follow "\n").follow (Code.indent level)).follow "]"

/-- The arguments behind one that is not missing are left out by themselves. -/
theorem arguments_append_some (before after : List (Option String)) (code : String) :
    arguments (before ++ some code :: after) =
      before.map (fun a => a.getD "null") ++ code :: arguments after := by
  have hkept : (after.reverse ++ some code :: before.reverse).dropWhile Option.isNone =
      after.reverse.dropWhile Option.isNone ++ some code :: before.reverse := by
    rw [List.dropWhile_append]
    split
    · rename_i hempty
      rw [List.isEmpty_iff.mp hempty]
      rfl
    · rfl
  have hreverse : (before ++ some code :: after).reverse =
      after.reverse ++ some code :: before.reverse := by simp
  unfold arguments
  rw [hreverse, hkept]
  simp

/-- Arguments that differ in one that is not missing. -/
theorem arguments_differ (before after : List (Option String)) (h : Differs swaps code code') :
    DiffersEach swaps (arguments (before ++ some code :: after))
      (arguments (before ++ some code' :: after)) := by
  rw [arguments_append_some, arguments_append_some]
  have hrest := DiffersEach.cons h (.same (arguments after))
  rw [List.append_nil] at hrest
  exact hrest.prepend _

theorem helper_differs (helper : Helper) (h : DiffersEach swaps codes codes') :
    Differs swaps (helper.call codes) (helper.call codes') :=
  ((h.intercalate ", ").prepend _).follow ")"

end Calls

/-! ## Chains -/

/-- Conditions and the code of their nodes, where only nodes differ. Only the last may have no
condition. -/
inductive ArmsDiffer : List (String × String) →
    List (Option String × String) → List (Option String × String) → Prop where
  | nil : ArmsDiffer [] [] []
  | otherwise {swaps : List (String × String)} {node node' : String}
      (h : Differs swaps node node') : ArmsDiffer swaps [(none, node)] [(none, node')]
  | test {swaps swaps' : List (String × String)} {node node' : String}
      {arms arms' : List (Option String × String)} (condition : String)
      (h : Differs swaps node node') (rest : ArmsDiffer swaps' arms arms') :
      ArmsDiffer (swaps ++ swaps') ((some condition, node) :: arms)
        ((some condition, node') :: arms')

/-- The tests of a chain, and what is constructed if all fail. -/
theorem ArmsDiffer.split {arms arms' : List (Option String × String)}
    (h : ArmsDiffer swaps arms arms') :
    ∃ tested others, swaps = tested ++ others ∧
      DiffersEach tested
        (arms.filterMap fun arm => arm.1.map fun c => c ++ " ? " ++ arm.2 ++ " : ")
        (arms'.filterMap fun arm => arm.1.map fun c => c ++ " ? " ++ arm.2 ++ " : ") ∧
      ((∃ last last', (arms.filter fun arm => arm.1.isNone).getLast? = some last ∧
          (arms'.filter fun arm => arm.1.isNone).getLast? = some last' ∧
          Differs others last.2 last'.2) ∨
        ((arms.filter fun arm => arm.1.isNone).getLast? = none ∧
          (arms'.filter fun arm => arm.1.isNone).getLast? = none ∧ others = [])) := by
  induction h with
  | nil => exact ⟨[], [], rfl, .nil, .inr ⟨rfl, rfl, rfl⟩⟩
  | otherwise h => exact ⟨[], _, rfl, .nil, .inl ⟨_, _, rfl, rfl, h⟩⟩
  | test condition h _ ih =>
    obtain ⟨tested, others, rfl, htests, hothers⟩ := ih
    refine ⟨_, others, (List.append_assoc _ tested others).symm, ?_, hothers⟩
    exact .cons ((h.prepend (condition ++ " ? ")).follow " : ") htests

end Lemmas

end UiTemplate
