import UiTemplate.Backend.Calls
import UiTemplate.Proofs.Json.ReadBack

/-!
# Code at another level of indentation

- `Code.reindent`: code moved further in, line by line.
- `Code.OneLine`: code without a line break, which stays as it is.
- `Calls.reindent_arrayLiteral`: an array literal moved further in is that of its items at a deeper
  level.
-/

namespace UiTemplate

namespace Code

/-! ## Moving code -/

/-- Code moved further in by some levels: behind every line break stand their blanks. -/
def reindent (level : Nat) (code : String) : String :=
  String.ofList (code.toList.flatMap fun c =>
    if c = '\n' then '\n' :: (indent level).toList else [c])

theorem indent_add (level more : Nat) : indent (level + more) = indent level ++ indent more := by
  unfold indent
  rw [← String.ofList_append, List.replicate_append_replicate, Nat.mul_add]

section Reindent

variable (level : Nat)

theorem reindent_append (code code' : String) :
    reindent level (code ++ code') = reindent level code ++ reindent level code' := by
  unfold reindent
  rw [String.toList_append, List.flatMap_append, String.ofList_append]

theorem reindent_intercalate (separator : String) (codes : List String) :
    reindent level (separator.intercalate codes) =
      (reindent level separator).intercalate (codes.map (reindent level)) := by
  induction codes with
  | nil => rfl
  | cons code codes ih =>
    cases codes with
    | nil => simp only [List.map_cons, List.map_nil, String.intercalate_singleton]
    | cons next codes =>
      rw [String.intercalate_cons_cons, reindent_append, reindent_append, ih, List.map_cons,
        List.map_cons, List.map_cons, String.intercalate_cons_cons]

/-- Blanks before the first of some texts and behind every separator are blanks before each. -/
theorem append_intercalate (before separator : String) {codes : List String} (h : codes ≠ []) :
    before ++ (separator ++ before).intercalate codes =
      separator.intercalate (codes.map (before ++ ·)) := by
  induction codes with
  | nil => exact absurd rfl h
  | cons code codes ih =>
    cases codes with
    | nil => simp only [List.map_cons, List.map_nil, String.intercalate_singleton]
    | cons next codes =>
      have ih := ih (List.cons_ne_nil next codes)
      rw [List.map_cons] at ih
      rw [String.intercalate_cons_cons, List.map_cons, List.map_cons, String.intercalate_cons_cons,
        ← ih]
      simp only [String.append_assoc]

end Reindent

/-! ## Code without a line break -/

/-- The code stands on one line. -/
abbrev OneLine (code : String) : Prop :=
  '\n' ∉ code.toList

namespace OneLine

variable {code code' : String}

theorem append (h : OneLine code) (h' : OneLine code') : OneLine (code ++ code') := by
  unfold OneLine
  rw [String.toList_append]
  exact List.not_mem_append h h'

theorem intercalate {separator : String} (hs : OneLine separator) {codes : List String}
    (h : ∀ code ∈ codes, OneLine code) : OneLine (separator.intercalate codes) := by
  induction codes with
  | nil => exact List.not_mem_nil
  | cons code codes ih =>
    obtain ⟨hcode, hcodes⟩ := List.forall_mem_cons.mp h
    cases codes with
    | nil => rwa [String.intercalate_singleton]
    | cons next codes =>
      rw [String.intercalate_cons_cons]
      exact (hcode.append hs).append (ih hcodes)

theorem literal (s : String) : OneLine (literal s) := by
  have hvisible : Json.AreVisible (Json.quoted s).toList := by
    rw [Json.toList_quoted]
    exact Json.areVisible_key s fun _ h => absurd h List.not_mem_nil
  exact fun h => absurd (hvisible _ h) (by decide)

theorem fieldKey (name : String) : OneLine (fieldKey name) := by
  unfold Code.fieldKey
  split
  · rename_i hplain
    intro h
    cases hname : name.toList with
    | nil => simp [hname] at h
    | cons c cs =>
      rw [hname, isPlainName, Bool.and_eq_true] at hplain
      rw [hname, List.mem_cons] at h
      rcases h with rfl | h
      · exact absurd hplain.1 (by decide)
      · exact absurd (List.all_eq_true.mp hplain.2 _ h) (by decide)
  · exact literal name

theorem indent (level : Nat) : OneLine (indent level) := by
  simp [OneLine, Code.indent, List.mem_replicate]

theorem reindent (h : OneLine code) (level : Nat) : Code.reindent level code = code := by
  unfold Code.reindent
  have hsame (cs : List Char) (hcs : '\n' ∉ cs) :
      (cs.flatMap fun c => if c = '\n' then '\n' :: (Code.indent level).toList else [c]) = cs := by
    induction cs with
    | nil => rfl
    | cons c cs ih =>
      obtain ⟨hc, hrest⟩ := List.ne_and_not_mem_of_not_mem_cons hcs
      rw [List.flatMap_cons, if_neg hc.symm, ih hrest, List.singleton_append]
  rw [hsame _ h, String.ofList_toList]

end OneLine

/-- A line break is followed by the blanks. -/
theorem reindent_break (level : Nat) : reindent level "\n" = "\n" ++ indent level := by
  unfold reindent
  simp [String.ofList_cons]

end Code

/-- An array literal moved further in is that of its items, moved further in, at a deeper level. -/
theorem Calls.reindent_arrayLiteral (level more : Nat) (items : List String) :
    Code.reindent more (arrayLiteral level items) =
      arrayLiteral (more + level) (items.map (Code.reindent more)) := by
  unfold arrayLiteral
  rw [List.isEmpty_map]
  split
  · exact Code.OneLine.reindent (by decide) more
  · rename_i hitems
    have hne : items ≠ [] := fun h => hitems (List.isEmpty_iff.mpr h)
    -- Every line break of the literal stands in one of its brackets or separators.
    have hopen : Code.reindent more "[\n" = "[\n" ++ Code.indent more := by
      rw [show "[\n" = "[" ++ "\n" from rfl, Code.reindent_append, Code.reindent_break,
        Code.OneLine.reindent (by decide), String.append_assoc]
    have hcomma : Code.reindent more ",\n" = ",\n" ++ Code.indent more := by
      rw [show ",\n" = "," ++ "\n" from rfl, Code.reindent_append, Code.reindent_break,
        Code.OneLine.reindent (by decide), String.append_assoc]
    have hitems : (items.map (Code.indent (level + 1) ++ ·)).map (Code.reindent more) =
        (items.map (Code.reindent more)).map (Code.indent (level + 1) ++ ·) := by
      rw [List.map_map, List.map_map]
      refine List.map_congr_left fun item _ => ?_
      exact (Code.reindent_append _ _ _).trans (by rw [(Code.OneLine.indent _).reindent]; rfl)
    have hlines : Code.indent more ++ (",\n" ++ Code.indent more).intercalate
          ((items.map (Code.reindent more)).map (Code.indent (level + 1) ++ ·)) =
        ",\n".intercalate
          ((items.map (Code.reindent more)).map (Code.indent (more + level + 1) ++ ·)) := by
      rw [Code.append_intercalate _ _ (by simpa using hne), List.map_map]
      refine congrArg _ (List.map_congr_left fun item _ => ?_)
      show Code.indent more ++ (Code.indent (level + 1) ++ item) = _
      rw [← String.append_assoc, ← Code.indent_add, Nat.add_assoc]
    have hclose : Code.reindent more "]" = "]" := Code.OneLine.reindent (by decide) more
    rw [Code.reindent_append, Code.reindent_append, Code.reindent_append, Code.reindent_append,
      Code.reindent_intercalate, hopen, hcomma, Code.reindent_break,
      (Code.OneLine.indent level).reindent, hclose, hitems, ← hlines, Code.indent_add more level]
    simp only [String.append_assoc]

end UiTemplate
