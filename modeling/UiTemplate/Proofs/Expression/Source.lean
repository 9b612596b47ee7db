import Mathlib.Data.List.Basic
import UiTemplate.Expression.Basic

/-!
# The text of an expression

- `Text.trim_trim`: a text without blanks at its ends has none to lose.
- `Text.trim_eq_iff`: that is so if no blank is its first or its last character.
- `Text.eq_append_trim`: where a text without the blanks at its ends stands in the text.
- `Expression.source_of_parse`: an expression keeps its text without these blanks.
-/

namespace UiTemplate

namespace Text

theorem trimLeft_of_head {cs : List Char} (h : ∀ c ∈ cs.head?, isBlank c = false) :
    trimLeft cs = cs := by
  cases cs with
  | nil => rfl
  | cons c cs => exact List.dropWhile_cons_of_neg (by simp [h c rfl])

theorem head?_trimLeft (cs : List Char) : ∀ c ∈ (trimLeft cs).head?, isBlank c = false := by
  intro c hc
  have h := List.head?_dropWhile_not isBlank cs
  rw [show (cs.dropWhile isBlank).head? = some c from hc] at h
  exact h

theorem trimRight_prefix (cs : List Char) : trimRight cs <+: cs := by
  have hsuffix : trimLeft cs.reverse <:+ cs.reverse := List.dropWhile_suffix isBlank
  have hprefix := List.reverse_prefix.mpr hsuffix
  rwa [List.reverse_reverse] at hprefix

theorem trimLeft_trim (cs : List Char) : trimLeft (trim cs) = trim cs := by
  refine trimLeft_of_head fun c hc => head?_trimLeft cs c ?_
  obtain ⟨rest, hrest⟩ := trimRight_prefix (trimLeft cs)
  rw [← hrest, List.head?_append]
  exact Option.mem_def.mpr (by rw [show (trimRight (trimLeft cs)).head? = some c from hc]; rfl)

/-- A text without blanks at its ends has none to lose. -/
theorem trim_trim (cs : List Char) : trim (trim cs) = trim cs := by
  have hright : trimLeft (trim cs).reverse = (trim cs).reverse := by
    rw [trim, trimRight, List.reverse_reverse]
    exact trimLeft_of_head (head?_trimLeft _)
  rw [trim, trimLeft_trim, trimRight, hright, List.reverse_reverse]

/-- A text is the blanks at its front, the text without blanks at its ends, and more. -/
theorem eq_append_trim (cs : List Char) :
    ∃ after, cs = cs.takeWhile isBlank ++ (trim cs ++ after) := by
  obtain ⟨after, hafter⟩ := trimRight_prefix (trimLeft cs)
  refine ⟨after, ?_⟩
  rw [trim, hafter, trimLeft, List.takeWhile_append_dropWhile]

/-- A text without blanks at its ends, by its first and its last character. -/
theorem trim_eq_iff {cs : List Char} : trim cs = cs ↔
    (∀ c ∈ cs.head?, isBlank c = false) ∧ ∀ c ∈ cs.getLast?, isBlank c = false := by
  constructor
  · intro h
    have hlast : trimLeft (trimLeft cs).reverse = cs.reverse := by
      have hreverse := congrArg List.reverse h
      rwa [trim, trimRight, List.reverse_reverse] at hreverse
    refine ⟨fun c hc => head?_trimLeft cs c ?_, fun c hc => ?_⟩
    · rw [← h, trimLeft_trim, h]
      exact hc
    · refine head?_trimLeft (trimLeft cs).reverse c ?_
      rw [hlast, List.head?_reverse]
      exact hc
  · rintro ⟨hhead, hlast⟩
    have hright : trimLeft cs.reverse = cs.reverse :=
      trimLeft_of_head fun c hc => hlast c (by rwa [List.head?_reverse] at hc)
    rw [trim, trimLeft_of_head hhead, trimRight, hright, List.reverse_reverse]

/-- No blank is at the ends of a text with these characters there. -/
theorem trim_eq_of_ends {a b : Char} (ha : isBlank a = false) (hb : isBlank b = false)
    (cs : List Char) : trim (a :: (cs ++ [b])) = a :: (cs ++ [b]) := by
  refine trim_eq_iff.mpr ⟨?_, ?_⟩
  · rintro _ ⟨⟩
    exact ha
  · rw [← List.cons_append, List.getLast?_concat]
    rintro _ ⟨⟩
    exact hb

end Text

/-- An expression keeps the text it was read from, without the blanks at its ends. -/
theorem Expression.source_of_parse {text : String} {e : Expression} (h : parse text = .ok e) :
    e.source = String.ofList (Text.trim text.toList) := by
  unfold parse at h
  dsimp only at h
  split at h
  · cases h
  · split at h
    · cases h
    · split at h
      · cases h
      · cases h
        rfl
    · cases h

end UiTemplate
