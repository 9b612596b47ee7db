import UiTemplate.Proofs.Expression.Tree
import UiTemplate.Proofs.Script.Spelling

/-!
# Written phrases

A text in which a phrase is written can stand inside other texts: its tokens are the same
wherever a blank or a closing parenthesis comes after it.

- `Written text ts`: the text is written with the tokens `ts`, and no blank is at its ends.
- `treeOf?_of_written`: a text that is written with the tokens of a phrase is read as what that
  denotes.
-/

namespace UiTemplate.Expression

open Script

/-- The text ends every token before it. -/
def EndsTokens (cs : List Char) : Prop :=
  ∃ rest, cs = ' ' :: rest ∨ cs = ')' :: rest

/-- The text is written with the given tokens, and no blank is at its ends. -/
structure Written (text : List Char) (ts : List Token) : Prop where
  head : ∃ c cs, text = c :: cs ∧ Text.isBlank c = false
  last : ∃ cs c, text = cs ++ [c] ∧ Text.isBlank c = false
  spells : ∀ tail us, EndsTokens tail → Spells tail us [] → Spells (text ++ tail) (ts ++ us) []

theorem EndsTokens.paren (cs : List Char) : EndsTokens (')' :: cs) :=
  ⟨cs, .inr rfl⟩

/-! ## Texts of phrases -/

variable {text : List Char} {ts : List Token}

theorem Written.trim_eq (h : Written text ts) : Text.trim text = text := by
  obtain ⟨c, cs, hhead, hc⟩ := h.head
  obtain ⟨cs', c', hlast, hc'⟩ := h.last
  have hleft : Text.trimLeft text = text := by
    rw [Text.trimLeft, hhead, List.dropWhile_cons_of_neg (by simp [hc])]
  have hright : Text.trimLeft text.reverse = text.reverse := by
    rw [Text.trimLeft, hlast, List.reverse_append]
    exact List.dropWhile_cons_of_neg (by simp [hc'])
  rw [Text.trim, hleft, Text.trimRight, hright, List.reverse_reverse]

theorem treeOf?_of_written {c : Phrase} (hc : c.wellFormed = true) {text : String}
    (h : Written text.toList c.tokens) : treeOf? text = some c.tree := by
  have heof : Spells [] [.eof] [] := .cons (fun pos => ⟨_, _, _, rfl, nofun⟩) (.inl rfl) (.none [])
  have hclose : Spells [')'] [.punct .rightParen, .eof] [] :=
    spells_char (fun _ => rfl) heof
  have hall : Spells ('(' :: (text.toList ++ [')']))
      (.punct .leftParen :: (c.tokens ++ [.punct .rightParen, .eof])) [] :=
    spells_char (fun _ => rfl) (h.spells [')'] _ (.paren []) hclose)
  rw [← String.ofList_toList (s := text)]
  refine treeOf?_of_phrase hc h.trim_eq ?_
  simpa [Script.parens] using hall

end UiTemplate.Expression
