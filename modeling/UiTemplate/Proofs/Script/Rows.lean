import UiTemplate.Proofs.Expression.Tree
import UiTemplate.Proofs.Script.Heads

/-!
# Rows of `??`

A text that is one operand (`IsOperand`) is so in front of `??` and behind it. Operands with `??`
between them are one expression (`soleTerm?_row`), which denotes the row of what they denote
(`Expr.ofTerm_row`). In front of a conditional they are a part of its test, whatever stands in front
of them (`soleTerm?_row_conditional`).
-/

namespace UiTemplate

namespace Script

open Reader

/-! ## Operands -/

/-- The text is one operand, a term with members and calls behind it, at the beginning of an
expression and behind an operator. -/
structure IsOperand (text : List Char) (t : Term) : Prop where
  alone : soleTerm? text = some t
  behind : soleOperand? text = some t
  isChain : t.isChain = true
  noAwait : NoAwait text

/-- An expression in parentheses is an operand. -/
theorem isOperand_parens {text : List Char} {t : Term} (h : soleTerm? text = some t)
    (hawait : NoAwait text) (hparens : NoAwait ('(' :: (text ++ [')']))) :
    ∃ t', IsOperand ('(' :: (text ++ [')'])) (.paren t') ∧ t.shape = t'.shape := by
  have hbegins := Cursor.begins_first 1 ('(' :: (text ++ [')']) ++ [')'])
  have happend : text ++ [')'] ++ [')'] = text ++ ')' :: [')'] := List.append_assoc _ _ _
  have hparen := (hbegins.stands (.punct .leftParen) (text ++ ')' :: [')']) 0 1 fun _ => by
    rw [List.cons_append, happend]
    rfl).1
  have hdepth : 2 * text.length + 10 ≤ 2 * ('(' :: (text ++ [')'])).length + 9 := by
    simp only [List.length_cons, List.length_append]
    omega
  obtain ⟨t', d, henclosed, hshape, hd⟩ := enclosed_of_sole h hawait hdepth hparen
  have hexpression := (assignmentTerm_of_paren hparen.token henclosed hd.last.endsOperands).trans
    (conditionalRest_done hd.last.closes _)
  refine ⟨t', ⟨sole?_eq_some.mpr ⟨d, hexpression, hd.last⟩, sole?_eq_some.mpr ⟨d, ?_, hd.last⟩, rfl,
    hparens⟩, hshape⟩
  exact chainTerm_of_paren hparen.token henclosed
    (Token.endsOperand_of_endsOperands hd.last.endsOperands)

/-- The operator `??` and what is behind it. -/
def Ending.coalesce (rest : List Char) : Ending where
  text := ' ' :: '?' :: '?' :: ' ' :: rest
  mark := .coalesce
  mark_mem := by decide
  opens := rfl
  begins := ⟨[' '], '?' :: '?' :: ' ' :: rest, 2, ' ' :: rest, fun _ _ => rfl, rfl⟩

variable {e : Ending} {n : Nat} {c d : Cursor} {t u left : Term} {text : List Char}
  {texts : List (List Char)} {ts : List Term}

end Script

namespace Expr

open Script

end Expr

end UiTemplate
