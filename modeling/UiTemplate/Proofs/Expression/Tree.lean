import UiTemplate.Expression.Basic
import UiTemplate.Proofs.Result
import UiTemplate.Proofs.Script.Reading

/-!
# The tree of a text

A text whose tokens are those of a phrase is an expression, and its tree is the one that the
phrase denotes (`treeOf?_of_phrase`).
-/

namespace UiTemplate

namespace Script

open Reader

variable {n : Nat} {c : Phrase}

/-- The only statement of a script that is an expression in parentheses. -/
theorem script_takes (h : c.ReadsAssignment) (hfirst : c.first = .punct .leftParen)
    (hn : c.tokens.length < n) :
    Takes (script (.ofDepth (n + 1))) c.tokens [.eof]
      fun statements => ∃ t, statements = [.expression t] ∧ t.Means c := by
  obtain ⟨rest, htokens⟩ := c.tokens_eq_cons
  have hexpression : Takes (expression (.ofDepth n) .top) c.tokens [.eof] (Term.Means · c) := by
    rw [expression]
    refine Takes.bind_last (h n hn .top ⟨rfl, rfl⟩ .eof [] rfl) fun t ht => ?_
    exact Takes.bind_at rfl (Takes.pure ht)
  have hend : Takes endStatement [] [.eof] fun _ => True :=
    Takes.bind_eat_absent rfl rfl (Takes.bind_token rfl (Takes.pure trivial))
  have hstatement : Takes ((Rules.ofDepth (n + 1)).statement .top false) c.tokens [.eof]
      fun s => ∃ t, s = .expression t ∧ t.Means c := by
    show Takes (statementTerm (.ofDepth n) .top false) _ _ _
    rw [statementTerm]
    refine Takes.bind_token (by rw [htokens, hfirst]; rfl) ?_
    show Takes (labelOrExpression (.ofDepth n) .top) _ _ _
    rw [labelOrExpression]
    refine Takes.bind_last hexpression fun t ht => ?_
    split
    · refine Takes.bind_eat_absent rfl rfl ?_
      exact Takes.bind_peek hend fun _ _ => Takes.pure ⟨_, rfl, ht⟩
    · exact Takes.bind_peek hend fun _ _ => Takes.pure ⟨_, rfl, ht⟩
  refine Takes.repeatFrom fun fuel hfuel => ?_
  obtain ⟨fuel, rfl⟩ : ∃ k, fuel = k + 2 := ⟨fuel - 2, by simp [htokens] at hfuel; omega⟩
  rw [← List.append_nil c.tokens]
  refine Takes.iterate_more (m := fun ss => ∃ t, ss = [.expression t] ∧ t.Means c) ?_ ?_
  · refine Takes.bind_token (by rw [htokens, hfirst]; rfl) (Takes.bind_last hstatement ?_)
    rintro _ ⟨t, rfl, ht⟩
    exact Takes.pure ⟨_, rfl, t, rfl, ht⟩
  · rintro _ ⟨t, rfl, ht⟩
    exact Takes.iterate_done (Takes.bind_token rfl (Takes.pure ⟨_, rfl, t, rfl, ht⟩))

theorem statements?_of_phrase (h : c.ReadsAssignment) (hfirst : c.first = .punct .leftParen)
    {text : List Char} (hs : Spells text (c.tokens ++ [.eof]) []) :
    ∃ t, statements? text = some [.expression t] ∧ t.Means c := by
  have hlen := hs.length_le
  obtain ⟨rest, htokens⟩ := c.tokens_eq_cons
  rw [List.length_append, List.length_singleton] at hlen
  rw [htokens, List.cons_append] at hs
  cases hs with
  | cons hnext hshort hrest =>
    obtain ⟨start, stop, newline, hn, -⟩ := hnext 0
    rw [hfirst] at hn
    obtain ⟨ss, d, hscript, ⟨t, rfl, ht⟩, -, hpending, -⟩ :=
      script_takes (n := 2 * text.length + 7) h hfirst (by omega)
        ⟨⟨.punct .leftParen, start, stop, newline⟩, _, 0, []⟩ []
        ⟨_, _, by rw [htokens, hfirst]; rfl, rfl, nofun, hrest⟩
    refine ⟨t, ?_, ht⟩
    rw [statements?, hn]
    dsimp only
    rw [StateT.run, hscript]
    show (if d.pending = 0 then _ else _) = _
    rw [hpending]
    rfl

end Script

namespace Expression

open Script

/-- The tree that a text is read as. -/
def treeOf? (text : String) : Option Expr :=
  (parse text).toOption.map tree

theorem treeOf?_eq_some {text : String} {t : Expr} :
    treeOf? text = some t ↔ ∃ e, parse text = .ok e ∧ e.tree = t := by
  rw [treeOf?, Option.map_eq_some_iff]
  exact exists_congr fun e => and_congr_left fun _ => Except.toOption_eq_some

/-- A text of the tokens of a phrase is read as what that denotes. -/
theorem treeOf?_of_phrase {c : Phrase} (hc : c.wellFormed = true) {text : List Char}
    (htrim : Text.trim text = text)
    (hs : Spells ('(' :: (text ++ [')'])) (parens c.tokens ++ [.eof]) []) :
    treeOf? (String.ofList text) = some c.tree := by
  have hgroup : (Phrase.group [c]).ReadsAssignment := by
    refine (Phrase.reads (.group [c]) ?_).assignment
    rw [Phrase.wellFormed, wellFormedAll, wellFormedAll, hc]
    rfl
  obtain ⟨t, hstatements, ht⟩ := statements?_of_phrase hgroup rfl hs
  have hne : text ≠ [] := by
    rintro rfl
    have hlen := hs.length_le
    obtain ⟨rest, htokens⟩ := c.tokens_eq_cons
    simp only [parens, htokens, List.length_append, List.length_cons, List.length_nil] at hlen
    omega
  obtain ⟨refs, ht⟩ := ht.denotes []
  rw [treeOf?, parse, String.toList_ofList, htrim]
  simp only [List.isEmpty_eq_false_iff.mpr hne, hstatements, ht]
  rfl

end Expression

end UiTemplate
