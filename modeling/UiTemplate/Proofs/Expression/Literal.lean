import UiTemplate.Code.Name
import UiTemplate.Expression.Eval
import UiTemplate.Proofs.Expression.Written
import UiTemplate.Proofs.Json.ReadBack
import UiTemplate.Proofs.Result

/-!
# JSON as an expression

The compact text of a JSON value is an expression that denotes the value.

- `Json.phrase`: the phrase that the text is.
- `Json.spells_compact`: the text is written with the tokens of the phrase, without blanks between
  them.
- `Json.eval_phrase`: the phrase denotes the value, with the entries of its objects in order.
- `Expression.parse_compact`: both together, for values without numbers, and for literals.
-/

namespace UiTemplate

open Script

/-! ## The phrase of a value -/

namespace Json

mutual

/-- A value as a phrase. -/
def phrase : Json → Phrase
  | .null => .null
  | .bool b => .bool b
  | .int n => .number (Float.ofInt n)
  | .float x => .number x
  | .str s => .str s
  | .arr items => .array (phrases items)
  | .obj entries => .object (fieldPhrases entries)

/-- The phrases of items. -/
def phrases : List Json → List Phrase
  | [] => []
  | v :: rest => v.phrase :: phrases rest

/-- The fields of an object, whose names are strings. -/
def fieldPhrases : List (String × Json) → List Field
  | [] => []
  | (k, v) :: rest => .pair (.str k) v.phrase :: fieldPhrases rest

end

mutual

theorem wellFormed_phrase (v : Json) : v.phrase.wellFormed = true := by
  match v with
  | .null | .bool _ | .int _ | .float _ | .str _ => rfl
  | .arr items =>
    rw [phrase, Phrase.wellFormed]
    exact wellFormed_phrases items
  | .obj entries =>
    rw [phrase, Phrase.wellFormed]
    exact wellFormed_fieldPhrases entries

theorem wellFormed_phrases (items : List Json) : wellFormedAll (phrases items) = true := by
  match items with
  | [] => rfl
  | v :: rest =>
    rw [phrases, wellFormedAll, wellFormed_phrase v, wellFormed_phrases rest]
    rfl

theorem wellFormed_fieldPhrases (entries : List (String × Json)) :
    wellFormedFields (fieldPhrases entries) = true := by
  match entries with
  | [] => rfl
  | (k, v) :: rest =>
    rw [fieldPhrases, wellFormedFields, Field.wellFormed, wellFormed_phrase v,
      wellFormed_fieldPhrases rest]
    rfl

end

/-! ## Tokens -/

theorem endsWord_comma (cs : List Char) : EndsWord (',' :: cs) :=
  endsWord_cons (by decide +kernel) (by decide)

mutual

/-- The text of a value is written with the tokens of its phrase, where no word goes on behind
it. -/
theorem spells_compact (v : Json) (hv : v.IsNumberless) {tail : List Char} {us : List Token}
    (hends : EndsWord tail) (h : Spells tail us []) :
    Spells (v.compact.toList ++ tail) (v.phrase.tokens ++ us) [] := by
  match v with
  | .null =>
    exact spells_word (show isWordText ['n', 'u', 'l', 'l'] = true by decide +kernel) hends h
  | .bool true =>
    exact spells_word (show isWordText ['t', 'r', 'u', 'e'] = true by decide +kernel) hends h
  | .bool false =>
    exact spells_word (show isWordText ['f', 'a', 'l', 's', 'e'] = true by decide +kernel) hends h
  | .int _ => exact hv.elim
  | .float _ => exact hv.elim
  | .str s =>
    have htext : (Json.str s).compact.toList ++ tail =
        '"' :: (s.toList.flatMap escapeChar ++ '"' :: tail) := by
      simp [compact, compactWith, toList_quoted]
    rw [htext]
    exact spells_quoted s h
  | .arr items =>
    rw [toList_compact_arr, phrase, Phrase.tokens, List.cons_append, List.cons_append,
      List.append_assoc, List.append_assoc]
    refine spells_char (fun _ => rfl) (spells_compactItems items hv ?_ ?_)
    · exact endsWord_cons (by decide +kernel) (by decide)
    · exact spells_char (fun _ => rfl) h
  | .obj entries =>
    rw [toList_compact_obj, phrase, Phrase.tokens, List.cons_append, List.cons_append,
      List.append_assoc, List.append_assoc]
    refine spells_char (fun _ => rfl) (spells_compactEntries entries hv ?_ ?_)
    · exact endsWord_cons (by decide +kernel) (by decide)
    · exact spells_char (fun _ => rfl) h

theorem spells_compactItems (items : List Json) (hv : AreNumberless items) {tail : List Char}
    {us : List Token} (hends : EndsWord tail) (h : Spells tail us []) :
    Spells ((compactItems quoted items).toList ++ tail) (commas (rows (phrases items)) ++ us)
      [] := by
  match items with
  | [] => exact h
  | [v] => exact spells_compact v hv.1 hends h
  | v :: w :: rest =>
    rw [toList_compactItems, List.append_assoc, List.cons_append]
    show Spells _ ((v.phrase.tokens ++ .punct .comma :: commas (rows (phrases (w :: rest)))) ++ us) []
    rw [List.append_assoc, List.cons_append]
    refine spells_compact v hv.1 (endsWord_comma _) ?_
    exact spells_char (fun _ => rfl) (spells_compactItems (w :: rest) hv.2 hends h)

theorem spells_compactEntries (entries : List (String × Json)) (hv : HaveNumberless entries)
    {tail : List Char} {us : List Token} (hends : EndsWord tail) (h : Spells tail us []) :
    Spells ((compactEntries quoted entries).toList ++ tail)
      (commas (fieldRows (fieldPhrases entries)) ++ us) [] := by
  match entries with
  | [] => exact h
  | [(k, v)] =>
    rw [toList_compactEntries_singleton, List.cons_append, List.append_assoc]
    exact spells_quoted k (spells_char (fun _ => rfl) (spells_compact v hv.1 hends h))
  | (k, v) :: e :: rest =>
    rw [toList_compactEntries, List.cons_append, List.append_assoc]
    show Spells _ (((Token.str k :: .punct .colon :: v.phrase.tokens) ++
      .punct .comma :: commas (fieldRows (fieldPhrases (e :: rest)))) ++ us) []
    rw [List.append_assoc, List.cons_append, List.cons_append, List.cons_append, List.cons_append,
      List.cons_append, List.append_assoc, List.cons_append]
    refine spells_quoted k (spells_char (fun _ => rfl) ?_)
    refine spells_compact v hv.1 (endsWord_comma _) ?_
    exact spells_char (fun _ => rfl) (spells_compactEntries (e :: rest) hv.2 hends h)

end

/-! ## Values -/

mutual

/-- The phrase of a value denotes the value, with the entries of its objects in order. -/
theorem eval_phrase (v : Json) (hv : v.IsNumberless) (scope : Scope) :
    v.phrase.tree.eval scope = .ok v.canonical := by
  match v with
  | .null => rfl
  | .bool _ => rfl
  | .int _ => exact hv.elim
  | .float _ => exact hv.elim
  | .str _ => rfl
  | .arr items =>
    rw [phrase, Phrase.tree, Expr.eval, evalAll_phrases items hv scope]
    rfl
  | .obj entries =>
    rw [phrase, Phrase.tree, Expr.eval, evalFields_phrases entries hv scope]
    rfl

theorem evalAll_phrases (items : List Json) (hv : AreNumberless items) (scope : Scope) :
    Expr.evalAll scope (trees (phrases items)) = .ok (canonicalItems items) := by
  match items with
  | [] => rfl
  | v :: rest =>
    rw [phrases, trees, Expr.evalAll, eval_phrase v hv.1 scope, evalAll_phrases rest hv.2 scope]
    rfl

theorem evalFields_phrases (entries : List (String × Json)) (hv : HaveNumberless entries)
    (scope : Scope) :
    Expr.evalFields scope (fieldTrees (fieldPhrases entries)) = .ok (canonicalEntries entries) := by
  match entries with
  | [] => rfl
  | (k, v) :: rest =>
    rw [fieldPhrases, fieldTrees, Field.entry, Expr.evalFields, eval_phrase v hv.1 scope,
      evalFields_phrases rest hv.2 scope]
    rfl

end

/-- The text of a value begins and ends with characters that are no blanks. -/
theorem compact_ends {v : Json} (hv : v.IsNumberless) :
    (∃ c cs, v.compact.toList = c :: cs ∧ Text.isBlank c = false) ∧
      ∃ cs c, v.compact.toList = cs ++ [c] ∧ Text.isBlank c = false := by
  cases v with
  | null => exact ⟨⟨'n', _, rfl, rfl⟩, ['n', 'u', 'l'], 'l', rfl, rfl⟩
  | bool b => cases b with
    | true => exact ⟨⟨'t', _, rfl, rfl⟩, ['t', 'r', 'u'], 'e', rfl, rfl⟩
    | false => exact ⟨⟨'f', _, rfl, rfl⟩, ['f', 'a', 'l', 's'], 'e', rfl, rfl⟩
  | int n => exact hv.elim
  | float x => exact hv.elim
  | str s => exact ⟨⟨'"', _, toList_quoted s, rfl⟩, '"' :: _, '"', toList_quoted s, rfl⟩
  | arr items =>
    exact ⟨⟨'[', _, toList_compact_arr items, rfl⟩, '[' :: _, ']', toList_compact_arr items, rfl⟩
  | obj entries =>
    exact ⟨⟨'\x7b', _, toList_compact_obj entries, rfl⟩, '\x7b' :: _, '\x7d',
      toList_compact_obj entries, rfl⟩

end Json

/-! ## Reading -/

namespace Expression

theorem endsWord_of_endsTokens {cs : List Char} (h : EndsTokens cs) : EndsWord cs := by
  obtain ⟨rest, rfl | rfl⟩ := h
  · exact endsWord_cons (by decide +kernel) (by decide)
  · exact endsWord_cons (by decide +kernel) (by decide)

/-- The text of a value is written as its phrase. -/
theorem written_compact {v : Json} (hv : v.IsNumberless) :
    Written v.compact.toList v.phrase.tokens where
  head := (Json.compact_ends hv).1
  last := (Json.compact_ends hv).2
  spells _ _ hends h := Json.spells_compact v hv (endsWord_of_endsTokens hends) h

/-- The text of a value is read as the tree of its phrase. -/
theorem parse_compact_tree {v : Json} (hv : v.IsNumberless) :
    ∃ e, parse v.compact = .ok e ∧ e.tree = v.phrase.tree := by
  have htree := treeOf?_of_written (Json.wellFormed_phrase v) (written_compact hv)
  obtain ⟨e, he, htree⟩ := Option.map_eq_some_iff.mp htree
  exact ⟨e, Except.toOption_eq_some.mp he, htree⟩

/-- The compact text of a value without numbers is an expression whose value it is in every scope,
and a literal is the text that it quotes. -/
theorem parse_compact {v : Json} (hv : v.IsNumberless) (hordered : v.canonical = v) :
    (∃ e, parse v.compact = .ok e ∧ ∀ scope, e.tree.eval scope = .ok v) ∧
      ∀ s, ∃ e, parse (Code.literal s) = .ok e ∧ e.tree = .str s := by
  constructor
  · obtain ⟨e, he, htree⟩ := parse_compact_tree hv
    refine ⟨e, he, fun scope => ?_⟩
    rw [htree, Json.eval_phrase v hv scope, hordered]
  · intro s
    exact parse_compact_tree (v := .str s) trivial

/-- An object in an array, with a quote, control characters, a line separator and a character
beyond the basic plane. -/
theorem parse_compact_nested :
    ∃ e, parse (Json.compact (.arr [.obj [("\"", .arr [.null, .bool true]),
        ("k\\", .str "\x01\n\u2028😀")]])) = .ok e ∧
      ∀ scope, e.tree.eval scope = .ok (.arr [.obj [("\"", .arr [.null, .bool true]),
        ("k\\", .str "\x01\n\u2028😀")]]) :=
  have hv : Json.IsNumberless (.arr [.obj [("\"", .arr [.null, .bool true]),
      ("k\\", .str "\x01\n\u2028😀")]]) :=
    ⟨⟨⟨trivial, trivial, trivial⟩, trivial, trivial⟩, trivial⟩
  (parse_compact hv rfl).1

end Expression

end UiTemplate
