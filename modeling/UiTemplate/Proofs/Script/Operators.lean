import UiTemplate.Proofs.Script.Operand

/-!
# Reading operators

How the grammar reads operators and what they stand between.

- `Phrase.ReadsOperand c`: the phrase is read with the operators in front of it.
- `Phrase.ReadsOperands c`: the phrase is read as operands with operators between them, by any loop
  that goes on to the rank of its outermost operator.
-/

namespace UiTemplate.Script

open Reader

/-! ## Tokens behind operands -/

/-- A loop over operators above `rank` takes those of rank `level`. -/
def GoesOn (rank level : Nat) : Prop :=
  rank < level ∨ (rank = level ∧ level = 12)

instance (rank level : Nat) : Decidable (GoesOn rank level) :=
  inferInstanceAs (Decidable (_ ∨ _))

/-- The token is no operator that such a loop takes. -/
def Token.Stops (rank : Nat) (t : Token) : Prop :=
  ∀ op level, operator? .top t = some (op, level) → ¬GoesOn rank level

/-- A token behind operands. -/
def Token.endsOperands (t : Token) : Bool :=
  t.closes || isPunct .question t

/-- A token behind an operand. -/
def Token.endsOperand (t : Token) : Bool :=
  t.endsOperands || isPunct .arrow t || (operator? .top t).isSome

variable {t u : Token} {ctx : Context} {rank n : Nat} {after : List Token} {c : Phrase}

theorem Token.endsOperands_of_closes (h : t.closes = true) : t.endsOperands = true := by
  rw [endsOperands, h, Bool.true_or]

theorem Token.endsOperand_of_endsOperands (h : t.endsOperands = true) : t.endsOperand = true := by
  rw [endsOperand, h, Bool.true_or, Bool.true_or]

theorem Connective.endsOperand (c : Connective) : c.token.endsOperand = true := by
  rw [Token.endsOperand, c.reads, Option.isSome_some, Bool.or_true]

theorem Token.operator?_eq_none (h : t.endsOperands = true) : operator? .top t = none := by
  cases t with
  | punct p => cases p <;> first | rfl | exact absurd h (by decide)
  | eof => rfl
  | _ => exact absurd h (by simp [endsOperands, closes, isPunct])

theorem Token.stops_of_endsOperands (h : t.endsOperands = true) : t.Stops rank := by
  intro op level hop
  rw [operator?_eq_none h] at hop
  exact nomatch hop

theorem operator?_of_ordinary (h : ctx.Ordinary) (t : Token) :
    operator? ctx t = operator? .top t := by
  unfold operator?
  rw [h.noIn]
  rfl

theorem chainStep_takes_nothing {r : Rules} (start : Nat) (base : Term)
    (hu : u.endsOperand = true) :
    Takes (chainStep r ctx true start (base, false)) [] (u :: after) (· = .inr base) := by
  refine Takes.bind_token rfl ?_
  cases u with
  | punct p => cases p <;> first | exact Takes.pure rfl | exact absurd hu (by decide)
  | quasi cooked last =>
    simp [Token.endsOperand, Token.endsOperands, Token.closes, isPunct, operator?] at hu
  | _ => exact Takes.pure rfl

theorem incrementRest_takes (start : Nat) (left : Term) (hu : u.endsOperand = true) :
    Takes (incrementRest start left) [] (u :: after) (· = left) := by
  rw [incrementRest]
  refine Takes.bind_token rfl ?_
  cases u with
  | punct p => cases p <;> first | exact Takes.pure rfl | exact absurd hu (by decide)
  | _ => exact Takes.pure rfl

/-! ## Operators in front -/

/-- The phrase is read as an operand with the operators in front of it. -/
def Phrase.ReadsOperand (c : Phrase) : Prop :=
  ∀ n, c.tokens.length ≤ n → ∀ ctx, ctx.Ordinary → ∀ u after, u.endsOperand = true →
    Takes (unaryTerm (.ofDepth n) ctx) c.tokens (u :: after) (Term.Means · c)

theorem Phrase.ReadsChain.chainTerm_takes (h : c.ReadsChain) (hn : c.tokens.length ≤ n)
    (hctx : ctx.Ordinary) (hu : u.endsOperand = true) :
    Takes (chainTerm (.ofDepth n) ctx) c.tokens (u :: after) (Term.Means · c) := by
  rw [chainTerm]
  refine Takes.bind_start fun start => ?_
  rw [← List.append_nil c.tokens]
  refine h n hn ctx hctx start [] (u :: after) (by simp) _ fun t fuel ht hfuel => ?_
  exact Takes.iterate_nothing (chainStep_takes_nothing start t hu) ht (by omega)

/-- A token that begins a phrase is not `await`. -/
theorem Token.isKeyword_await (h : t.begins = true) : isKeyword "await" t = false := by
  cases t with
  | word name escaped =>
    rw [begins, Bool.and_eq_true] at h
    rw [isKeyword, Bool.and_eq_false_iff]
    left
    rw [beq_eq_false_iff_ne]
    rintro rfl
    exact absurd h.2 (by decide)
  | _ => rfl

theorem Phrase.ReadsChain.readsOperand (h : c.ReadsChain) (hc : c.wellFormed = true)
    (hrank : c.rank = 14) : c.ReadsOperand := by
  intro n hn ctx hctx u after hu
  obtain ⟨rest, htokens⟩ := c.tokens_eq_cons
  have hbegins := c.first_begins
  rw [unaryTerm]
  refine Takes.bind_start fun start => Takes.bind_token (by rw [htokens]; rfl) ?_
  rw [c.unaryOp?_first hc hrank]
  dsimp only
  split
  · rename_i heq
    rw [heq] at hbegins
    exact absurd hbegins (by decide)
  · rename_i heq
    rw [heq] at hbegins
    exact absurd hbegins (by decide)
  · rw [Token.isKeyword_await hbegins]
    refine Takes.bind_last (h.chainTerm_takes hn hctx hu) fun left hleft => ?_
    exact (incrementRest_takes start left hu).imp fun _ ha => ha ▸ hleft

theorem Phrase.ReadsOperand.unary (h : c.ReadsOperand) (sign : Sign) :
    (Phrase.unary sign c).ReadsOperand := by
  intro n hn ctx hctx u after hu
  rw [tokens, List.length_cons] at hn
  obtain ⟨n, rfl⟩ : ∃ k, n = k + 1 := ⟨n - 1, by omega⟩
  rw [unaryTerm]
  refine Takes.bind_start fun start => Takes.bind_token rfl ?_
  rw [sign.reads]
  refine Takes.bind_advance (by simp) ?_
  refine Takes.bind_last (h n (by omega) ctx hctx u after hu) fun t ht => ?_
  refine Takes.pure ⟨fun bound => ?_, fun _ => rfl, fun h => absurd h (by decide : 13 ≠ 14)⟩
  obtain ⟨refs, ht⟩ := ht.denotes bound
  exact ⟨refs, by rw [Expr.ofTerm, ht]; rfl⟩

/-! ## Operators between -/

/-- A step of the loop over operators and operands. -/
def binaryStep (r : Rules) (ctx : Context) (rank : Nat) (leftParen : Bool) (left : Term) :
    Reader (Term ⊕ Term) := do
  match operator? ctx (← token) with
  | none => return .inr left
  | some (op, level) =>
    if level < rank || (level == rank && level != 12) then return .inr left
    else
      advance
      let rightParen ← at? .leftParen
      let right ← r.binary ctx level
      match operatorTerm op leftParen rightParen left right with
      | some t => return .inl t
      | none => fail

theorem binaryRest_eq (r : Rules) (ctx : Context) (rank : Nat) (leftParen : Bool) (left : Term) :
    binaryRest r ctx rank leftParen left = repeatFrom left (binaryStep r ctx rank leftParen) :=
  rfl

theorem stops_iff_not_goesOn {rank level : Nat} :
    (decide (level < rank) || (level == rank && level != 12)) = true ↔ ¬GoesOn rank level := by
  simp only [GoesOn, Bool.or_eq_true, decide_eq_true_eq, Bool.and_eq_true, beq_iff_eq, bne_iff_ne]
  omega

theorem binaryStep_takes_nothing {r : Rules} (hctx : ctx.Ordinary) (leftParen : Bool) (left : Term)
    (hu : u.Stops rank) :
    Takes (binaryStep r ctx rank leftParen left) [] (u :: after) (· = .inr left) := by
  rw [binaryStep]
  refine Takes.bind_token rfl ?_
  rw [operator?_of_ordinary hctx]
  cases hop : operator? .top u with
  | none => exact Takes.pure rfl
  | some found =>
    obtain ⟨op, level⟩ := found
    dsimp only
    rw [if_pos (stops_iff_not_goesOn.mpr (hu op level hop))]
    exact Takes.pure rfl

/-- The phrase is read as operands with operators between them, by a loop that goes on to its rank:
whatever the operators behind it are taken by goes on with what the phrase means. -/
def Phrase.ReadsOperands (c : Phrase) : Prop :=
  ∀ n, c.tokens.length ≤ n → ∀ ctx, ctx.Ordinary → ∀ rank leftParen, GoesOn rank c.rank →
    ∀ us after u later, us ++ after = u :: later → u.endsOperand = true → u.Stops c.rank →
    ∀ post : Term → Prop,
    (∀ t fuel, t.Means c → (us ++ after).length < fuel →
      Takes (iterate (binaryStep (.ofDepth n) ctx rank leftParen) fuel t) us after post) →
    Takes (unaryTerm (.ofDepth n) ctx >>= binaryRest (.ofDepth n) ctx rank leftParen)
      (c.tokens ++ us) after post

theorem Phrase.ReadsOperand.readsOperands (h : c.ReadsOperand) : c.ReadsOperands := by
  intro n hn ctx hctx rank leftParen hrank us after u later hus hu _ post hrest
  have hc := h n hn ctx hctx u later hu
  rw [← hus] at hc
  refine Takes.bind hc fun t ht => ?_
  rw [binaryRest_eq]
  exact Takes.repeatFrom fun fuel hfuel => hrest t fuel ht hfuel

/-- Operands with operators above `rank` between them. -/
theorem Phrase.ReadsOperands.binaryTerm_takes (h : c.ReadsOperands) (hn : c.tokens.length ≤ n)
    (hctx : ctx.Ordinary) (hrank : GoesOn rank c.rank) (hends : u.endsOperand = true)
    (hstops : u.Stops rank) (hstops' : u.Stops c.rank) :
    Takes (binaryTerm (.ofDepth n) ctx rank) c.tokens (u :: after) (Term.Means · c) := by
  obtain ⟨rest, htokens⟩ := c.tokens_eq_cons
  have hbegins := c.first_begins
  rw [binaryTerm]
  refine Takes.bind_at (by rw [htokens]; rfl) (Takes.bind_token (by rw [htokens]; rfl) ?_)
  split
  · rename_i heq
    rw [heq] at hbegins
    exact absurd hbegins (by simp [Token.begins])
  · have htakes : Takes
        (unaryTerm (.ofDepth n) ctx >>=
          binaryRest (.ofDepth n) ctx rank (isPunct .leftParen c.first))
        (c.tokens ++ []) (u :: after) (Term.Means · c) := by
      refine h n hn ctx hctx rank _ hrank [] (u :: after) u after rfl hends hstops' _ ?_
      intro t fuel ht hfuel
      exact Takes.iterate_nothing (binaryStep_takes_nothing hctx _ t hstops) ht (by omega)
    rwa [List.append_nil] at htakes

/-- The two ways in which operands need no parentheses. -/
theorem Connective.joins_cases {o : Connective} {left right : Phrase}
    (h : o.joins left right = true) :
    (o.rank = 12 ∧ left.rank = 14 ∧ 12 ≤ right.rank) ∨
      (o.rank ≠ 12 ∧ o.rank ≤ left.rank ∧ o.rank < right.rank ∧
        (o.rank = 1 → left.isAndOr = false ∧ right.isAndOr = false)) := by
  unfold joins at h
  split at h
  · left
    rw [Bool.and_eq_true, beq_iff_eq, decide_eq_true_eq] at h
    exact ⟨‹_›, h.1, h.2⟩
  · right
    simp only [Bool.and_eq_true, decide_eq_true_eq, Bool.or_eq_true, bne_iff_ne,
      Bool.not_eq_true'] at h
    refine ⟨‹_›, h.1.1, h.1.2, fun hone => ?_⟩
    exact h.2.resolve_left fun hne => hne hone

theorem Term.Denotes.binary {left right : Term} {e f : Expr} {op : BinaryOp} (hl : left.Denotes e)
    (hr : right.Denotes f) : (Term.binary op left right).Denotes (.binary op e f) := by
  intro bound
  obtain ⟨refs, hl⟩ := hl bound
  obtain ⟨refs', hr⟩ := hr bound
  exact ⟨refs ++ refs', by rw [Expr.ofTerm, hl, hr]; rfl⟩

theorem Term.Denotes.logical {left right : Term} {e f : Expr} {op : LogicalOp} (hl : left.Denotes e)
    (hr : right.Denotes f) : (Term.logical op left right).Denotes (.logical op e f) := by
  intro bound
  obtain ⟨refs, hl⟩ := hl bound
  obtain ⟨refs', hr⟩ := hr bound
  exact ⟨refs ++ refs', by rw [Expr.ofTerm, hl, hr]; rfl⟩

/-- Operands that need no parentheses make a term with the operator. -/
theorem operatorTerm_of_joins {o : Connective} {l r : Phrase} (h : o.joins l r = true)
    {left right : Term} (hl : left.Means l) (hr : right.Means r) (leftParen rightParen : Bool) :
    ∃ t, operatorTerm o.op leftParen rightParen left right = some t ∧ t.Means (.binary o l r) := by
  have hjoins := Connective.joins_cases h
  obtain ⟨token, op, rank, hreads⟩ := o
  cases op with
  | binary op =>
    refine ⟨.binary op left right, ?_, hl.denotes.binary hr.denotes, fun _ => rfl, fun _ => rfl⟩
    cases op with
    | pow =>
      have hpow := (operator?_rank hreads).2.2.1.mp rfl
      have hunary : left.isUnary = false := hl.isUnary (by simp only at hjoins; omega)
      rw [operatorTerm, hunary]
      rfl
    | _ => rfl
  | logical op =>
    refine ⟨.logical op left right, ?_, hl.denotes.logical hr.denotes, ?_, fun _ => rfl⟩
    · cases op with
      | coalesce =>
        have hone := (operator?_rank hreads).2.2.2.mp rfl
        have hmix : l.isAndOr = false ∧ r.isAndOr = false := by
          simp only at hjoins
          rcases hjoins with hjoins | hjoins
          · omega
          · exact hjoins.2.2.2 hone
        have hleft := hl.isAndOr hmix.1
        have hright := hr.isAndOr hmix.2
        cases right <;> simp [operatorTerm, hleft, hright]
      | _ => rfl
    · intro hop
      cases op with
      | coalesce => rfl
      | _ => exact nomatch hop

theorem binaryStep_takes {o : Connective} {l r : Phrase} (hr : r.ReadsOperands)
    (hjoins : o.joins l r = true) (hn : r.tokens.length ≤ n) (hctx : ctx.Ordinary)
    (hrank : GoesOn rank o.rank) (hends : u.endsOperand = true) (hstops : u.Stops o.rank)
    (leftParen : Bool) {left : Term} (hleft : left.Means l) :
    Takes (binaryStep (.ofDepth (n + 1)) ctx rank leftParen left) (o.token :: r.tokens) (u :: after)
      fun s => ∃ t, s = .inl t ∧ t.Means (.binary o l r) := by
  obtain ⟨rest, htokens⟩ := r.tokens_eq_cons
  have hcases := Connective.joins_cases hjoins
  rw [binaryStep]
  refine Takes.bind_token rfl ?_
  rw [operator?_of_ordinary hctx, o.reads]
  dsimp only
  rw [if_neg (fun hstop => stops_iff_not_goesOn.mp hstop hrank)]
  refine Takes.bind_advance (by simp) (Takes.bind_at (by rw [htokens]; rfl) ?_)
  have hright : Takes ((Rules.ofDepth (n + 1)).binary ctx o.rank) r.tokens (u :: after)
      (Term.Means · r) := by
    refine hr.binaryTerm_takes hn hctx ?_ hends hstops ?_
    · unfold GoesOn
      omega
    · intro op level hop hgoes
      refine hstops op level hop ?_
      unfold GoesOn at hgoes ⊢
      omega
  refine Takes.bind_last hright fun right hright => ?_
  obtain ⟨t, hterm, ht⟩ :=
    operatorTerm_of_joins hjoins hleft hright leftParen (isPunct .leftParen r.first)
  rw [hterm]
  exact Takes.pure ⟨t, rfl, ht⟩

theorem Phrase.ReadsOperands.binary {o : Connective} {l r : Phrase} (hl : l.ReadsOperands)
    (hr : r.ReadsOperands) (hjoins : o.joins l r = true) : (Phrase.binary o l r).ReadsOperands := by
  intro n hn ctx hctx rank leftParen hrank us after u later hus hends hstops post hrest
  have hcases := Connective.joins_cases hjoins
  have hpos := List.length_pos_of_ne_nil (l := l.tokens) (by
    obtain ⟨rest, h⟩ := l.tokens_eq_cons
    simp [h])
  rw [tokens, List.length_append, List.length_cons] at hn
  obtain ⟨n, rfl⟩ : ∃ k, n = k + 1 := ⟨n - 1, by omega⟩
  rw [tokens, List.append_assoc, List.cons_append]
  -- The loop that reads `l` also takes the operator behind it, and goes on with both as its left
  -- operand.
  refine hl (n + 1) (by omega) ctx hctx rank leftParen ?_ (o.token :: (r.tokens ++ us)) after
    o.token (r.tokens ++ us ++ after) rfl o.endsOperand ?_ post fun left fuel hleft hfuel => ?_
  · rw [Phrase.rank] at hrank
    unfold GoesOn at hrank ⊢
    omega
  · intro op level hop hgoes
    rw [o.reads] at hop
    cases hop
    unfold GoesOn at hgoes
    omega
  · rw [List.cons_append, List.length_cons, List.append_assoc, List.length_append] at hfuel
    obtain ⟨fuel, rfl⟩ : ∃ k, fuel = k + 1 := ⟨fuel - 1, by omega⟩
    rw [← List.cons_append]
    refine Takes.iterate_more (m := fun t => t.Means (.binary o l r)) ?_ fun t ht => ?_
    · rw [hus]
      exact binaryStep_takes hr hjoins (by omega) hctx hrank hends hstops leftParen hleft
    · exact hrest t fuel ht (by omega)

end UiTemplate.Script
