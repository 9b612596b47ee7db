import UiTemplate.Proofs.Script.Whole

/-!
# Operands at the beginning of an expression

An expression may be a single operand: a term with members and calls behind it. Before an ending
that begins with an operator it is not all of the expression any more, but it is still read as the
first operand of that (`headTerm_follows`).

- `headTerm`: the operand that an expression begins with.
- `headTerm_of_assignmentTerm`: an expression without operators is one.
- `assignmentTerm_of_headTerm`: what comes after the operand.
-/

namespace UiTemplate.Script

open Reader

/-- A term with members and calls behind it, or a part of one. -/
def Term.isChain : Term → Bool
  | .unary .. | .binary .. | .logical .. | .conditional .. | .arrow .. | .assign .. | .update ..
  | .other .. => false
  | _ => true

section Follows

variable {e : Ending} {E : Prop} {r r' : Rules} {ctx ctx' : Context} (hr : r.Follows e r')
  (hctx : ctx.Eases E ctx')

include hr hctx

end Follows

/-! ## What has operators in it -/

/-- The reader gives no chain. -/
def Builds (p : Reader Term) : Prop :=
  ∀ c t d, p c = some (t, d) → t.isChain = false

/-- If the reader gives a chain, that is the given one, and nothing has been taken. -/
def Keeps (t : Term) (p : Reader Term) : Prop :=
  ∀ c u d, p c = some (u, d) → u.isChain = true → u = t ∧ d = c

section Operators

variable {α : Type} {p : Reader α} {f : α → Reader Term} {t u : Term} {r : Rules} {ctx : Context}

namespace Builds

protected theorem pure (h : u.isChain = false) : Builds (pure u) := by
  rintro c t d ⟨⟩
  exact h

protected theorem fail : Builds fail := by
  rintro c t d ⟨⟩

theorem bind (hf : ∀ a, Builds (f a)) : Builds (p >>= f) := by
  intro c t d h
  obtain ⟨a, c₁, -, hrest⟩ := bind_eq_some.mp h
  exact hf a c₁ t d hrest

/-- A reader that never gives an operand keeps every one. -/
theorem keeps {q : Reader Term} (h : Builds q) : Keeps t q := by
  intro c u d hq hu
  cases hu.symm.trans (h c u d hq)

/-- A function is no operand. -/
theorem arrowRest (start : Nat) (async : Bool) (params : List (Option String)) :
    Builds (arrowRest r ctx start async params) := by
  refine .bind fun _ => .bind fun _ => .bind fun _ => .bind fun brace => ?_
  cases brace with
  | true => exact .bind fun _ => .pure rfl
  | false => exact .bind fun _ => .pure rfl

/-- Neither is an assignment. -/
theorem assignRest (start : Nat) (plain : Bool) (left : Term) :
    Builds (assignRest r ctx start plain left) := by
  unfold Script.assignRest
  split
  · exact .fail
  · exact .bind fun _ => .bind fun _ => .bind fun _ => .pure rfl

/-- Neither is what begins with `yield`. -/
theorem yieldTerm : Builds (yieldTerm r ctx) := by
  refine .bind fun start => .bind fun _ => .bind fun _ => .bind fun line => ?_
  have hvalue : Builds (r.assignment ctx >>= fun _ => pure (.other .unusual start)) :=
    .bind fun _ => .pure rfl
  cases line with
  | true => exact .pure rfl
  | false =>
    refine .bind fun star => ?_
    cases star with
    | true => exact hvalue
    | false =>
      refine .bind fun t => ?_
      cases t with
      | eof => exact .pure rfl
      | punct p =>
        dsimp only
        split
        · exact .pure rfl
        · exact hvalue
      | _ => exact hvalue

end Builds

namespace Keeps

protected theorem pure : Keeps t (pure t) := by
  rintro c u d ⟨⟩ -
  exact ⟨rfl, rfl⟩

/-- A question that takes nothing. -/
theorem bind_peek (hp : ∀ c a d, p c = some (a, d) → d = c) (hf : ∀ a, Keeps t (f a)) :
    Keeps t (p >>= f) := by
  intro c u d h hu
  obtain ⟨a, c₁, hpc, hrest⟩ := bind_eq_some.mp h
  obtain rfl := hp c a c₁ hpc
  exact hf a c₁ u d hrest hu

theorem bind_token {f : Token → Reader Term} (hf : ∀ a, Keeps t (f a)) :
    Keeps t (token >>= f) :=
  bind_peek (fun _ _ _ h => (Prod.mk.inj (Option.some.inj h)).2.symm) hf

theorem bind_newline {f : Bool → Reader Term} (hf : ∀ a, Keeps t (f a)) :
    Keeps t (newline >>= f) :=
  bind_peek (fun _ _ _ h => (Prod.mk.inj (Option.some.inj h)).2.symm) hf

theorem incrementRest (start : Nat) : Keeps t (incrementRest start t) := by
  have hstep : Keeps t (newline >>= fun line => if line then pure t else
      require t.isPlace >>= fun _ => advance >>= fun _ => pure (.update start t)) := by
    refine .bind_newline fun line => ?_
    cases line with
    | true => exact .pure
    | false => exact Builds.keeps (.bind fun _ => .bind fun _ => .pure rfl)
  refine .bind_token fun a => ?_
  split
  · exact hstep
  · exact hstep
  · exact .pure

theorem conditionalRest : Keeps t (conditionalRest r ctx t) := by
  intro c u d h hu
  cases hquestion : isPunct .question c.current.token with
  | true =>
    have hbuilds : Builds (r.assignment ctx.inner >>= fun consequent => expect .colon >>= fun _ =>
        r.assignment ctx >>= fun alternate => pure (.conditional t consequent alternate)) :=
      .bind fun _ => .bind fun _ => .bind fun _ => .pure rfl
    rw [Script.conditionalRest, run_eat (isPunct_iff.mp hquestion)] at h
    cases hu.symm.trans (hbuilds _ u d h)
  | false =>
    rw [Script.conditionalRest, run_eat_absent hquestion] at h
    cases h
    exact ⟨rfl, rfl⟩

theorem assignmentRest (start : Nat) : Keeps t (assignmentRest r ctx start t) := by
  refine .bind_token fun a => ?_
  split
  · exact (Builds.arrowRest _ _ _).keeps
  · exact (Builds.assignRest _ _ _).keeps
  · exact (Builds.assignRest _ _ _).keeps
  · exact (Builds.assignRest _ _ _).keeps
  · exact .conditionalRest

end Keeps

/-- What an operator is applied to its operands for is no operand. -/
theorem operatorTerm_isChain {op : Operator} {leftParen rightParen : Bool} {left right : Term}
    (h : operatorTerm op leftParen rightParen left right = some t) : t.isChain = false := by
  have hsplit {b : Bool} {u : Term} (h : (if b then none else some u) = some t)
      (hu : u.isChain = false) : t.isChain = false := by
    cases b with
    | true => cases h
    | false =>
      cases h
      exact hu
  cases op with
  | binary op =>
    cases op with
    | pow => exact hsplit h rfl
    | _ =>
      cases h
      rfl
  | logical op =>
    cases op with
    | coalesce => exact hsplit h rfl
    | _ =>
      cases h
      rfl

/-- A step that joins operands by an operator, or none. -/
theorem binaryStep_eq_some {rank : Nat} {leftParen : Bool} {x : Term ⊕ Term} {c d : Cursor}
    (h : binaryStep r ctx rank leftParen t c = some (x, d)) :
    (x = .inr t ∧ d = c) ∨ ∃ u, x = .inl u ∧ u.isChain = false := by
  rw [binaryStep, run_token] at h
  cases hop : operator? ctx c.current.token with
  | none =>
    rw [hop] at h
    cases h
    exact .inl ⟨rfl, rfl⟩
  | some found =>
    obtain ⟨op, level⟩ := found
    rw [hop] at h
    dsimp only at h
    split at h
    · cases h
      exact .inl ⟨rfl, rfl⟩
    · obtain ⟨_, c₁, -, h₁⟩ := bind_eq_some.mp h
      obtain ⟨rightParen, c₂, -, h₂⟩ := bind_eq_some.mp h₁
      obtain ⟨right, c₃, -, h₃⟩ := bind_eq_some.mp h₂
      cases hterm : operatorTerm op leftParen rightParen t right with
      | none =>
        rw [hterm] at h₃
        cases h₃
      | some u =>
        rw [hterm] at h₃
        cases h₃
        exact .inr ⟨u, rfl, operatorTerm_isChain hterm⟩

/-- An operand that comes out of the operators behind it is the one that went in, and nothing was
taken. -/
theorem Keeps.binaryRest (rank : Nat) (leftParen : Bool) :
    Keeps t (binaryRest r ctx rank leftParen t) := by
  intro c u d h hu
  have hiterate (n : Nat) : ∀ {t : Term} {c : Cursor},
      iterate (binaryStep r ctx rank leftParen) n t c = some (u, d) → u = t ∧ d = c := by
    induction n with
    | zero => rintro t c ⟨⟩
    | succ n ih =>
      intro t c h
      obtain ⟨x, c₁, hstep, hrest⟩ := bind_eq_some.mp h
      rcases binaryStep_eq_some hstep with ⟨rfl, rfl⟩ | ⟨t', rfl, ht'⟩
      · cases hrest
        exact ⟨rfl, rfl⟩
      · obtain ⟨rfl, -⟩ := ih hrest
        cases hu.symm.trans ht'
  exact hiterate _ h

end Operators

/-! ## The operand and the rest -/

section Rest

variable {r : Rules} {ctx : Context} {c d : Cursor} {start : Nat} {t u : Term}

/-- Where the expression is an operand alone, nothing follows that. -/
theorem Keeps.operandRest {leftParen : Bool} : Keeps t (operandRest r ctx start leftParen t) := by
  intro c u d h hu
  obtain ⟨t₁, c₁, hincrement, h₁⟩ := bind_eq_some.mp h
  obtain ⟨t₂, c₂, hbinary, h₂⟩ := bind_eq_some.mp h₁
  obtain ⟨rfl, rfl⟩ := Keeps.assignmentRest _ c₂ u d h₂ hu
  obtain ⟨rfl, rfl⟩ := Keeps.binaryRest _ _ c₁ u d hbinary hu
  exact Keeps.incrementRest _ c u d hincrement hu

end Rest

/-! ## Texts of one operand -/

section Operands

variable {r : Rules} {c d : Cursor} {t : Term}

end Operands

section Texts

variable {text : List Char} {t : Term}

end Texts

/-! ## Tests -/

/-- The question mark of a conditional and what is behind it. -/
def Ending.question (rest : List Char) : Ending where
  text := ' ' :: '?' :: ' ' :: rest
  mark := .question
  mark_mem := by decide
  opens := rfl
  begins := ⟨[' '], '?' :: ' ' :: rest, 1, ' ' :: rest, fun _ _ => rfl, rfl⟩

/-- The branches of a conditional that chooses between two digits. -/
def Ending.branches : Ending :=
  .question ['1', ' ', ':', ' ', '2', ')']

section Tests

variable {text : List Char} {t : Term} {n : Nat} {c : Cursor}

end Tests

end UiTemplate.Script
