import UiTemplate.Proofs.Script.Operators

/-!
# Runs of readers

What readers do from a given place on, where the tokens there and the runs of their parts are known:
items in parentheses, members and calls behind a term, and what begins with a parenthesis or a name.

- `assignmentTerm_of_paren`, `assignmentTerm_of_arrow`, `assignmentTerm_of_call`,
  `assignmentTerm_of_object`: expressions around another one.
-/

namespace UiTemplate.Script

open Reader

/-! ## Steps -/

theorem isPunct_iff {p : Punct} {t : Token} : isPunct p t = true ↔ t = .punct p := by
  cases t with
  | punct q =>
    rw [isPunct, beq_iff_eq]
    exact ⟨fun h => h ▸ rfl, fun h => (Token.punct.inj h).symm⟩
  | _ => exact ⟨fun h => absurd h Bool.false_ne_true, by rintro ⟨⟩⟩

section Steps

variable {α β : Type} {p : Reader α} {f : α → Reader β} {c d : Cursor} {a : α} {b : β}

/-- Where a sequence of readers succeeds, both of them do. -/
theorem bind_eq_some :
    (p >>= f) c = some (b, d) ↔ ∃ a c', p c = some (a, c') ∧ f a c' = some (b, d) := by
  show (p c).bind (fun x => f x.1 x.2) = _ ↔ _
  rw [Option.bind_eq_some_iff]
  exact Prod.exists

theorem bind_of_eq_some (h : p c = some (a, d)) : (p >>= f) c = f a d := by
  show (p c).bind (fun x => f x.1 x.2) = _
  rw [h]
  rfl

theorem bind_of_eq_none (h : p c = none) : (p >>= f) c = none := by
  show (p c).bind (fun x => f x.1 x.2) = _
  rw [h]
  rfl

/-- Readers that give the same go on in the same way. -/
theorem bind_eq_bind {q : Reader α} (h : p c = q d) (f : α → Reader β) :
    (p >>= f) c = (q >>= f) d := by
  show (p c).bind (fun x => f x.1 x.2) = (q d).bind (fun x => f x.1 x.2)
  rw [h]

/-- A demand that is met changes nothing. -/
theorem require_eq_some {b : Bool} {c d : Cursor} {x : Unit} (h : require b c = some (x, d)) :
    b = true ∧ d = c := by
  cases b with
  | false => cases h
  | true => exact ⟨rfl, (Prod.mk.inj (Option.some.inj h)).2.symm⟩

theorem attempt?_of_eq_some (h : p c = some (a, d)) : attempt? p c = some (some a, d) := by
  rw [attempt?, h]

theorem attempt?_of_eq_none (h : p c = none) : attempt? p c = some (none, c) := by
  rw [attempt?, h]

/-- A punctuator that is not there is not taken. -/
theorem eat_eq_false {p : Punct} {c : Cursor} (h : isPunct p c.current.token = false) :
    eat p c = some (false, c) := by
  show (if isPunct p c.current.token then _ else pure false : Reader Bool) c = _
  rw [h]
  rfl

theorem run_start (f : Nat → Reader β) (c : Cursor) : (start >>= f) c = f c.current.start c :=
  rfl

theorem run_token (f : Token → Reader β) (c : Cursor) : (token >>= f) c = f c.current.token c :=
  rfl

theorem run_at (p : Punct) (f : Bool → Reader β) (c : Cursor) :
    (at? p >>= f) c = f (isPunct p c.current.token) c :=
  rfl

theorem eat_eq_true {p : Punct} (h : c.current.token = .punct p) :
    eat p c = some (true, c.advanced) := by
  show (if isPunct p c.current.token then _ else pure false : Reader Bool) c = _
  rw [h, show isPunct p (.punct p) = true from beq_self_eq_true p]
  rfl

/-- A punctuator that is asked for and stands there. -/
theorem run_expect {p : Punct} (h : c.current.token = .punct p) (f : Unit → Reader β) :
    (expect p >>= f) c = f () c.advanced := by
  have hexpect : expect p c = some ((), c.advanced) := bind_of_eq_some (eat_eq_true h)
  exact bind_of_eq_some hexpect

theorem run_eat {p : Punct} (h : c.current.token = .punct p) (f : Bool → Reader β) :
    (eat p >>= f) c = f true c.advanced :=
  bind_of_eq_some (eat_eq_true h)

theorem run_eat_absent {p : Punct} (h : isPunct p c.current.token = false) (f : Bool → Reader β) :
    (eat p >>= f) c = f false c :=
  bind_of_eq_some (eat_eq_false h)

/-- A loop that ends at once. -/
theorem iterate_done {step : α → Reader (α ⊕ β)} {a : α} {b : β} (h : step a c = some (.inr b, d))
    (n : Nat) : iterate step (n + 1) a c = some (b, d) := by
  rw [iterate, bind_of_eq_some h]
  rfl

/-- A loop that goes on for a step. -/
theorem iterate_more {step : α → Reader (α ⊕ β)} {a a' : α} (h : step a c = some (.inl a', d))
    (n : Nat) : iterate step (n + 1) a c = iterate step n a' d := by
  rw [iterate, bind_of_eq_some h]

theorem repeatFrom_done {step : α → Reader (α ⊕ β)} {a : α} {b : β}
    (h : step a c = some (.inr b, d)) : repeatFrom a step c = some (b, d) :=
  iterate_done h _

end Steps

variable {α : Type} {r : Rules} {ctx : Context} {c d : Cursor} {t u : Term}

/-! ## Items -/

/-- One item stands before the closing punctuator. -/
theorem delimited_one {item : Reader α} {close : Punct} {a : α} (hclose : close ≠ .comma)
    (hopen : isPunct close c.current.token = false) (hitem : item c = some (a, d))
    (hd : d.current.token = .punct close) :
    delimited close item c = some (([a], false), d.advanced) := by
  have hcomma : isPunct .comma d.current.token = false := by
    rw [hd]
    exact beq_eq_false_iff_ne.mpr hclose.symm
  rw [delimited_eq]
  refine repeatFrom_done ?_
  rw [delimitedStep, run_eat_absent hopen, if_neg Bool.false_ne_true, bind_of_eq_some hitem,
    run_eat_absent hcomma, if_neg Bool.false_ne_true, run_expect hd]
  rfl

/-- One expression in parentheses. -/
theorem enclosed_one (h : c.current.token = .punct .leftParen)
    (hparen : isPunct .rightParen c.advanced.current.token = false)
    (hspread : isPunct .ellipsis c.advanced.current.token = false)
    (ht : r.assignment ctx.inner c.advanced = some (t, d))
    (hd : d.current.token = .punct .rightParen) :
    enclosed r ctx c = some (([.item t], false), d.advanced) := by
  have hitem : argument r ctx c.advanced = some (.item t, d) := by
    rw [argument, run_eat_absent hspread, if_neg Bool.false_ne_true, bind_of_eq_some ht]
    rfl
  rw [enclosed, run_expect h]
  exact delimited_one (by decide) hparen hitem hd

/-! ## Behind a term -/

/-- Neither a member nor a call begins with a token that ends an operand. -/
theorem chainStep_done {start : Nat} (h : c.current.token.endsOperand = true) (t : Term) :
    chainStep r ctx true start (t, false) c = some (.inr t, c) := by
  rw [chainStep, run_token]
  revert h
  cases c.current.token with
  | punct p => cases p <;> first | exact fun _ => rfl | exact fun h => absurd h (by decide)
  | quasi cooked last =>
    intro h
    simp [Token.endsOperand, Token.endsOperands, Token.closes, isPunct, operator?] at h
  | _ => exact fun _ => rfl

theorem chainRest_done {start : Nat} (h : c.current.token.endsOperand = true) (t : Term) :
    chainRest r ctx true start t c = some (t, c) :=
  repeatFrom_done (chainStep_done h t)

/-- Nor does the operand have a sign behind it. -/
theorem incrementRest_done {start : Nat} (h : c.current.token.endsOperand = true) (t : Term) :
    incrementRest start t c = some (t, c) := by
  rw [incrementRest, run_token]
  revert h
  cases c.current.token with
  | punct p => cases p <;> first | exact fun _ => rfl | exact fun h => absurd h (by decide)
  | _ => exact fun _ => rfl

theorem binaryRest_done {rank : Nat} {leftParen : Bool} (h : operator? ctx c.current.token = none)
    (t : Term) : binaryRest r ctx rank leftParen t c = some (t, c) := by
  refine repeatFrom_done ?_
  rw [run_token, h]
  rfl

/-- A token that ends operands is no operator. -/
theorem operator?_of_endsOperands {t : Token} (h : t.endsOperands = true) :
    operator? ctx t = none := by
  cases t with
  | punct p => cases p <;> first | rfl | exact absurd h (by decide)
  | eof => rfl
  | _ => exact absurd h (by simp [Token.endsOperands, Token.closes, isPunct])

/-- Behind operands there is neither an arrow nor an assignment. -/
theorem assignmentRest_eq {start : Nat} (h : c.current.token.endsOperands = true) (t : Term) :
    assignmentRest r ctx start t c = conditionalRest r ctx t c := by
  rw [assignmentRest, run_token]
  revert h
  cases c.current.token with
  | punct p => cases p <;> first | exact fun _ => rfl | exact fun h => absurd h (by decide)
  | _ => exact fun _ => rfl

/-- What closes an expression does not begin the branches of a conditional. -/
theorem conditionalRest_done (h : c.current.token.closes = true) (t : Term) :
    conditionalRest r ctx t c = some (t, c) := by
  have hquestion : isPunct .question c.current.token = false := by
    revert h
    cases c.current.token with
    | punct p => cases p <;> first | exact fun _ => rfl | exact fun h => absurd h (by decide)
    | _ => exact fun _ => rfl
  rw [conditionalRest, run_eat_absent hquestion]
  rfl

/-- What can follow the operand. -/
def operandRest (r : Rules) (ctx : Context) (start : Nat) (leftParen : Bool) (t : Term) :
    Reader Term := do
  let operand ← incrementRest start t
  assignmentRest r ctx start (← binaryRest r ctx 0 leftParen operand)

/-- No operator comes after the operand. -/
theorem operandRest_eq {start : Nat} {leftParen : Bool}
    (h : c.current.token.endsOperands = true) (t : Term) :
    operandRest r ctx start leftParen t c = conditionalRest r ctx t c := by
  rw [operandRest, bind_of_eq_some (incrementRest_done (Token.endsOperand_of_endsOperands h) t),
    bind_of_eq_some (binaryRest_done (operator?_of_endsOperands h) t), assignmentRest_eq h]

/-- A term with the members and calls behind it is all of the operands. -/
theorem afterTerm_eq {start : Nat} {leftParen : Bool}
    (h : chainRest r ctx true start t c = some (u, d)) (hd : d.current.token.endsOperands = true) :
    afterTerm r ctx start leftParen t c = conditionalRest r ctx u d :=
  (bind_of_eq_some h).trans (operandRest_eq hd u)

/-- The branches of a conditional. -/
def branchesRest (r : Rules) (ctx : Context) (test : Term) : Reader Term := do
  let consequent ← r.assignment ctx.inner
  expect .colon
  let alternate ← r.assignment ctx
  return .conditional test consequent alternate

/-- What is read behind items in parentheses, which begin an expression at the byte `start`;
`before` counts what was pending in front of them. -/
def behindItems (r : Rules) (ctx : Context) (start before : Nat) (items : List Element × Bool) :
    Reader Term := do
  if ← at? .arrow then arrowRest r ctx start false (← headNames before items.1 items.2)
  else match group? items.1 items.2 with
    | some t => afterTerm r ctx start true t
    | none => fail

theorem parenTerm_eq (c : Cursor) :
    parenTerm r ctx c =
      (enclosed r ctx >>= behindItems r ctx c.current.start c.pending) c :=
  rfl

/-- One expression in parentheses, before the branches of a conditional or the end. -/
theorem assignmentTerm_of_paren (h : c.current.token = .punct .leftParen)
    (henclosed : enclosed r ctx c = some (([.item t], false), d))
    (hd : d.current.token.endsOperands = true) :
    assignmentTerm r ctx c = conditionalRest r ctx (.paren t) d := by
  have harrow : isPunct .arrow d.current.token = false := by
    revert hd
    cases d.current.token with
    | punct p => cases p <;> first | exact fun _ => rfl | exact fun h => absurd h (by decide)
    | _ => exact fun _ => rfl
  have hend := Token.endsOperand_of_endsOperands hd
  rw [assignmentTerm, run_token, h]
  show parenTerm r ctx c = _
  rw [parenTerm_eq, bind_of_eq_some henclosed, behindItems, run_at, harrow]
  exact afterTerm_eq (chainRest_done hend _) hd

/-- One expression in parentheses as an operand. -/
theorem chainTerm_of_paren (h : c.current.token = .punct .leftParen)
    (henclosed : enclosed r ctx c = some (([.item t], false), d))
    (hd : d.current.token.endsOperand = true) : chainTerm r ctx c = some (.paren t, d) := by
  have hprimary : primary r ctx c = some (.paren t, d) := by
    rw [primary, run_start, run_token, h]
    exact bind_of_eq_some henclosed
  rw [chainTerm, run_start, bind_of_eq_some hprimary]
  exact chainRest_done hd _

/-- A token that begins an operand without an operator in front of it. -/
def Token.beginsChain (t : Token) : Bool :=
  (unaryOp? t).isNone && !isPunct .increment t && !isPunct .decrement t && !isKeyword "await" t

/-- Without a sign in front, the operand itself is read. -/
theorem unaryTerm_eq (h : c.current.token.beginsChain = true) :
    unaryTerm r ctx c = (chainTerm r ctx >>= incrementRest c.current.start) c := by
  rw [unaryTerm, run_start, run_token]
  generalize c.current.token = t at h
  simp only [Token.beginsChain, Bool.and_eq_true, Bool.not_eq_true', Option.isNone_iff_eq_none]
    at h
  obtain ⟨⟨⟨hop, hincrement⟩, hdecrement⟩, hawait⟩ := h
  rw [hop]
  dsimp only
  split
  · exact absurd hincrement (by decide)
  · exact absurd hdecrement (by decide)
  · rw [hawait]
    rfl

/-- Operands that begin with a term are what follows that term. -/
theorem operatorsTerm_eq (h : c.current.token.beginsChain = true)
    (ht : primary r ctx c = some (t, d)) :
    operatorsTerm r ctx c =
      afterTerm r ctx c.current.start (isPunct .leftParen c.current.token) t d := by
  have hchain : chainTerm r ctx c = chainRest r ctx true c.current.start t d := by
    rw [chainTerm, run_start]
    exact bind_of_eq_some ht
  have hunary : unaryTerm r ctx c =
      (chainRest r ctx true c.current.start t >>= incrementRest c.current.start) d := by
    rw [unaryTerm_eq h]
    exact bind_eq_bind hchain _
  have hbinary : binaryTerm r ctx 0 c =
      (chainRest r ctx true c.current.start t >>= incrementRest c.current.start >>=
        binaryRest r ctx 0 (isPunct .leftParen c.current.token)) d := by
    rw [binaryTerm, run_at, run_token]
    refine Eq.trans ?_ (bind_eq_bind hunary _)
    rw [primary, run_start, run_token] at ht
    revert ht
    cases c.current.token with
    | privateName name => rintro ⟨⟩
    | _ => exact fun _ => rfl
  rw [operatorsTerm, run_start, afterTerm, ← bind_assoc, ← bind_assoc]
  exact bind_eq_bind hbinary _

/-- What can stand neither at the beginning of an expression nor before one. -/
theorem assignmentTerm_eq_none {p : Punct} (hp : p = .rightParen ∨ p = .ellipsis)
    (h : c.current.token = .punct p) : assignmentTerm r ctx c = none := by
  have hprimary : primary r ctx c = none := by
    rw [primary, run_start, run_token, h]
    rcases hp with rfl | rfl <;> rfl
  have hchain : chainTerm r ctx c = none := by
    rw [chainTerm, run_start]
    exact bind_of_eq_none hprimary
  have hunary : unaryTerm r ctx c = none := by
    have hbegins : c.current.token.beginsChain = true := by
      rw [h]
      rcases hp with rfl | rfl <;> rfl
    rw [unaryTerm_eq hbegins]
    exact bind_of_eq_none hchain
  have hbinary : binaryTerm r ctx 0 c = none := by
    rw [binaryTerm, run_at, run_token, h]
    exact bind_of_eq_none hunary
  have hoperators : operatorsTerm r ctx c = none := by
    rw [operatorsTerm, run_start]
    exact bind_of_eq_none hbinary
  rw [assignmentTerm, run_token, h]
  rcases hp with rfl | rfl <;> exact hoperators

/-! ### Names and objects -/

variable {v : VariableName}

theorem VariableName.beginsChain (v : VariableName) : v.token.beginsChain = true := by
  have hunary : unaryOp? v.token = none := (Phrase.name v).unaryOp?_first rfl rfl
  have hawait : isKeyword "await" v.token = false := by
    have hne : (v.text == "await") = false := beq_eq_false_iff_ne.mpr (v.text_ne (by decide))
    rw [VariableName.token, isKeyword, hne]
    rfl
  rw [Token.beginsChain, hunary, hawait]
  rfl

end UiTemplate.Script
