import UiTemplate.Proofs.Script.Locality.Chains

/-!
# Expressions in other surroundings

Operators, functions and assignments are read alike wherever they stand, unless the ending begins
with an operator: then they have to end before it.
-/

namespace UiTemplate.Script

open Reader

variable {e : Ending} {E : Prop} {r r' : Rules} {ctx ctx' : Context}

/-- An expression goes up to the end of the text only before what closes it. -/
theorem Ending.stop_eq (e : Ending) :
    e.stop = .inside ∨ e.stop = .atEnd ∧ (e.mark = .rightParen ∨ e.mark = .rightBrace) := by
  unfold Ending.stop
  split
  · exact .inr ⟨rfl, ‹_›⟩
  · exact .inl rfl

/-- Where an expression may go up to the end, no operator stands there. -/
theorem Ending.stop_eats {β : Type} (e : Ending) (p : Reader β) :
    Eats (fun _ => e.stop) p ∨ e.mark = .rightParen ∨ e.mark = .rightBrace := by
  refine e.stop_eq.imp (fun h => ?_) And.right
  rw [h]
  exact .inside

/-- A sign behind an operand. No ending begins with one. -/
theorem incrementRest_follows (start start' : Nat) {t t' : Term} (ht : t.shape = t'.shape)
    {m : Term → Stop} :
    FollowsBy e E m Term.shape (incrementRest start t) (incrementRest start' t') := by
  refine .bind_token_from (fun l => ?_) (.inr ?_)
  · have hstep {l : Token} (hl : l ≠ .punct .rightParen) : FollowsFrom e E l m Term.shape
        (do
          if ← newline then return t
          else
            require t.isPlace
            advance
            return .update start t)
        (do
          if ← newline then return t'
          else
            require t'.isPlace
            advance
            return .update start' t') := by
      refine .bind_newline hl fun b => FollowsBy.from' ?_
      split
      · exact .pure ht
      · rw [Term.isPlace_of_shape ht]
        refine .bind_atEnd (.require_self _) fun _ _ _ => .bind_atEnd .advance fun _ _ _ => ?_
        exact .pure (by simp only [Term.shape, ht])
    split
    · exact hstep (by rintro ⟨⟩)
    · exact hstep (by rintro ⟨⟩)
    · exact (FollowsBy.pure ht).from'
  · obtain h | h | h | h := e.mark_eq
    all_goals
      rw [h]
      exact .pure ht

section Operators

variable (hr : r.Follows e r') (hctx : ctx.Eases E ctx')

include hr hctx

/-- Signs in front of an operand. The word `await` would be one of them in some contexts only, but
is not met. -/
theorem unaryTerm_follows :
    Follows e E e.stop Term.shape (unaryTerm r ctx) (unaryTerm r' ctx') := by
  have hchain (start start' : Nat) : Follows e E e.stop Term.shape
      (chainTerm r ctx >>= incrementRest start) (chainTerm r' ctx' >>= incrementRest start') :=
    .bind_atEnd (chainTerm_follows hr hctx) fun _ _ h => incrementRest_follows _ _ h
  refine .bind_start fun start start' => .bind_token_ne (fun t ht => FollowsBy.from' ?_) ?_ (.inr ?_)
  · split
    · refine .bind_atEnd .advance fun _ _ _ => .bind (hr.unary hctx) fun _ _ h => .pure ?_
      simp only [Term.shape, h]
    · split
      · refine .bind_atEnd .advance fun _ _ _ => .bind (hr.unary hctx) fun u u' hu => ?_
        rw [Term.isPlace_of_shape hu]
        exact .bind (.require_self _) fun _ _ _ => .pure (by simp only [Term.shape, hu])
      · refine .bind_atEnd .advance fun _ _ _ => .bind (hr.unary hctx) fun u u' hu => ?_
        rw [Term.isPlace_of_shape hu]
        exact .bind (.require_self _) fun _ _ _ => .pure (by simp only [Term.shape, hu])
      · have hawait : isKeyword "await" t = false := by
          cases t with
          | word name escaped =>
            by_contra h
            obtain ⟨rfl, rfl⟩ : name = "await" ∧ escaped = false := by simpa [isKeyword] using h
            exact ht rfl
          | _ => rfl
        simpa only [hawait, Bool.false_and, Bool.false_eq_true, ↓reduceIte] using hchain start start'
  · refine fun c _ u c' h => (?_ : Moves _) c u c' h
    rw [show unaryOp? (.word "await" false) = none from rfl]
    dsimp only
    split
    · exact moves_advance.bind fun _ => (hr.unary hctx).moves.bind fun _ => moves_pure _
    · have hregex : Moves regexAhead := by
        rintro c _ c' ⟨⟩
        exact .refl
      refine moves_lookahead.bind fun _ => hregex.bind fun _ => (moves_require _).bind fun _ => ?_
      exact (hchain start start').moves
  · obtain h | h | h | h := e.mark_eq
    all_goals
      rw [h]
      exact hchain start start'

/-! ## Operators between operands -/

omit hr in
/-- The operators are the same in both contexts. -/
theorem operator?_eq (t : Token) : operator? ctx' t = operator? ctx t := by
  unfold operator?
  rw [hctx.noIn]

omit hr hctx in
theorem Term.isUnary_shape (t : Term) : t.shape.isUnary = t.isUnary := by
  cases t with
  | other form start => cases form <;> rfl
  | _ => simp only [Term.shape, Term.isUnary]

omit hr hctx in
theorem Term.isAndOr_shape (t : Term) : t.shape.isAndOr = t.isAndOr := by
  cases t <;> simp only [Term.shape, Term.isAndOr]

omit hr hctx in
/-- Whether operands may be joined can be seen from what they look like. -/
theorem operatorTerm_shape (op : Operator) (leftParen rightParen : Bool) (left right : Term) :
    operatorTerm op leftParen rightParen left.shape right.shape =
      (operatorTerm op leftParen rightParen left right).map Term.shape := by
  have hsplit {b : Bool} {t : Term} : (if b then none else some t.shape) =
      (if b then none else some t : Option Term).map Term.shape := by
    cases b <;> rfl
  cases op with
  | binary op =>
    cases op with
    | pow =>
      rw [operatorTerm, Term.isUnary_shape]
      exact hsplit (t := .binary .pow left right)
    | _ => rfl
  | logical op =>
    cases op with
    | coalesce =>
      cases right with
      | logical op a b =>
        exact hsplit (b := op != .coalesce && !rightParen)
          (t := .logical .coalesce left (.logical op a b))
      | _ =>
        show (if left.shape.isAndOr && !leftParen then none else some _ : Option Term) =
          (if left.isAndOr && !leftParen then none else some _ : Option Term).map Term.shape
        rw [left.isAndOr_shape]
        exact hsplit (t := .logical .coalesce left _)
    | _ => rfl

/-- Operators and operands go on alike in both texts. One that an ending begins with stands behind
all of them. -/
theorem binaryRest_follows (rank : Nat) (leftParen : Bool) {left left' : Term}
    (hleft : left.shape = left'.shape) :
    Follows e E e.stop Term.shape (binaryRest r ctx rank leftParen left)
      (binaryRest r' ctx' rank leftParen left') := by
  refine Follows.repeatFrom (v := Term.shape) (fun t t' ht => ?_) hleft
  have hdone : Follows e E e.stop (Sum.map Term.shape Term.shape)
      (pure (.inr t)) (pure (.inr t')) := .pure (congrArg Sum.inr ht)
  refine .bind_token (fun l => ?_) ((e.stop_eats _).imp_right ?_)
  · rw [operator?_eq hctx]
    split
    · exact hdone
    · split
      · exact hdone
      · refine .bind_atEnd .advance fun _ _ _ => .bind_at _ (fun b => ?_) (.inl (by decide))
        refine .bind (hr.binary hctx _) fun u u' hu => ?_
        have hterm := operatorTerm_shape ‹_› leftParen b t u
        rw [ht, hu, operatorTerm_shape] at hterm
        cases hop : operatorTerm ‹_› leftParen b t u with
        | none => exact .fail
        | some x =>
          rw [hop] at hterm
          obtain ⟨x', hop', hx⟩ := Option.map_eq_some_iff.mp hterm
          simp only [hop']
          exact .pure (congrArg Sum.inl hx.symm)
  · rintro (h | h)
    all_goals
      rw [h]
      exact hdone

theorem privateIn_follows :
    Follows e E e.stop Term.shape (privateIn r ctx) (privateIn r' ctx') := by
  refine .bind_start fun start start' => .bind_atEnd .advance fun _ _ _ => ?_
  rw [hctx.noIn]
  refine .bind_atEnd (.require_self _) fun _ _ _ => .bind_atEnd (.expectWord _) fun _ _ _ => ?_
  refine .bind (hr.binary hctx _) fun t t' ht => ?_
  split
  · exact .fail
  · rename_i hin
    split
    · obtain ⟨start, ht⟩ := Term.eq_other_of_shape ht
      exact absurd ht (hin start)
    · exact .pure rfl

/-- Operands with operators between them. -/
theorem binaryTerm_follows (rank : Nat) :
    Follows e E e.stop Term.shape (binaryTerm r ctx rank) (binaryTerm r' ctx' rank) := by
  refine .bind_at _ (fun leftParen => ?_) (.inl (by decide))
  have hunary : Follows e E e.stop Term.shape
      (unaryTerm r ctx >>= binaryRest r ctx rank leftParen)
      (unaryTerm r' ctx' >>= binaryRest r' ctx' rank leftParen) :=
    .bind (unaryTerm_follows hr hctx) fun _ _ h => binaryRest_follows hr hctx rank leftParen h
  refine .bind_token (fun t => ?_) (.inr hunary)
  split
  · exact .bind (privateIn_follows hr hctx) fun _ _ h => binaryRest_follows hr hctx rank leftParen h
  · exact hunary

/-! ## Arrows -/

/-- A function behind its parameters. In its body `await` is an operator exactly if the function is
asynchronous, in either text. -/
theorem arrowRest_follows (start start' : Nat) (async : Bool) (params : List (Option String)) :
    Follows e E e.stop Term.shape (arrowRest r ctx start async params)
      (arrowRest r' ctx' start' async params) := by
  have hinside : Context.Eases E { ctx with await := async, yield := false, body := true }
      { ctx' with await := async, yield := false, body := true } :=
    ⟨hctx.noIn, .inl, rfl, hctx.decorator⟩
  have hbody : Follows e E e.stop Term.shape
      (do
        if ← at? .leftBrace then
          return .arrow start params
            (← functionBody r { ctx with await := async, yield := false, body := true })
        else
          return .arrow start params [.expression
            (← r.assignment { ctx with await := async, yield := false, body := true })])
      (do
        if ← at? .leftBrace then
          return .arrow start' params
            (← functionBody r' { ctx' with await := async, yield := false, body := true })
        else
          return .arrow start' params [.expression
            (← r'.assignment { ctx' with await := async, yield := false, body := true })]) := by
    refine .bind_at _ (fun b => ?_) (.inl (by decide))
    split
    · refine .bind_atEnd (functionBody_follows hr hinside rfl) fun ss ss' hss => .pure ?_
      simp [Term.shape, hss]
    · refine .bind (hr.assignment hinside) fun t t' ht => .pure ?_
      simp [Term.shape, Statement.shape, ht]
  refine .bind_eats .newline (fun b b' (hb : b = b') => ?_) fun b => ?_
  · subst hb
    exact .bind_atEnd (.require_self _) fun _ _ _ => .bind_atEnd (.expect _) fun _ _ _ => hbody
  · have harrow : Follows e E .inside Term.shape _ _ :=
      .bind (.expect .arrow) fun _ _ _ => hbody.to_inside
    have heats : Eats (fun _ => e.stop) _ := (Eats.expect .arrow).bind fun _ => hbody.moves
    exact .bind_right (moves_require _) (fun _ => heats) fun _ => harrow.moves

omit hr hctx in
theorem headNames_follows (before : Nat) {xs ys : List Element}
    (h : xs.map Element.shape = ys.map Element.shape) (trailing : Bool)
    {m : List (Option String) → Stop} :
    FollowsBy e E m id (headNames before xs trailing) (headNames before ys trailing) := by
  unfold headNames
  rw [elementTargets?_of_shape Term.isName_shape h, parameterNames_of_shape h]
  split
  · exact .fail
  · refine .bind_atEnd (.modify (fun _ => rfl) fun _ _ hbeside => ?_) fun _ _ _ => .pure rfl
    exact ⟨hbeside.spot, by rw [hbeside.pending], hbeside.exported⟩

/-! ## Assignments -/

/-- The branches of a conditional. -/
theorem branchesRest_follows {test test' : Term} (ht : test.shape = test'.shape) :
    Follows e E e.stop Term.shape (branchesRest r ctx test) (branchesRest r' ctx' test') := by
  refine .bind_eats (hr.assignment_inside hctx.inner) (fun t t' hyes => ?_) fun _ => ?_
  · refine .bind_atEnd (.expect _) fun _ _ _ => .bind (hr.assignment hctx) fun u u' hno => ?_
    exact .pure (by simp only [Term.shape, ht, hyes, hno])
  · exact (Eats.expect _).bind fun _ => (hr.assignment hctx).moves.bind fun _ => moves_pure _

/-- A question mark in the text is not the one of an ending, behind which there is nothing of the
text. -/
theorem conditionalRest_follows {test test' : Term} (ht : test.shape = test'.shape) :
    Follows e E e.stop Term.shape (conditionalRest r ctx test) (conditionalRest r' ctx' test') := by
  refine .bind_eat _ (branchesRest_follows hr hctx ht) (.pure ht)
    ((e.stop_eats _).symm.imp_left ?_)
  rintro (h | h) hquestion
  all_goals
    rw [h] at hquestion
    cases hquestion

theorem assignRest_follows (start start' : Nat) (plain : Bool) {left left' : Term}
    (ht : left.shape = left'.shape) :
    Follows e E e.stop Term.shape (assignRest r ctx start plain left)
      (assignRest r' ctx' start' plain left') := by
  unfold assignRest
  rw [Term.target?_of_shape Term.isPlace_shape ht]
  split
  · exact .fail
  · refine .bind_atEnd (.settle _) fun _ _ _ => .bind_atEnd .advance fun _ _ _ => ?_
    exact .bind (hr.assignment hctx) fun _ _ h => .pure (by simp only [Term.shape, ht, h])

/-- An arrow, an assignment or a conditional behind the operands. -/
theorem assignmentRest_follows (start start' : Nat) {left left' : Term}
    (ht : left.shape = left'.shape) :
    Follows e E e.stop Term.shape (assignmentRest r ctx start left)
      (assignmentRest r' ctx' start' left') := by
  have hconditional := conditionalRest_follows (E := E) hr hctx ht
  refine .bind_token (fun l => ?_) ((e.stop_eats _).imp_right ?_)
  · split
    · obtain ⟨from', to', rfl⟩ := Term.eq_ident_of_shape ht.symm
      exact arrowRest_follows hr hctx _ _ _ _
    · exact assignRest_follows hr hctx _ _ _ ht
    · exact assignRest_follows hr hctx _ _ _ ht
    · exact assignRest_follows hr hctx _ _ _ ht
    · rename_i hassign hassignWith hslashAssign harrow
      split
      · obtain ⟨start, stop, rfl⟩ := Term.eq_ident_of_shape ht
        exact (harrow _ _ _ rfl rfl).elim
      · exact (hassign rfl).elim
      · exact (hassignWith rfl).elim
      · exact (hslashAssign rfl).elim
      · exact hconditional
  · rintro (h | h)
    all_goals
      rw [h]
      exact hconditional

/-- What begins neither with a parenthesis nor with `async`. -/
theorem operatorsTerm_follows :
    Follows e E e.stop Term.shape (operatorsTerm r ctx) (operatorsTerm r' ctx') :=
  .bind_start fun _ _ => .bind (binaryTerm_follows hr hctx 0) fun _ _ h =>
    assignmentRest_follows hr hctx _ _ h

/-- What follows a term in parentheses. -/
theorem afterTerm_follows (start start' : Nat) (leftParen : Bool) {t t' : Term}
    (ht : t.shape = t'.shape) :
    Follows e E e.stop Term.shape (afterTerm r ctx start leftParen t)
      (afterTerm r' ctx' start' leftParen t') := by
  refine .bind_atEnd (chainRest_follows hr hctx true _ _ ht) fun u u' hu => ?_
  refine .bind_atEnd (incrementRest_follows _ _ hu) fun o o' ho => ?_
  refine .bind (binaryRest_follows hr hctx 0 leftParen ho) fun l l' hl => ?_
  exact assignmentRest_follows hr hctx _ _ hl

omit hr hctx in
/-- A `yield` expression after its keyword; the flag tells that a line break stands there. -/
def yieldRest (r : Rules) (ctx : Context) (start : Nat) (newline : Bool) : Reader Term := do
  if newline then return .other .unusual start
  else if ← eat .star then
    let _ ← r.assignment ctx
    return .other .unusual start
  else match ← token with
    | .eof => return .other .unusual start
    | .punct p =>
      if [Punct.rightBrace, .rightParen, .rightBracket, .semicolon, .comma, .colon].contains p then
        return .other .unusual start
      else
        let _ ← r.assignment ctx
        return .other .unusual start
    | _ =>
      let _ ← r.assignment ctx
      return .other .unusual start

omit hr hctx in
theorem yieldTerm_eq : yieldTerm r ctx = start >>= fun start => require ctx.yield >>= fun _ =>
    advance >>= fun _ => newline >>= yieldRest r ctx start :=
  rfl

omit hr hctx in
/-- Behind a `yield` expression without a value. -/
theorem yieldRest_eq {c : Cursor} {p : Punct} (hp : p = .rightParen ∨ p = .rightBrace)
    (hc : c.current.token = .punct p) (start : Nat) (newline : Bool) :
    yieldRest r ctx start newline c = some (.other .unusual start, c) := by
  cases newline with
  | true => rfl
  | false =>
    have hstar : isPunct .star c.current.token = false := by
      rw [hc]
      rcases hp with rfl | rfl <;> rfl
    show (eat .star >>= _) c = _
    rw [bind_of_eq_some (eat_eq_false hstar)]
    show (token >>= _) c = _
    rw [bind_of_eq_some (p := token) (a := .punct p) (d := c) (by rw [← hc]; rfl)]
    rcases hp with rfl | rfl <;> rfl

/-- Whether a value follows `yield` depends on the token behind it, and no ending begins a value. -/
theorem yieldTerm_follows :
    Follows e E e.stop Term.shape (yieldTerm r ctx) (yieldTerm r' ctx') := by
  rw [yieldTerm_eq, yieldTerm_eq, hctx.yield]
  refine .bind_start fun start start' => .bind_atEnd (.require_self _) fun _ _ _ => ?_
  refine .bind_atEnd .advance fun _ _ _ => .bind_newline (fun newline => ?_) ?_
  · have hdone : Follows e E e.stop Term.shape (pure (.other .unusual start))
        (pure (.other .unusual start')) := .pure rfl
    have hvalue : Follows e E e.stop Term.shape
        (r.assignment ctx >>= fun _ => pure (.other .unusual start))
        (r'.assignment ctx' >>= fun _ => pure (.other .unusual start')) :=
      .bind (hr.assignment hctx) fun _ _ _ => hdone
    cases newline with
    | true => exact hdone
    | false =>
      refine .bind_eat _ hvalue (.bind_token (fun t => ?_) ((e.stop_eats _).imp_right ?_))
        (.inl (e.ne_mark (by decide)))
      · split
        · exact hdone
        · split
          · exact hdone
          · exact hvalue
        · exact hvalue
      · rintro (h | h)
        all_goals
          rw [h]
          exact hdone
  · rcases e.stop_eq with h | ⟨-, hmark⟩
    · left
      intro newline
      rw [h]
      exact .inside
    · right
      intro c d hc hd newline newline' t c' h
      rw [yieldRest_eq (.inl rfl) hc] at h
      obtain ⟨rfl, rfl⟩ := Prod.mk.inj (Option.some.inj h)
      exact ⟨.refl, fun _ hbeside =>
        .inr ⟨_, d, yieldRest_eq hmark hd start' newline', rfl, hbeside⟩⟩

/-- An expression in parentheses, or the head of a function. -/
theorem parenTerm_follows :
    Follows e E e.stop Term.shape (parenTerm r ctx) (parenTerm r' ctx') := by
  refine .bind_start fun start start' => ?_
  have hrest (before : Nat) : Follows e E e.stop Term.shape
      (enclosed r ctx >>= behindItems r ctx start before)
      (enclosed r' ctx' >>= behindItems r' ctx' start' before) := by
    refine .bind_atEnd (enclosed_follows hr hctx) fun x y h => ?_
    obtain ⟨items, trailing⟩ := x
    obtain ⟨items', trailing'⟩ := y
    obtain ⟨hitems, rfl⟩ : _ ∧ trailing = trailing' := Prod.mk.inj h
    unfold behindItems
    refine .bind_at _ (fun b => ?_) (.inl (by decide))
    cases b with
    | true =>
      refine .bind_atEnd (headNames_follows before hitems trailing) fun names names' hnames => ?_
      obtain rfl : names = names' := hnames
      exact arrowRest_follows hr hctx _ _ _ _
    | false =>
      cases hgroup : group? items trailing with
      | none => exact .fail
      | some t =>
        obtain ⟨t', hgroup', ht⟩ := group?_of_shape hitems hgroup
        simp only [hgroup', Bool.false_eq_true, ↓reduceIte]
        exact afterTerm_follows hr hctx start start' true ht
  exact .bind_field (fun _ _ h => h.pending) _ _ hrest

omit hctx in
/-- The head of an asynchronous function, which is closed and has an arrow behind it inside the
text. -/
theorem asyncHead_follows (hctx : ctx.Eases E ctx') :
    Follows e False .atEnd id (asyncHead r ctx) (asyncHead r' ctx') := by
  have hinside : Context.Eases False { ctx with await := true } { ctx' with await := true } :=
    ⟨hctx.noIn, fun _ => .inl rfl, hctx.yield, hctx.decorator⟩
  refine .bind_atEnd .advance fun _ _ _ => ?_
  have hrest (before : Nat) : Follows e False .atEnd id
      (do
        let x ← enclosed r { ctx with await := true }
        require (← at? .arrow)
        headNames before x.1 x.2)
      (do
        let x ← enclosed r' { ctx' with await := true }
        require (← at? .arrow)
        headNames before x.1 x.2) := by
    refine .bind_atEnd (enclosed_follows hr hinside) fun x y h => ?_
    obtain ⟨items, trailing⟩ := x
    obtain ⟨items', trailing'⟩ := y
    obtain ⟨hitems, rfl⟩ : _ ∧ trailing = trailing' := Prod.mk.inj h
    refine .bind_at _ (fun b => ?_) (.inl (by decide))
    exact .bind_atEnd (.require_self _) fun _ _ _ => headNames_follows before hitems trailing
  exact .bind_field (fun _ _ h => h.pending) _ _ hrest

omit hr hctx in
/-- Whether a lone rest parameter follows: a question about the next two tokens. -/
theorem atRestParameter_follows {m : Bool → Stop} :
    FollowsFrom e E (.punct .leftParen) m id atRestParameter atRestParameter := by
  refine .bind_ahead (by simp [Token.IsPlain]) fun k l k' l' hk hl => FollowsBy.from' ?_
  simp only [List.map_cons, List.map_nil]
  by_cases hellipsis : k.token = .punct .ellipsis
  · have hk' : k'.token = .punct .ellipsis := by
      refine (hk.token_eq.resolve_right fun h => ?_).trans hellipsis
      cases hellipsis.symm.trans h.1
    rw [hellipsis, hk']
    rcases (hl (hellipsis ▸ by simp [Token.IsPlain])).token_eq with hl | ⟨hl, hl'⟩
    · rw [hl]
      split <;> exact .pure rfl
    · rw [hl, hl']
      exact .pure rfl
  · have hk' : k'.token ≠ .punct .ellipsis := by
      intro h
      rcases hk.token_eq with hk | ⟨-, hk⟩
      · exact hellipsis (hk.symm.trans h)
      · exact e.ne_mark (by decide) (Token.punct.inj (h.symm.trans hk))
    split
    · rename_i h
      exact absurd (List.cons.inj h).1 hellipsis
    · split
      · rename_i h
        exact absurd (List.cons.inj h).1 hk'
      · exact .pure rfl

omit hr hctx in
/-- A question about the tokens ahead is answered where it is asked. -/
theorem exists_ahead {f : List Lexeme → Reader Bool} (hf : ∀ ls, ∃ b, f ls = pure b) (c : Cursor) :
    ∃ b, (ahead 2 >>= f) c = some (b, c) := by
  obtain ⟨b, hb⟩ := hf (lexemes 2 c.current.stop c.rest)
  exact ⟨b, congrFun hb c⟩

omit hr hctx in
theorem arguments_eq_none {c : Cursor} (hc : c.current.token ≠ .punct .leftParen) :
    arguments r ctx c = none := by
  have hparen : isPunct .leftParen c.current.token = false := by
    cases htoken : c.current.token with
    | punct p => exact beq_eq_false_iff_ne.mpr fun h => hc (by rw [htoken, h])
    | _ => rfl
  have hexpect : expect .leftParen c = none := bind_of_eq_some (eat_eq_false hparen)
  exact bind_of_eq_none (bind_of_eq_none hexpect)

/-- A call of the name `async`. -/
theorem asyncCall_follows {m : Term → Stop} :
    FollowsBy e E m Term.shape (asyncCall r ctx) (asyncCall r' ctx') := by
  refine .bind_get fun c d => (FollowsBy.bind_atEnd .advance fun _ _ _ => ?_) c d
  refine .of_from (t := .punct .leftParen) (fun c hc => ?_) (.bind_atEnd atRestParameter_follows
    fun b b' hb => ?_)
  · obtain ⟨b, hb⟩ : ∃ b, atRestParameter c = some (b, c) := by
      refine exists_ahead (fun ls => ?_) c
      split <;> exact ⟨_, rfl⟩
    rw [bind_of_eq_some hb]
    cases b with
    | true => rfl
    | false =>
      rw [bind_of_eq_some (p := require !false) (a := ()) (d := c) rfl]
      exact bind_of_eq_none (arguments_eq_none hc)
  · obtain rfl : b = b' := hb
    refine .bind_atEnd (.require_self _) fun _ _ _ => ?_
    refine .bind_atEnd (arguments_follows hr hctx) fun xs ys hxs => ?_
    refine .bind_at _ (fun arrow => ?_) (.inl (by decide))
    refine .bind_atEnd (.require_self _) fun _ _ _ => .bind_at _ (fun brace => ?_) (.inl (by decide))
    have hempty : xs.isEmpty = ys.isEmpty := by
      have := congrArg List.isEmpty hxs
      rwa [List.isEmpty_map, List.isEmpty_map] at this
    rw [hempty]
    refine .bind_atEnd (.require_self _) fun _ _ _ => .pure ?_
    simp [Term.shape, hxs]

/-- What follows `async` before a parenthesis: a function, or a call if there is no arrow. -/
def asyncParens (r : Rules) (ctx : Context) (start : Nat) : Reader Term := do
  match ← attempt? (asyncHead r ctx) with
  | some params => arrowRest r ctx start true params
  | none => afterTerm r ctx start false (← asyncCall r ctx)

/-- Where a call of `async` is read, the same text is not the head of a function in other
surroundings. -/
theorem asyncHead_eq_none {c d : Cursor} {t : Term} {c' : Cursor}
    (h : asyncCall r ctx c = some (t, c')) (hlive : c'.spot.Live) (hbeside : c.Beside e d) :
    asyncHead r' ctx' d = none := by
  have hinside : Context.Eases True ctx { ctx' with await := true } :=
    ⟨hctx.noIn, fun _ => .inr trivial, hctx.yield, hctx.decorator⟩
  -- The items of the call are read as the items of the head would be.
  obtain ⟨_, _, ⟨⟩, h₁⟩ := bind_eq_some.mp h
  obtain ⟨_, c₁, hadvance, h₂⟩ := bind_eq_some.mp h₁
  obtain rfl := eq_advanced hadvance
  obtain ⟨b, c₂, hrest, h₃⟩ := bind_eq_some.mp h₂
  obtain rfl : c₂ = c.advanced := by
    obtain ⟨b', hb'⟩ : ∃ b, atRestParameter c.advanced = some (b, c.advanced) := by
      refine exists_ahead (fun ls => ?_) _
      split <;> exact ⟨_, rfl⟩
    exact (Prod.mk.inj (Option.some.inj (hrest.symm.trans hb'))).2
  obtain ⟨_, c₃, hrequire, h₄⟩ := bind_eq_some.mp h₃
  obtain rfl := (require_eq_some hrequire).2
  obtain ⟨items, c₄, harguments, h₅⟩ := bind_eq_some.mp h₄
  obtain ⟨x, c₅, henclosed, hitems⟩ := bind_eq_some.mp harguments
  obtain rfl : c₅ = c₄ := (Prod.mk.inj (Option.some.inj hitems)).2
  obtain ⟨arrow, c₆, harrow, h₆⟩ := bind_eq_some.mp h₅
  obtain ⟨rfl, rfl⟩ : isPunct .arrow c₅.current.token = arrow ∧ c₅ = c₆ :=
    Prod.mk.inj (Option.some.inj harrow)
  obtain ⟨_, c₇, hrequire', h₇⟩ := bind_eq_some.mp h₆
  obtain ⟨hnone, rfl⟩ := require_eq_some hrequire'
  obtain ⟨brace, c₈, hbrace, h₈⟩ := bind_eq_some.mp h₇
  obtain rfl : c₇ = c₈ := (Prod.mk.inj (Option.some.inj hbrace)).2
  obtain ⟨_, c₉, hrequire'', h₉⟩ := bind_eq_some.mp h₈
  obtain rfl := (require_eq_some hrequire'').2
  obtain rfl : c₉ = c' := (Prod.mk.inj (Option.some.inj h₉)).2
  have henclosed' := enclosed_follows hr hinside (m := fun _ => .atEnd) c.advanced d.advanced x c₉
    henclosed
  have hlive₁ := hlive.of_leads henclosed'.1
  have hagree := (hbeside.cases (hlive₁.of_leads (.single (.after _)))).resolve_left fun hlast =>
    not_isLast_of_advanced hlive₁ hlast.1
  have hbeside₁ := hagree.beside_advanced hbeside
  rw [asyncHead, bind_of_eq_some (p := advance) (a := ()) (d := d.advanced) rfl,
    bind_of_eq_some (p := get) (a := d.advanced) (d := d.advanced) rfl]
  dsimp only
  rcases henclosed'.2 ⟨hlive, by rintro ⟨⟩⟩ hbeside₁ with ⟨-, hfail⟩ | ⟨y, d₂, hy, -, hbeside₂⟩
  · exact bind_of_eq_none hfail
  · have harrow' : isPunct .arrow d₂.current.token = false := by
      rcases hbeside₂.cases hlive with ⟨-, hmark⟩ | hagree
      · rw [hmark]
        exact beq_eq_false_iff_ne.mpr (e.ne_mark (by decide))
      · have htoken : d₂.current.token = c₉.current.token := hagree.token_eq
        rw [htoken]
        simpa using hnone
    rw [bind_of_eq_some hy]
    show (at? .arrow >>= _) d₂ = none
    rw [bind_of_eq_some (p := at? .arrow) (a := isPunct .arrow d₂.current.token) (d := d₂) rfl,
      harrow']
    rfl

/-- A function is attempted first. Where that fails in one text, it fails in the other one too, so
that both read a call. -/
theorem asyncParens_follows (start start' : Nat) :
    Follows e E e.stop Term.shape (asyncParens r ctx start) (asyncParens r' ctx' start') := by
  intro c d t c' h
  obtain ⟨found, c₁, hattempt, hrest⟩ := bind_eq_some.mp h
  cases hhead : asyncHead r ctx c with
  | some x =>
    obtain ⟨params, c₂⟩ := x
    rw [attempt?_of_eq_some hhead] at hattempt
    obtain ⟨rfl, rfl⟩ := Prod.mk.inj (Option.some.inj hattempt)
    obtain ⟨hlead, hfollow⟩ := asyncHead_follows (E := E) hr hctx c d params c₂ hhead
    have harrow (d₂ : Cursor) := arrowRest_follows hr hctx start start' true params c₂ d₂ t c' hrest
    refine ⟨hlead.trans (harrow c₂).1, fun hallows hbeside => ?_⟩
    rcases hfollow ⟨hallows.live.of_leads (harrow c₂).1, by rintro ⟨⟩⟩ hbeside with
      ⟨⟨⟩, -⟩ | ⟨params', d₂, hhead', hparams, hbeside₂⟩
    obtain rfl : params = params' := hparams
    rw [asyncParens, bind_of_eq_some (attempt?_of_eq_some hhead')]
    exact (harrow d₂).2 hallows hbeside₂
  | none =>
    rw [attempt?_of_eq_none hhead] at hattempt
    obtain ⟨rfl, rfl⟩ := Prod.mk.inj (Option.some.inj hattempt)
    have hcall : Follows e E e.stop Term.shape
        (asyncCall r ctx >>= afterTerm r ctx start false)
        (asyncCall r' ctx' >>= afterTerm r' ctx' start' false) :=
      .bind_atEnd (asyncCall_follows hr hctx) fun _ _ hu =>
        afterTerm_follows hr hctx start start' false hu
    obtain ⟨hlead, hfollow⟩ := hcall c d t c' hrest
    refine ⟨hlead, fun hallows hbeside => ?_⟩
    obtain ⟨u, c₂, hu, hafter⟩ := bind_eq_some.mp hrest
    have hlive := hallows.live.of_leads
      (afterTerm_follows hr hctx start start' false rfl c₂ c₂ t c' hafter).1
    rw [asyncParens, bind_of_eq_some (attempt?_of_eq_none (asyncHead_eq_none hr hctx hu hlive hbeside))]
    exact hfollow hallows hbeside

/-- What begins with `async`: a function, a call or a name. -/
theorem asyncTerm_follows : FollowsFrom e E (.word "async" false) (fun _ => e.stop) Term.shape
    (asyncTerm r ctx) (asyncTerm r' ctx') := by
  refine .bind_start fun start start' => .bind_ahead (Token.isPlain_word _ _) fun k l k' l' hk hl =>
    FollowsBy.from' ?_
  have hoperators := operatorsTerm_follows (E := E) hr hctx
  have hinside : Context.Eases E { ctx with await := true } { ctx' with await := true } :=
    ⟨hctx.noIn, fun _ => .inl rfl, hctx.yield, hctx.decorator⟩
  show FollowsBy _ _ _ _ (if k.newline then _ else _) (if k'.newline then _ else _)
  have hsame : k'.token = k.token ∧ k'.newline = k.newline ∨
      k.token = .punct .rightParen ∧ k'.token = .punct e.mark := by
    rcases hk with (⟨htoken, hline, -⟩ | hend) | rfl
    · exact .inl ⟨htoken, hline⟩
    · exact .inr hend
    · exact .inl ⟨rfl, rfl⟩
  rcases hsame with ⟨htoken, hline⟩ | ⟨hparen, hmark⟩
  · rw [htoken, hline]
    split
    · exact hoperators
    · split
      · exact asyncParens_follows hr hctx start start'
      · rename_i hword
        have harrow := (hl (hword ▸ Token.isPlain_word _ _)).eq (P := fun t _ => isPunct .arrow t)
          (by decide)
        simp only [harrow]
        split
        · refine .bind_atEnd (hinside.requireName _) fun _ _ _ => .bind_atEnd .advance fun _ _ _ => ?_
          exact .bind_atEnd .advance fun _ _ _ => arrowRest_follows hr hctx _ _ _ _
        · exact hoperators
      · exact hoperators
  · rw [hparen, hmark]
    obtain h | h | h | h := e.mark_eq
    all_goals
      rw [h]
      cases k.newline <;> cases k'.newline <;> exact hoperators

/-- Every expression without a comma at its top. -/
theorem assignmentTerm_follows :
    Follows e E e.stop Term.shape (assignmentTerm r ctx) (assignmentTerm r' ctx') := by
  have hoperators := operatorsTerm_follows (E := E) hr hctx
  refine .bind_token_from (fun t => ?_) (.inr ?_)
  · split
    · exact (parenTerm_follows hr hctx).from'
    · rename_i name
      refine .bind_lookahead (Token.isPlain_word _ _) fun l l' hl => ?_
      have hoperand : isOperandStart l = isOperandStart l' :=
        hl.eq (P := fun t newline => isOperandStart ⟨t, 0, 0, newline⟩) (by decide)
      rw [hoperand, hctx.yield]
      split
      · exact (yieldTerm_follows hr hctx).from'
      · split
        · rename_i hasync
          obtain rfl : name = "async" := by simpa using hasync
          exact asyncTerm_follows hr hctx
        · exact hoperators.from'
    · exact hoperators.from'
  · obtain h | h | h | h := e.mark_eq
    all_goals
      rw [h]
      exact hoperators

end Operators

end UiTemplate.Script
