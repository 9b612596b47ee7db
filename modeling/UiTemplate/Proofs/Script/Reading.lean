import UiTemplate.Proofs.Script.Runs

/-!
# Reading phrases

Every phrase with its parentheses is read as what it denotes, wherever it stands
(`Phrase.reads`). What is left to show here is about conditionals, functions and parentheses: an
arrow behind a parenthesis makes parameters of the items in it.
-/

namespace UiTemplate.Script

open Reader

variable {n : Nat} {ctx : Context} {c : Phrase} {us after later : List Token} {u : Token}
  {post : Term → Prop}

/-! ## Conditionals -/

theorem conditionalRest_takes_nothing {r : Rules} (left : Term) (hu : u.closes = true) :
    Takes (conditionalRest r ctx left) [] (u :: after) (· = left) := by
  rw [conditionalRest]
  refine Takes.bind_eat_absent rfl ?_ (Takes.pure rfl)
  cases u with
  | punct p => cases p <;> first | rfl | exact absurd hu (by decide)
  | _ => rfl

theorem conditionalRest_takes {test yes no : Phrase} (hyes : yes.ReadsAssignment)
    (hno : no.ReadsAssignment) (hn : yes.tokens.length + no.tokens.length < n)
    (hctx : ctx.Ordinary) (hu : u.closes = true) {left : Term} (hleft : left.Means test) :
    Takes (conditionalRest (.ofDepth n) ctx left)
      (.punct .question :: (yes.tokens ++ .punct .colon :: no.tokens)) (u :: after)
      (Term.Means · (.conditional test yes no)) := by
  rw [conditionalRest]
  refine Takes.bind_eat (by simp) ?_
  refine Takes.bind (hyes n (by omega) _ ctx.ordinary_inner (.punct .colon) _ rfl) fun t ht => ?_
  refine Takes.bind_expect (by simp) ?_
  refine Takes.bind_last (hno n (by omega) ctx hctx u after hu) fun t' ht' => ?_
  refine Takes.pure ⟨fun bound => ?_, fun _ => rfl, fun _ => rfl⟩
  obtain ⟨refs, hleft⟩ := hleft.denotes bound
  obtain ⟨refs', ht⟩ := ht.denotes bound
  obtain ⟨refs'', ht'⟩ := ht'.denotes bound
  exact ⟨refs ++ refs' ++ refs'', by rw [Expr.ofTerm, hleft, ht, ht']; rfl⟩

/-- Behind operands there is neither an arrow nor an assignment. -/
theorem assignmentRest_takes {r : Rules} (start : Nat) (left : Term) (hu : u.endsOperands = true)
    (hus : us ++ after = u :: later) (h : Takes (conditionalRest r ctx left) us after post) :
    Takes (assignmentRest r ctx start left) us after post := by
  rw [assignmentRest]
  refine Takes.bind_token hus ?_
  cases u with
  | punct p => cases p <;> first | exact h | exact absurd hu (by decide)
  | _ => exact h

theorem Phrase.ReadsOperands.operatorsTerm_takes (h : c.ReadsOperands) (hrank : 1 ≤ c.rank)
    (hn : c.tokens.length ≤ n) (hctx : ctx.Ordinary) (hu : u.endsOperands = true)
    (hus : us ++ after = u :: later)
    (hrest : ∀ left, left.Means c → Takes (conditionalRest (.ofDepth n) ctx left) us after post) :
    Takes (operatorsTerm (.ofDepth n) ctx) (c.tokens ++ us) after post := by
  have hstops {rank : Nat} : u.Stops rank := Token.stops_of_endsOperands hu
  rw [operatorsTerm]
  refine Takes.bind_start fun start => Takes.bind (m := (Term.Means · c)) ?_ fun left hleft => ?_
  · rw [hus]
    have hends := Token.endsOperand_of_endsOperands hu
    exact h.binaryTerm_takes hn hctx (.inl hrank) hends hstops hstops
  · exact assignmentRest_takes start left hu hus (hrest left hleft)

/-! ## Parentheses -/

/-- If the phrase begins with a parenthesis, it begins with an expression in parentheses, and no
arrow follows. -/
def Phrase.Opens (c : Phrase) : Prop :=
  c.first = .punct .leftParen → ∃ items us, c.tokens = parens (commas (rows items)) ++ us ∧
    items ≠ [] ∧ (∀ d ∈ items, d.ReadsAssignment) ∧ us.head? ≠ some (.punct .arrow)

theorem Phrase.opens_group {items : List Phrase} (hne : items ≠ [])
    (hitems : ∀ d ∈ items, d.ReadsAssignment) : (Phrase.group items).Opens :=
  fun _ => ⟨items, [], (List.append_nil _).symm, hne, hitems, nofun⟩

theorem Phrase.Opens.append (h : c.Opens) {d : Phrase} {ls : List Token}
    (hfirst : d.first = c.first) (htokens : d.tokens = c.tokens ++ ls)
    (hls : ls.head? ≠ some (.punct .arrow)) : d.Opens := by
  intro hd
  rw [hfirst] at hd
  obtain ⟨items, us, hc, hne, hitems, harrow⟩ := h hd
  refine ⟨items, us ++ ls, by rw [htokens, hc, List.append_assoc], hne, hitems, ?_⟩
  cases us with
  | nil => exact hls
  | cons v us => exact harrow

/-- An expression that begins with an expression in parentheses is read in the same way whether
that is looked into first or not. -/
theorem parenTerm_eq_operatorsTerm {items : List Phrase} (hne : items ≠ [])
    (hitems : ∀ c ∈ items, c.ReadsAssignment) (hn : (commas (rows items)).length < n)
    (hu : u ≠ .punct .arrow) {d : Cursor} {tail : List Char}
    (hd : d.At (parens (commas (rows items)) ++ u :: after) tail) :
    parenTerm (.ofDepth n) ctx d = operatorsTerm (.ofDepth n) ctx d := by
  obtain ⟨⟨xs, trailing⟩, e, henclosed, ⟨hxs, rfl : trailing = false⟩, he, -⟩ :=
    (enclosed_takes hitems hn : Takes (enclosed (.ofDepth n) ctx) _ _ _) d tail hd
  obtain ⟨t, ht, -⟩ := group?_of_means hxs hne
  have hparen : d.current.token = .punct .leftParen := by
    rw [parens, List.cons_append] at hd
    exact hd.token_eq
  have hbegins : d.current.token.beginsChain = true := by
    rw [hparen]
    rfl
  have hgroup : groupTerm (.ofDepth n) ctx d = some (t, e) := by
    rw [groupTerm, bind_of_eq_some henclosed]
    simp only [ht]
    rfl
  have hprimary : primary (.ofDepth n) ctx d = some (t, e) := by
    rw [primary, run_start, run_token, hparen]
    exact hgroup
  have harrow : isPunct .arrow e.current.token = false := by
    rw [he.token_eq]
    cases u with
    | punct p => exact beq_eq_false_iff_ne.mpr fun hp => hu (congrArg Token.punct hp.symm)
    | _ => rfl
  rw [operatorsTerm_eq hbegins hprimary, hparen, parenTerm_eq]
  refine (bind_eq_bind (q := pure (xs, false)) henclosed _).trans ?_
  -- No arrow follows, so the items are an expression.
  show (if isPunct .arrow e.current.token then _ else _ : Reader Term) e = _
  rw [harrow, if_neg Bool.false_ne_true, ht]
  rfl

/-! ## Assignments -/

theorem Phrase.Opens.parenTerm_takes (hc : c.Opens) (hfirst : c.first = .punct .leftParen)
    (hn : c.tokens.length ≤ n) (hu : u.endsOperands = true) (hus : us ++ after = u :: later)
    (h : Takes (operatorsTerm (.ofDepth n) ctx) (c.tokens ++ us) after post) :
    Takes (parenTerm (.ofDepth n) ctx) (c.tokens ++ us) after post := by
  obtain ⟨items, vs, htokens, hne, hitems, harrow⟩ := hc hfirst
  have hlen : (commas (rows items)).length < n := by
    rw [htokens, parens, List.length_append, List.length_cons, List.length_append] at hn
    omega
  obtain ⟨v, rest, hv, hvarrow⟩ : ∃ v rest, vs ++ u :: later = v :: rest ∧ v ≠ .punct .arrow := by
    cases vs with
    | nil =>
      refine ⟨u, later, rfl, ?_⟩
      rintro rfl
      exact absurd hu (by decide)
    | cons v vs => exact ⟨v, vs ++ u :: later, rfl, fun hv => harrow (congrArg some hv)⟩
  intro d tail hd
  have hat := hd
  rw [List.append_assoc, hus, htokens, List.append_assoc, hv] at hat
  rw [parenTerm_eq_operatorsTerm hne hitems hlen hvarrow hat]
  exact h d tail hd

/-- An expression that begins with operands. -/
theorem Phrase.Opens.assignmentTerm_takes (hc : c.Opens) (hn : c.tokens.length ≤ n)
    (hu : u.endsOperands = true) (hus : us ++ after = u :: later)
    (h : Takes (operatorsTerm (.ofDepth n) ctx) (c.tokens ++ us) after post) :
    Takes (assignmentTerm (.ofDepth n) ctx) (c.tokens ++ us) after post := by
  obtain ⟨rest, htokens⟩ := c.tokens_eq_cons
  have hbegins := c.first_begins
  rw [assignmentTerm]
  refine Takes.bind_token (by rw [htokens]; rfl) ?_
  split
  · rename_i hfirst
    exact hc.parenTerm_takes hfirst hn hu hus h
  · rename_i name hfirst
    have hname : leadingWords.contains name = false := by
      rw [hfirst, Token.begins] at hbegins
      simpa using hbegins
    have hyield : (name == "yield") = false := by
      rw [beq_eq_false_iff_ne]
      rintro rfl
      exact absurd hname (by decide)
    have hasync : (name == "async") = false := by
      rw [beq_eq_false_iff_ne]
      rintro rfl
      exact absurd hname (by decide)
    obtain ⟨v, more, hv⟩ : ∃ v more, rest ++ u :: later = v :: more := by
      cases rest <;> simp
    have hlookahead : c.tokens ++ us ++ after = c.first :: v :: more := by
      rw [← hv, ← hus, htokens]
      simp
    refine Takes.bind_lookahead hlookahead fun l _ => ?_
    simp only [hyield, hasync, Bool.false_and, Bool.false_eq_true, if_false]
    exact h
  · exact h

theorem Phrase.ReadsOperands.readsAssignment (h : c.ReadsOperands) (hrank : 1 ≤ c.rank)
    (hc : c.Opens) : c.ReadsAssignment := by
  intro n hn ctx hctx u after hu
  obtain ⟨n, rfl⟩ : ∃ k, n = k + 1 := ⟨n - 1, by omega⟩
  have hends := Token.endsOperands_of_closes hu
  have hterm : Takes (assignmentTerm (.ofDepth n) ctx) (c.tokens ++ []) (u :: after)
      (Term.Means · c) := by
    refine hc.assignmentTerm_takes (by omega) hends rfl ?_
    refine h.operatorsTerm_takes hrank (by omega) hctx hends rfl fun left hleft => ?_
    exact (conditionalRest_takes_nothing left hu).imp fun _ ha => ha ▸ hleft
  rwa [List.append_nil] at hterm

theorem Phrase.ReadsOperands.conditional {test yes no : Phrase} (h : test.ReadsOperands)
    (hrank : 1 ≤ test.rank) (htest : test.Opens) (hyes : yes.ReadsAssignment)
    (hno : no.ReadsAssignment) : (Phrase.conditional test yes no).ReadsAssignment := by
  intro n hn ctx hctx u after hu
  obtain ⟨n, rfl⟩ : ∃ k, n = k + 1 := ⟨n - 1, by omega⟩
  rw [tokens, List.length_append, List.length_cons, List.length_append, List.length_cons] at hn
  refine htest.assignmentTerm_takes (u := .punct .question) (by omega) rfl rfl ?_
  refine h.operatorsTerm_takes hrank (by omega) hctx (u := .punct .question) rfl rfl ?_
  intro left hleft
  exact conditionalRest_takes hyes hno (by omega) hctx hu hleft

/-! ## Functions -/

/-- A name before an arrow, or among the items in parentheses, stays a name. -/
theorem binaryTerm_takes_name (v : VariableName) (hctx : ctx.Ordinary)
    (hu : u.endsOperand = true) (hstops : u.Stops 0) :
    Takes (binaryTerm (.ofDepth n) ctx 0) [v.token] (u :: after)
      fun t => ∃ start stop, t = .ident v.text start stop := by
  have hprimary : Takes (primary (.ofDepth n) ctx) [v.token] (u :: after)
      fun t => ∃ start stop, t = .ident v.text start stop := by
    rw [primary]
    exact Takes.bind_start fun _ => Takes.bind_token rfl (wordTerm_takes v)
  have hchain : Takes (chainTerm (.ofDepth n) ctx) [v.token] (u :: after)
      fun t => ∃ start stop, t = .ident v.text start stop := by
    rw [chainTerm]
    refine Takes.bind_start fun start => Takes.bind_last hprimary fun t ht => ?_
    rw [chainRest_eq]
    refine Takes.repeatFrom fun fuel hfuel => ?_
    exact Takes.iterate_nothing (chainStep_takes_nothing start t hu) ht (by omega)
  have hunary : Takes (unaryTerm (.ofDepth n) ctx) [v.token] (u :: after)
      fun t => ∃ start stop, t = .ident v.text start stop := by
    have hnone : unaryOp? v.token = none := Phrase.unaryOp?_first (.name v) rfl rfl
    rw [unaryTerm]
    refine Takes.bind_start fun start => Takes.bind_token rfl ?_
    rw [hnone]
    show Takes (if isKeyword "await" v.token && ctx.await then _ else _) _ _ _
    rw [Token.isKeyword_await v.begins]
    refine Takes.bind_last hchain fun left hleft => ?_
    exact (incrementRest_takes start left hu).imp fun _ ha => ha ▸ hleft
  rw [binaryTerm]
  refine Takes.bind_at rfl (Takes.bind_token rfl (Takes.bind_last hunary fun left hleft => ?_))
  rw [binaryRest_eq]
  refine Takes.repeatFrom fun fuel hfuel => ?_
  exact Takes.iterate_nothing (binaryStep_takes_nothing hctx _ left hstops) hleft (by omega)

theorem argument_takes_name (v : VariableName) (hu : u = .punct .comma ∨ u = .punct .rightParen) :
    Takes (argument (.ofDepth (n + 2)) ctx) [v.token] (u :: after)
      fun x => ∃ start stop, x = .item (.ident v.text start stop) := by
  have hcloses : u.closes = true := by
    rcases hu with rfl | rfl <;> rfl
  have hends := Token.endsOperands_of_closes hcloses
  have hstops : u.Stops 0 := Token.stops_of_endsOperands hends
  have hterm : Takes (assignmentTerm (.ofDepth (n + 1)) ctx.inner)
      ((Phrase.name v).tokens ++ []) (u :: after)
      fun t => ∃ start stop, t = .ident v.text start stop := by
    refine Phrase.Opens.assignmentTerm_takes (c := .name v) nofun (by simp [Phrase.tokens])
      hends rfl ?_
    rw [operatorsTerm, List.append_nil]
    refine Takes.bind_start fun start => Takes.bind_last
      (binaryTerm_takes_name v ctx.ordinary_inner (Token.endsOperand_of_endsOperands hends) hstops)
      fun left hleft => ?_
    refine assignmentRest_takes start left hends rfl ?_
    exact (conditionalRest_takes_nothing left hcloses).imp fun _ ha => ha ▸ hleft
  rw [argument]
  refine Takes.bind_eat_absent rfl rfl (Takes.bind_last hterm ?_)
  rintro _ ⟨start, stop, rfl⟩
  exact Takes.pure ⟨start, stop, rfl⟩

/-- Names in parentheses. -/
theorem enclosed_takes_names (params : List VariableName) :
    Takes (enclosed (.ofDepth (n + 2)) ctx) (parens (commas (paramRows params))) (u :: after)
      fun r => List.Forall₂ (fun v x => ∃ start stop, x = .item (.ident v.text start stop))
        params r.1 ∧ r.2 = false := by
  rw [enclosed, parens]
  refine Takes.bind_expect (by simp) ?_
  exact Takes.delimited (by decide) params (fun v _ w later hw => argument_takes_name v hw)
    fun v _ => ⟨v.token, [], rfl, rfl⟩

/-- Names are parameters, and there is no field among them. -/
theorem parameters_of_names {params : List VariableName} {xs : List Element}
    (h : List.Forall₂ (fun v x => ∃ start stop, x = .item (.ident v.text start stop)) params xs) :
    elementTargets? Term.isName false xs = some 0 ∧
      parameterNames xs = params.map fun v => some v.text := by
  induction h with
  | nil => exact ⟨rfl, rfl⟩
  | cons hx _ ih =>
    obtain ⟨start, stop, rfl⟩ := hx
    refine ⟨?_, congrArg _ ih.2⟩
    rw [elementTargets?, ih.1]
    rfl

/-- Names in parentheses before an arrow are the parameters of a function. -/
theorem parenTerm_eq_arrowRest (params : List VariableName) {d : Cursor} {tail : List Char}
    (hd : d.At (parens (commas (paramRows params)) ++ .punct .arrow :: after) tail) :
    ∃ e, parenTerm (.ofDepth (n + 2)) ctx d =
        arrowRest (.ofDepth (n + 2)) ctx d.current.start false
          (params.map fun v => some v.text) e ∧
      e.At (.punct .arrow :: after) tail ∧ e.pending = d.pending ∧ e.exported = d.exported := by
  obtain ⟨⟨xs, trailing⟩, e, henclosed, ⟨hxs, rfl : trailing = false⟩, he, hpending, hexported⟩ :=
    (enclosed_takes_names params : Takes (enclosed (.ofDepth (n + 2)) ctx) _ _ _) d tail hd
  obtain ⟨htargets, hnames⟩ := parameters_of_names hxs
  refine ⟨e, ?_, he, hpending, hexported⟩
  rw [parenTerm_eq]
  refine (bind_eq_bind (q := pure (xs, false)) henclosed _).trans ?_
  show (if isPunct .arrow e.current.token then _ else _ : Reader Term) e = _
  have hhead : headNames d.pending xs false e = some (params.map fun v => some v.text, e) := by
    have hsame : d.pending + (e.pending - d.pending - 0) = e.pending := by omega
    rw [headNames, htargets, hnames]
    show some (_, { e with pending := d.pending + (e.pending - d.pending - 0) }) = _
    rw [hsame]
  rw [he.token_eq, show isPunct .arrow (.punct .arrow) = true from rfl, if_pos rfl]
  exact bind_eq_bind (q := pure (params.map fun v => some v.text)) hhead _

theorem Phrase.isPunct_leftBrace_first : (c : Phrase) → isPunct .leftBrace c.first = c.opensBrace
  | .null | .bool true | .bool false | .number _ | .str _ | .name _ | .array _ | .object _
  | .group _ | .arrow _ _ | .lambda _ _ => rfl
  | .unary sign _ => by
    have h := sign.reads
    unfold unaryOp? at h
    split at h
    all_goals first | (rename_i heq; rw [first, heq]; rfl) | cases h
  | .member owner _ | .index owner _ | .call owner _ | .binary _ owner _
  | .conditional owner _ _ => owner.isPunct_leftBrace_first

/-- The term of a function whose parameters are names. -/
theorem Term.Means.arrow {t : Term} {body : Phrase} (ht : t.Means body) (start : Nat)
    (params : List VariableName) :
    (Term.arrow start (params.map fun v => some v.text) [.expression t]).Means
      (.arrow params body) := by
  refine ⟨fun bound => ?_, fun _ => rfl, fun _ => rfl⟩
  have hparams :
      (params.map fun v => some v.text).mapM id = some (params.map VariableName.text) := by
    induction params with
    | nil => rfl
    | cons v params ih =>
      rw [List.map_cons, List.mapM_cons, ih]
      rfl
  obtain ⟨refs, ht⟩ := ht.denotes (params.map VariableName.text ++ bound)
  refine ⟨refs ++ [], ?_⟩
  rw [Expr.ofTerm, hparams]
  dsimp only
  rw [Expr.ofStatements, ht]
  rfl

theorem arrowRest_takes {body : Phrase} (hbody : body.ReadsAssignment)
    (hbrace : body.opensBrace = false) (params : List VariableName) (hn : body.tokens.length < n)
    (hctx : ctx.Ordinary) (start : Nat) (hu : u.closes = true) :
    Takes (arrowRest (.ofDepth n) ctx start false (params.map fun v => some v.text))
      (.punct .arrow :: body.tokens) (u :: after) (Term.Means · (.arrow params body)) := by
  obtain ⟨rest, htokens⟩ := body.tokens_eq_cons
  have hinside : { ctx with await := false, yield := false, body := true : Context }.Ordinary :=
    ⟨hctx.noIn, hctx.decorator⟩
  rw [arrowRest]
  refine Takes.bind_newline rfl (Takes.bind_require rfl (Takes.bind_expect (by simp) ?_))
  refine Takes.bind_at (by rw [htokens]; rfl) ?_
  rw [body.isPunct_leftBrace_first, hbrace]
  refine Takes.bind_last (hbody n hn _ hinside u after hu) fun t ht => ?_
  exact Takes.pure (ht.arrow start params)

/-- A function whose body is an expression. -/
theorem Phrase.ReadsAssignment.arrow {body : Phrase} (hbody : body.ReadsAssignment)
    (hbrace : body.opensBrace = false) (params : List VariableName) :
    (Phrase.arrow params body).ReadsAssignment := by
  intro n hn ctx hctx u after hu
  rw [tokens, List.length_append, List.length_cons, parens, List.length_cons,
    List.length_append, List.length_singleton] at hn
  obtain ⟨n, rfl⟩ : ∃ k, n = k + 3 := ⟨n - 3, by omega⟩
  refine Takes.bind_token rfl ?_
  show Takes (parenTerm (.ofDepth (n + 2)) ctx) _ _ _
  intro d tail hd
  rw [tokens, List.append_assoc] at hd
  obtain ⟨e, hparen, he, hpending, hexported⟩ := parenTerm_eq_arrowRest params hd
  obtain ⟨t, c, harrow, ht, hc, hpending', hexported'⟩ :=
    arrowRest_takes (n := n + 2) hbody hbrace params (by omega) hctx d.current.start hu e tail he
  exact ⟨t, c, hparen.trans harrow, ht, hc, hpending'.trans hpending, hexported'.trans hexported⟩

/-- A function of one parameter without parentheses. -/
theorem Phrase.ReadsAssignment.lambda {body : Phrase} (hbody : body.ReadsAssignment)
    (hbrace : body.opensBrace = false) (v : VariableName) :
    (Phrase.lambda v body).ReadsAssignment := by
  intro n hn ctx hctx u after hu
  obtain ⟨n, rfl⟩ : ∃ k, n = k + 1 := ⟨n - 1, by omega⟩
  rw [tokens, List.length_cons, List.length_cons] at hn
  have hyield : (v.text == "yield") = false := beq_eq_false_iff_ne.mpr (v.text_ne (by decide))
  have hasync : (v.text == "async") = false := beq_eq_false_iff_ne.mpr (v.text_ne (by decide))
  refine Takes.bind_token rfl ?_
  show Takes (do
    if v.text == "yield" && (ctx.yield || isOperandStart (← lookahead)) then yieldTerm _ ctx
    else if v.text == "async" then asyncTerm _ ctx
    else operatorsTerm (.ofDepth n) ctx) _ _ _
  refine Takes.bind_lookahead rfl fun l _ => ?_
  simp only [hyield, hasync, Bool.false_and, Bool.false_eq_true, if_false]
  rw [operatorsTerm]
  refine Takes.bind_start fun start => ?_
  show Takes _ ([v.token] ++ .punct .arrow :: body.tokens) _ _
  have hstops : (Token.punct .arrow).Stops 0 := fun _ _ h => absurd h (Option.some_ne_none _).symm
  refine Takes.bind (binaryTerm_takes_name v hctx rfl hstops) ?_
  rintro _ ⟨_, _, rfl⟩
  refine Takes.bind_token rfl ?_
  refine (arrowRest_takes hbody hbrace [v] (by omega) hctx start hu).imp fun t ht => ?_
  exact ⟨ht.denotes, fun _ => ht.isAndOr rfl, fun h => absurd h (by decide : 0 ≠ 14)⟩

/-! ## All phrases -/

/-- How a phrase is read, by how tightly its parts are bound together. -/
structure Phrase.Reads (c : Phrase) : Prop where
  chain : c.rank = 14 → c.ReadsChain
  operand : 13 ≤ c.rank → c.ReadsOperand
  operands : 1 ≤ c.rank → c.ReadsOperands
  opens : 1 ≤ c.rank → c.Opens
  assignment : c.ReadsAssignment

theorem Phrase.ReadsAssignment.reads (h : c.ReadsAssignment) (hrank : c.rank = 0) : c.Reads where
  chain hc := by omega
  operand hc := by omega
  operands hc := by omega
  opens hc := by omega
  assignment := h

theorem Phrase.ReadsOperands.reads (h : c.ReadsOperands) (hrank : 1 ≤ c.rank ∧ c.rank ≤ 12)
    (hopens : c.Opens) : c.Reads where
  chain hc := by omega
  operand hc := by omega
  operands _ := h
  opens _ := hopens
  assignment := h.readsAssignment hrank.1 hopens

theorem Phrase.ReadsOperand.reads (h : c.ReadsOperand) (hrank : c.rank = 13) (hopens : c.Opens) :
    c.Reads where
  chain hc := by omega
  operand _ := h
  operands _ := h.readsOperands
  opens _ := hopens
  assignment := h.readsOperands.readsAssignment (by omega) hopens

theorem Phrase.ReadsChain.reads (h : c.ReadsChain) (hc : c.wellFormed = true) (hrank : c.rank = 14)
    (hopens : c.Opens) : c.Reads where
  chain _ := h
  operand _ := h.readsOperand hc hrank
  operands _ := (h.readsOperand hc hrank).readsOperands
  opens _ := hopens
  assignment := (h.readsOperand hc hrank).readsOperands.readsAssignment (by omega) hopens

/-- The parts of a link are bound to what it is a link of. -/
theorem Phrase.Reads.link {d : Phrase} {ls : List Token} (h : c.Reads) (hrank : c.rank = 14)
    (hchain : c.ReadsChain → d.ReadsChain) (hd : d.wellFormed = true) (hd14 : d.rank = 14)
    (hfirst : d.first = c.first) (htokens : d.tokens = c.tokens ++ ls)
    (hls : ls.head? ≠ some (.punct .arrow)) : d.Reads :=
  (hchain (h.chain hrank)).reads hd hd14 ((h.opens (by omega)).append hfirst htokens hls)

mutual

/-- Every phrase with its parentheses is read as what it denotes. -/
theorem Phrase.reads : (c : Phrase) → c.wellFormed = true → c.Reads
  | .null, hc => Phrase.readsPrimary_null.readsChain.reads hc rfl nofun
  | .bool b, hc => (Phrase.readsPrimary_bool b).readsChain.reads hc rfl (by cases b <;> exact nofun)
  | .number x, hc => (Phrase.readsPrimary_number x).readsChain.reads hc rfl nofun
  | .str s, hc => (Phrase.readsPrimary_str s).readsChain.reads hc rfl nofun
  | .name v, hc => (Phrase.readsPrimary_name v).readsChain.reads hc rfl nofun
  | .array items, hc => by
    have hitems c hmem := (reads_of_all items hc c hmem).assignment
    exact (Phrase.readsPrimary_array hitems).readsChain.reads hc rfl nofun
  | .object fields, hc =>
    (Phrase.readsPrimary_object (reads_of_fields fields hc)).readsChain.reads hc rfl nofun
  | .group items, hc => by
    have hall := hc
    rw [Phrase.wellFormed, Bool.and_eq_true, Bool.not_eq_true', List.isEmpty_eq_false_iff] at hall
    have hitems c hmem := (reads_of_all items hall.2 c hmem).assignment
    have hchain := (Phrase.readsPrimary_group hitems hall.1).readsChain
    exact hchain.reads hc rfl (Phrase.opens_group hall.1 hitems)
  | .member owner name, hc => by
    have hall := hc
    rw [Phrase.wellFormed, Bool.and_eq_true, beq_iff_eq] at hall
    exact (owner.reads hall.2).link hall.1 (·.member name) hc rfl rfl rfl nofun
  | .index owner key, hc => by
    have hall := hc
    rw [Phrase.wellFormed, Bool.and_eq_true, Bool.and_eq_true, beq_iff_eq] at hall
    have hkey := (key.reads hall.2).assignment
    exact (owner.reads hall.1.2).link hall.1.1 (·.index hkey) hc rfl rfl rfl nofun
  | .call callee arguments, hc => by
    have hall := hc
    rw [Phrase.wellFormed, Bool.and_eq_true, Bool.and_eq_true, beq_iff_eq] at hall
    have hitems c hmem := (reads_of_all arguments hall.2 c hmem).assignment
    exact (callee.reads hall.1.2).link hall.1.1 (·.call hitems) hc rfl rfl rfl nofun
  | .unary sign argument, hc => by
    rw [Phrase.wellFormed, Bool.and_eq_true, decide_eq_true_eq] at hc
    refine (((argument.reads hc.2).operand hc.1).unary sign).reads rfl fun hfirst => ?_
    have hsign := sign.reads
    rw [show sign.token = .punct .leftParen from hfirst] at hsign
    exact nomatch hsign
  | .binary o left right, hc => by
    rw [Phrase.wellFormed, Bool.and_eq_true, Bool.and_eq_true] at hc
    have hcases := Connective.joins_cases hc.1.1
    have hpos := o.rank_pos
    have hl := left.reads hc.1.2
    have hr := right.reads hc.2
    have hoperands := (hl.operands (by omega)).binary (hr.operands (by omega)) hc.1.1
    refine hoperands.reads ⟨hpos, o.rank_le⟩ ((hl.opens (by omega)).append rfl rfl ?_)
    intro harrow
    have ho := o.reads
    -- An arrow behind a parenthesis would make parameters of the left operand.
    rw [show o.token = .punct .arrow from Option.some.inj harrow] at ho
    exact nomatch ho
  | .conditional test yes no, hc => by
    rw [Phrase.wellFormed, Bool.and_eq_true, Bool.and_eq_true, Bool.and_eq_true, bne_iff_ne] at hc
    have hrank : 1 ≤ test.rank := Nat.pos_of_ne_zero hc.1.1.1
    have htest := test.reads hc.1.1.2
    have hyes := (yes.reads hc.1.2).assignment
    have hno := (no.reads hc.2).assignment
    exact ((htest.operands hrank).conditional hrank (htest.opens hrank) hyes hno).reads rfl
  | .arrow params body, hc => by
    rw [Phrase.wellFormed, Bool.and_eq_true, Bool.not_eq_true'] at hc
    exact ((body.reads hc.2).assignment.arrow hc.1 params).reads rfl
  | .lambda param body, hc => by
    rw [Phrase.wellFormed, Bool.and_eq_true, Bool.not_eq_true'] at hc
    exact ((body.reads hc.2).assignment.lambda hc.1 param).reads rfl

theorem reads_of_all : (items : List Phrase) → wellFormedAll items = true → ∀ c ∈ items, c.Reads
  | [], _, _, hmem => absurd hmem List.not_mem_nil
  | d :: rest, hall, c, hmem => by
    rw [wellFormedAll, Bool.and_eq_true] at hall
    rcases List.mem_cons.mp hmem with heq | hmem
    · rw [heq]
      exact d.reads hall.1
    · exact reads_of_all rest hall.2 c hmem

theorem reads_of_fields : (fields : List Field) → wellFormedFields fields = true →
    ∀ f ∈ fields, ∀ name value, f = .pair name value → value.ReadsAssignment
  | [], _, _, hmem, _, _, _ => absurd hmem List.not_mem_nil
  | g :: rest, hall, f, hmem, name, value, hf => by
    rw [wellFormedFields, Bool.and_eq_true] at hall
    rcases List.mem_cons.mp hmem with heq | hmem
    · match g, hall with
      | .pair name' value', hall =>
        rw [heq] at hf
        cases hf
        exact (value.reads hall.1).assignment
      | .shorthand v, _ =>
        rw [heq] at hf
        exact nomatch hf
    · exact reads_of_fields rest hall.2 f hmem name value hf

end

end UiTemplate.Script
