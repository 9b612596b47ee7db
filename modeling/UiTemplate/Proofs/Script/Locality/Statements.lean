import UiTemplate.Proofs.Script.Locality.Operators
import UiTemplate.Script.Grammar

/-!
# Statements in other surroundings

A statement ends before the ending of the text it is in, and is read alike whatever the ending.
With that, the rules of the grammar follow themselves, at greater depths too
(`Rules.ofDepth_follows`): no part of a text depends on what stands behind the text.
-/

namespace UiTemplate.Script

open Reader

variable {e : Ending} {E : Prop} {r r' : Rules} {ctx ctx' : Context}

/-! ## Words ahead -/

/-- Whether a variable that is disposed of is named here. -/
def namesUsing (loop : Bool) (l : Lexeme) : Bool :=
  namesVariable l && !(loop && isKeyword "of" l.token)

/-- The answer of `usingWords` where these tokens stand. -/
def usingAt (loop : Bool) (t : Token) (k l : Lexeme) : Nat :=
  if isKeyword "using" t && namesUsing loop k then 1
  else if isKeyword "await" t && isKeyword "using" k.token && !k.newline && namesUsing loop l then 2
  else 0

theorem usingWords_eq (loop : Bool) (c : Cursor) : usingWords loop c =
    some (usingAt loop c.current.token c.advanced.current c.advanced.advanced.current, c) := by
  show (if isKeyword "using" c.current.token && namesUsing loop c.advanced.current then pure 1 else do
      if (← atWord "await") && isKeyword "using" c.advanced.current.token &&
        !c.advanced.current.newline && namesUsing loop c.advanced.advanced.current then return 2
      else return 0 : Reader Nat) c = _
  unfold usingAt
  split
  · rfl
  · show (if isKeyword "await" c.current.token && isKeyword "using" c.advanced.current.token &&
        !c.advanced.current.newline && namesUsing loop c.advanced.advanced.current then pure 2
      else pure 0 : Reader Nat) c = _
    split <;> rfl

/-- How many words a declaration with `using` begins with can be seen from three tokens. -/
theorem usingWords_follows (loop : Bool) {m : Nat → Stop} :
    FollowsBy e E m id (usingWords loop) (usingWords loop) := by
  have hnames {l l' : Lexeme} (h : Peeked e l l') : namesUsing loop l = namesUsing loop l' :=
    h.eq (P := fun t newline => (t.isBindingWord && !newline) && !(loop && isKeyword "of" t))
      fun _ _ _ _ => rfl
  refine .read_words (x := 0) (usingWords_eq loop) ?_ ?_
  · intro t k l ht
    cases t with
    | word name escaped => exact absurd rfl (ht name escaped)
    | _ => rfl
  · intro name escaped k l k' l' hk hl
    have husing := hk.eq (P := fun t newline => isKeyword "using" t && !newline) (by decide)
    have hsecond : (isKeyword "using" k.token && !k.newline && namesUsing loop l) =
        (isKeyword "using" k'.token && !k'.newline && namesUsing loop l') := by
      simp only [husing]
      cases hword : isKeyword "using" k.token with
      | false =>
        rw [hword, Bool.false_and] at husing
        rw [← husing, Bool.false_and, Bool.false_and]
      | true =>
        refine congrArg (_ && ·) (hnames (hl ?_))
        cases htoken : k.token with
        | word name escaped => exact Token.isPlain_word name escaped
        | _ =>
          rw [htoken] at hword
          cases hword
    unfold usingAt
    simp only [Bool.and_assoc] at hsecond ⊢
    rw [hnames hk, hsecond]

theorem atAsyncFunction_follows {m : Bool → Stop} :
    FollowsBy e E m id atAsyncFunction atAsyncFunction := by
  refine .read_words (x := false) (G := fun t k _ => isKeyword "async" t &&
    isKeyword "function" k.token && !k.newline) (fun _ => rfl) ?_ ?_
  · intro t k l ht
    cases t with
    | word name escaped => exact absurd rfl (ht name escaped)
    | _ => rfl
  · intro name escaped k l k' l' hk _
    have hfunction := hk.eq (P := fun t newline => isKeyword "function" t && !newline) (by decide)
    simp only [Bool.and_assoc]
    exact congrArg (_ && ·) hfunction

/-- Whether an import has a phase: a question about the next two tokens. -/
theorem atPhase_follows {m : Bool → Stop} : FollowsBy e E m id atPhase atPhase := by
  refine .read_words (x := false) (G := fun t k l =>
    isKeyword "defer" t && isPunct .star k.token || isKeyword "source" t && (k.token.isBindingWord &&
      (!isKeyword "from" k.token || isKeyword "from" l.token))) (fun _ => rfl) ?_ ?_
  · intro t k l ht
    cases t with
    | word name escaped => exact absurd rfl (ht name escaped)
    | _ => rfl
  · intro name escaped k l k' l' hk hl
    have hstar := hk.eq (P := fun t _ => isPunct .star t) (by decide)
    have hnamed : (k.token.isBindingWord && (!isKeyword "from" k.token ||
        isKeyword "from" l.token)) = (k'.token.isBindingWord && (!isKeyword "from" k'.token ||
          isKeyword "from" l'.token)) := by
      rcases hk.token_eq with htoken | ⟨hparen, hmark⟩
      · rw [htoken]
        cases hk : k.token with
        | word name escaped =>
          have hfrom := (hl (hk ▸ Token.isPlain_word name escaped)).eq
            (P := fun t _ => isKeyword "from" t) (by decide)
          simp only [hfrom]
        | _ => rfl
      · rw [hparen, hmark]
        rfl
    simp only [hstar, hnamed]

theorem atCollection_follows {m : Bool → Stop} :
    FollowsBy e E m id atCollection atCollection :=
  .bind_atWord _ fun _ => .bind_atWord _ fun _ => .pure rfl

theorem atClauseEnd_follows : Follows e E .inside id atClauseEnd atClauseEnd :=
  .bind_at _ (fun _ => .bind_atWord _ fun _ => .bind_atWord _ fun _ => .pure rfl) (.inr .inside)

theorem atImportTerm_follows {name : String} {escaped : Bool} {m : Bool → Stop} :
    FollowsFrom e E (.word name escaped) m id atImportTerm atImportTerm :=
  .bind_lookahead (Token.isPlain_word name escaped) fun _ _ hl => FollowsBy.from' (.pure
    (hl.eq (P := fun t _ => isPunct .dot t || isPunct .leftParen t) (by decide)))

theorem advanceBy_follows {m : Unit → Stop} :
    (n : Nat) → FollowsBy e E m id (advanceBy n) (advanceBy n)
  | 0 => .pure rfl
  | n + 1 => .bind_atEnd .advance fun _ _ _ => advanceBy_follows n

/-! ## Modules -/

theorem stringLiteral_follows : Follows e E .inside id stringLiteral stringLiteral := by
  refine .bind_token (fun t => ?_) (.inl .inside)
  split
  · exact .advance
  · exact .fail

/-- What an import asks of its module. -/
theorem moduleAttributes_follows : Follows e E .inside id moduleAttributes moduleAttributes := by
  have hattribute : Follows e E .inside id moduleAttribute moduleAttribute := by
    refine .bind_token (fun t => ?_) (.inl .inside)
    have hentry : Follows e E .inside id
        (advance >>= fun _ => expect .colon >>= fun _ => stringLiteral)
        (advance >>= fun _ => expect .colon >>= fun _ => stringLiteral) :=
      .bind .advance fun _ _ _ => .bind (.expect _) fun _ _ _ => stringLiteral_follows
    split
    · exact hentry
    · exact hentry
    · exact .fail
  refine .bind_atWord _ fun a => .bind_atWord _ fun b => .bind_id .newline fun line => ?_
  split
  · refine .bind .advance fun _ _ _ => .bind (.expect _) fun _ _ _ => ?_
    exact .bind (delimited_follows_id _ hattribute) fun _ _ _ => .pure rfl
  · exact .pure rfl

theorem fromModule_follows : Follows e E .inside id fromModule fromModule :=
  .bind (.expectWord _) fun _ _ _ => .bind stringLiteral_follows fun _ _ _ =>
    .bind moduleAttributes_follows fun _ _ _ => .endStatement

theorem exportedName_follows : Follows e E .inside id exportedName exportedName := by
  refine .bind_token (fun t => ?_) (.inl .inside)
  split
  · exact .bind .advance fun _ _ _ => .pure rfl
  · exact .bind .advance fun _ _ _ => .pure rfl
  · exact .fail

theorem exportItem_follows : Follows e E .inside id exportItem exportItem := by
  refine .bind_id exportedName_follows fun name => .bind_eatWord _ fun b => ?_
  split
  · exact .bind_id exportedName_follows fun _ => .pure rfl
  · exact .pure rfl

/-- The names that an export lists. -/
theorem exportItems_follows : Follows e E .inside id exportItems exportItems := by
  refine .bind (.expect _) fun _ _ _ => .bind_id (delimited_follows_id _ exportItem_follows)
    fun items => .bind (.exportNames _) fun _ _ _ => .bind_atWord _ fun b => ?_
  split
  · exact fromModule_follows
  · exact .bind (.require_self _) fun _ _ _ => .endStatement

theorem exportAll_follows : Follows e E .inside id exportAll exportAll := by
  refine .bind (.expect _) fun _ _ _ => .bind_eatWord _ fun b => ?_
  split
  · refine .bind_id exportedName_follows fun name => ?_
    exact .bind (.exportName _) fun _ _ _ => fromModule_follows
  · exact fromModule_follows

section Imports

variable (hctx : ctx.Eases E ctx')

include hctx

theorem localName_follows : Follows e E .inside id (localName ctx) (localName ctx') := by
  refine .bind_token (fun t => ?_) (.inl .inside)
  split
  · exact .bind (hctx.requireName _) fun _ _ _ => .advance
  · exact .fail

theorem importItems_follows : Follows e E .inside id (importItems ctx) (importItems ctx') := by
  have hitem : Follows e E .inside id (importItem ctx) (importItem ctx') := by
    refine .bind_id exportedName_follows fun name => .bind_eatWord _ fun b => ?_
    split
    · exact localName_follows hctx
    · cases name with
      | word name => exact hctx.requireName name
      | str name => exact .fail
  refine .bind_eat _ ?_ ?_ (.inr .inside)
  · exact .bind (.expectWord _) fun _ _ _ => localName_follows hctx
  · refine .bind (.expect _) fun _ _ _ => ?_
    exact .bind (delimited_follows_id _ hitem) fun _ _ _ => .pure rfl

/-- What is imported, and from where. -/
theorem importRest_follows : Follows e E .inside id (importRest ctx) (importRest ctx') := by
  have hdefault : Follows e E .inside id (defaultImport ctx) (defaultImport ctx') :=
    .bind (localName_follows hctx) fun _ _ _ =>
      .bind_eat _ (importItems_follows hctx) (.pure rfl) (.inr .inside)
  refine .bind_token (fun t => ?_) (.inl .inside)
  split
  · refine .bind .advance fun _ _ _ => ?_
    exact .bind moduleAttributes_follows fun _ _ _ => .endStatement
  · refine .bind_id atPhase_follows fun phase => .when phase .advance ?_
    refine .bind_token (fun t => ?_) (.inl .inside)
    split
    · exact .bind hdefault fun _ _ _ => fromModule_follows
    · exact .bind (importItems_follows hctx) fun _ _ _ => fromModule_follows

end Imports

section Statements

variable (hr : r.Follows e r') (hctx : ctx.Eases E ctx')

include hr hctx

/-! ## Declarations -/

/-- A name or a pattern, and its value. -/
theorem declarator_follows (d : Declaration) :
    Follows e E .inside id (declarator r ctx d) (declarator r' ctx' d) := by
  refine .bind_id (hr.binding hctx) fun declared => .bind (.require_self _) fun _ _ _ => ?_
  exact .bind_id (optionalValue_follows hr hctx) fun _ => .pure rfl

theorem declarators_follows (d : Declaration) :
    Follows e E .inside id (declarators r ctx d) (declarators r' ctx' d) := by
  refine Follows.repeatFrom (v := id) (fun vars vars' h => ?_) rfl
  obtain rfl : vars = vars' := h
  refine .bind_id (declarator_follows hr hctx d) fun v => ?_
  exact .bind_eat _ (.pure rfl) (.pure rfl) (.inr .inside)

/-- The declarations of a statement up to its end. -/
theorem declarationRest_follows (d : Declaration) :
    Follows e E .inside id (declarationRest r ctx d) (declarationRest r' ctx' d) :=
  .bind_id (declarators_follows hr hctx d) fun _ => .bind (.require_self _) fun _ _ _ =>
    .bind .endStatement fun _ _ _ => .pure rfl

/-- A function that is declared. -/
theorem functionDeclaration_follows (async named : Bool) : Follows e E .inside id
    (functionDeclaration r ctx async named) (functionDeclaration r' ctx' async named) :=
  .bind (.expectWord _) fun _ _ _ => .bind_id (functionAfterKeyword_follows hr hctx _ _) fun _ =>
    .bind (.require_self _) fun _ _ _ => .pure rfl

theorem classDeclaration_follows :
    Follows e E .inside id (classDeclaration r ctx) (classDeclaration r' ctx') :=
  .bind (.expectWord _) fun _ _ _ => classAfterKeyword_follows hr hctx

/-! ## Exports -/

theorem exportedClass_follows (decorated : Bool) : Follows e E .inside id
    (exportedClass r ctx decorated) (exportedClass r' ctx' decorated) :=
  .bind_id (decorators_follows hr hctx) fun _ => .bind (.require_self _) fun _ _ _ =>
    classDeclaration_follows hr hctx

/-- A default export: a function, a class or an expression. -/
theorem exportDefault_follows (decorated : Bool) : Follows e E .inside id
    (exportDefault r ctx decorated) (exportDefault r' ctx' decorated) := by
  refine .bind (.exportName _) fun _ _ _ => ?_
  refine .bind_at _ (fun sign => .bind_atWord _ fun word => ?_) (.inr .inside)
  split
  · exact .bind (exportedClass_follows hr hctx decorated) fun _ _ _ => .pure rfl
  · refine .bind_atWord _ fun b => ?_
    split
    · exact .bind (functionDeclaration_follows hr hctx _ _) fun _ _ _ => .pure rfl
    · refine .bind_id atAsyncFunction_follows fun async => ?_
      split
      · refine .bind .advance fun _ _ _ => ?_
        exact .bind (functionDeclaration_follows hr hctx _ _) fun _ _ _ => .pure rfl
      · exact .bind (hr.assignment_inside hctx) fun _ _ _ => .endStatement

/-- An export of what is declared. -/
theorem exportedDeclaration_follows (decorated : Bool) : Follows e E .inside id
    (exportedDeclaration r ctx decorated) (exportedDeclaration r' ctx' decorated) := by
  refine .bind_at _ (fun sign => .bind_atWord _ fun word => ?_) (.inr .inside)
  split
  · exact .bind_id (exportedClass_follows hr hctx decorated) fun _ => .pure rfl
  · refine .bind_atWord _ fun b => ?_
    split
    · exact .bind_id (functionDeclaration_follows hr hctx _ _) fun _ => .pure rfl
    · refine .bind_id atAsyncFunction_follows fun async => ?_
      split
      · refine .bind .advance fun _ _ _ => ?_
        exact .bind_id (functionDeclaration_follows hr hctx _ _) fun _ => .pure rfl
      · refine .bind_eatWord _ fun b => ?_
        split
        · exact declarationRest_follows hr hctx _
        · refine .bind_eatWord _ fun b => ?_
          split
          · exact declarationRest_follows hr hctx _
          · refine .bind_eatWord _ fun b => ?_
            split
            · exact declarationRest_follows hr hctx _
            · exact .fail

theorem exportRest_follows (decorated : Bool) :
    Follows e E .inside id (exportRest r ctx decorated) (exportRest r' ctx' decorated) := by
  refine .bind_eatWord _ fun b => ?_
  split
  · exact exportDefault_follows hr hctx decorated
  · refine .bind_at _ (fun star => ?_) (.inr .inside)
    split
    · exact exportAll_follows
    · refine .bind_at _ (fun brace => ?_) (.inr .inside)
      split
      · exact exportItems_follows
      · exact .bind_id (exportedDeclaration_follows hr hctx decorated) fun _ => .exportNames _

/-! ## Loops -/

theorem condition_follows : Follows e E .inside id (condition r ctx) (condition r' ctx') :=
  .bind (.expect _) fun _ _ _ => .bind (expression_follows hr hctx) fun _ _ _ => .expect _

theorem optionalExpression_follows (close : Punct) : Follows e E .inside id
    (optionalExpression r ctx close) (optionalExpression r' ctx' close) := by
  refine .bind_at _ (fun b => ?_) (.inr .inside)
  split
  · exact .bind (expression_follows hr hctx.inner) fun _ _ _ => .expect _
  · exact .expect _

/-- The parts of a loop that counts. -/
theorem countingRest_follows (awaited : Bool) :
    Follows e E .inside id (countingRest r ctx awaited) (countingRest r' ctx' awaited) :=
  .bind (.require_self _) fun _ _ _ => .bind (.expect _) fun _ _ _ =>
    .bind (optionalExpression_follows hr hctx _) fun _ _ _ => optionalExpression_follows hr hctx _

/-- The collection that a loop runs through. -/
theorem collectionRest_follows (awaited : Bool) :
    Follows e E .inside id (collectionRest r ctx awaited) (collectionRest r' ctx' awaited) := by
  refine .bind_eatWord _ fun b => ?_
  split
  · exact .bind (hr.assignment_inside hctx) fun _ _ _ => .expect _
  · refine .bind (.require_self _) fun _ _ _ => .bind (.expectWord _) fun _ _ _ => ?_
    exact .bind (expression_follows hr hctx) fun _ _ _ => .expect _

/-- The head of a loop that declares its variable. -/
theorem declaringHead_follows (awaited : Bool) (d : Declaration) : Follows e E .inside id
    (declaringHead r ctx awaited d) (declaringHead r' ctx' awaited d) := by
  have hinside : Context.Eases E { ctx with noIn := true } { ctx' with noIn := true } :=
    ⟨rfl, hctx.await, hctx.yield, hctx.decorator⟩
  refine .bind_id (declarators_follows hr hinside d) fun vars => ?_
  refine .bind_id atCollection_follows fun b => ?_
  split
  · refine .bind_atWord _ fun b => .bind (.require_self _) fun _ _ _ => ?_
    exact collectionRest_follows hr hctx awaited
  · exact .bind (.require_self _) fun _ _ _ => countingRest_follows hr hctx awaited

/-- The head of a loop that sets a variable that is there. -/
theorem expressionHead_follows (awaited : Bool) : Follows e E .inside id
    (expressionHead r ctx awaited) (expressionHead r' ctx' awaited) := by
  have hinside : Context.Eases E { ctx with noIn := true } { ctx' with noIn := true } :=
    ⟨rfl, hctx.await, hctx.yield, hctx.decorator⟩
  refine .bind_atWord _ fun viaLet => .bind_wordAhead _ fun b l l' hl => ?_
  have hasync : (b && isKeyword "of" l.token) = (b && isKeyword "of" l'.token) := by
    cases b with
    | false => rfl
    | true => exact congrArg (true && ·) ((hl rfl).eq (P := fun t _ => isKeyword "of" t) (by decide))
  simp only [hasync]
  refine .bind (expression_follows hr hinside) fun t t' ht => ?_
  refine .bind_id atCollection_follows fun collection => ?_
  rw [Term.target?_of_shape Term.isPlace_shape ht]
  split
  · split
    · exact .fail
    · refine .bind (.settle _) fun _ _ _ => .bind_atWord _ fun b => ?_
      exact .bind (.require_self _) fun _ _ _ => collectionRest_follows hr hctx awaited
  · exact countingRest_follows hr hctx awaited

/-- A loop does not wait, since `await` is not in the text. -/
theorem forHead_follows : Follows e E .inside id (forHead r ctx) (forHead r' ctx') := by
  let rest (r : Rules) (ctx : Context) (awaited : Bool) : Reader Unit := do
    expect .leftParen
    let disposing ← usingWords true
    if ← at? .semicolon then countingRest r ctx awaited
    else if ← eatWord "var" then declaringHead r ctx awaited .var
    else if ← eatWord "const" then declaringHead r ctx awaited .const
    else if (← atWord "let") && letDeclaresInLoop (← lookahead).token then
      advance
      declaringHead r ctx awaited .block
    else if disposing != 0 then
      advanceBy disposing
      declaringHead r ctx awaited .using
    else expressionHead r ctx awaited
  have hrest (awaited : Bool) : Follows e E .inside id (rest r ctx awaited) (rest r' ctx' awaited) := by
    have hdeclares := declaringHead_follows (E := E) hr hctx awaited
    refine .bind (.expect _) fun _ _ _ => .bind_id (usingWords_follows true) fun disposing => ?_
    refine .bind_at _ (fun b => ?_) (.inr .inside)
    split
    · exact countingRest_follows hr hctx awaited
    refine .bind_eatWord _ fun b => ?_
    split
    · exact hdeclares _
    refine .bind_eatWord _ fun b => ?_
    split
    · exact hdeclares _
    refine .if_wordAhead _ (fun l l' hl => ?_) (.bind .advance fun _ _ _ => hdeclares _) ?_
    · exact hl.eq (P := fun t _ => letDeclaresInLoop t) (by decide)
    split
    · exact .bind (advanceBy_follows _) fun _ _ _ => hdeclares _
    · exact expressionHead_follows hr hctx awaited
  refine .bind_eatWord_await ((moves_require _).bind fun _ => (hrest true).moves) ?_
  exact .bind (.require fun _ => .inl rfl) fun _ _ _ => hrest false

/-! ## Statements without an expression to keep -/

variable (hbody : ctx'.body = ctx.body)

include hbody

/-- A statement that is a part of another one. -/
theorem embedded_follows : Follows e E .inside id (embedded r ctx) (embedded r' ctx') :=
  .bind (hr.statement hctx hbody true) fun _ _ _ => .pure rfl

theorem switchClause_follows :
    Follows e E .inside id (switchClause r ctx) (switchClause r' ctx') := by
  have hstatements : Follows e E .inside id
      (expect .colon >>= fun _ => repeatFrom () fun _ => do
        if ← atClauseEnd then return .inr ()
        else
          let _ ← r.statement ctx false
          return .inl ())
      (expect .colon >>= fun _ => repeatFrom () fun _ => do
        if ← atClauseEnd then return .inr ()
        else
          let _ ← r'.statement ctx' false
          return .inl ()) := by
    refine .bind (.expect _) fun _ _ _ => Follows.repeatFrom (v := id) (fun _ _ _ => ?_) rfl
    refine .bind_id atClauseEnd_follows fun b => ?_
    split
    · exact .pure rfl
    · exact .bind (hr.statement hctx hbody false) fun _ _ _ => .pure rfl
  refine .bind_eatWord _ fun b => ?_
  split
  · exact .bind (expression_follows hr hctx) fun _ _ _ => hstatements
  · exact .bind (.expectWord _) fun _ _ _ => hstatements

/-- The clauses of a switch up to the closing brace. -/
theorem switchClauses_follows :
    Follows e E .inside id (switchClauses r ctx) (switchClauses r' ctx') := by
  refine .bind (.expect _) fun _ _ _ => Follows.repeatFrom (v := id) (fun _ _ _ => ?_) rfl
  refine .bind_eat _ (.pure rfl) ?_ (.inr .inside)
  exact .bind (switchClause_follows hr hctx hbody) fun _ _ _ => .pure rfl

/-- A block and what is done if it fails or ends. -/
theorem tryRest_follows : Follows e E .inside id (tryRest r ctx) (tryRest r' ctx') := by
  have hblock : Follows e E .inside (List.map Statement.shape) (block r ctx) (block r' ctx') :=
    block_follows hr hctx hbody
  have hfinal (caught : Bool) : Follows e E .inside id
      (do
        let final ← eatWord "finally"
        if final then
          let _ ← block r ctx
        require (caught || final))
      (do
        let final ← eatWord "finally"
        if final then
          let _ ← block r' ctx'
        require (caught || final)) := by
    refine .bind_eatWord _ fun final => ?_
    split
    · exact .bind hblock fun _ _ _ => .require_self _
    · exact .require_self _
  refine .bind hblock fun _ _ _ => .bind_eatWord _ fun caught => ?_
  split
  · refine .bind_eat _ ?_ (.bind hblock fun _ _ _ => hfinal _) (.inr .inside)
    refine .bind (hr.binding hctx) fun _ _ _ => .bind (.expect _) fun _ _ _ => ?_
    exact .bind hblock fun _ _ _ => hfinal _
  · exact hfinal _

omit hr hbody in
/-- A jump, to a label on the same line or to none. -/
theorem jumpRest_follows : Follows e E .inside id (jumpRest ctx) (jumpRest ctx') := by
  refine .bind_token (fun t => ?_) (.inl .inside)
  split
  · refine .bind_id .newline fun line => ?_
    split
    · refine .bind (hctx.requireName _) fun _ _ _ => ?_
      exact .bind .advance fun _ _ _ => .endStatement
    · exact .endStatement
  · exact .endStatement

/-- A value is returned only if it stands on the same line. -/
theorem returnRest_follows :
    Follows e E .inside Statement.shape (returnRest r ctx) (returnRest r' ctx') := by
  have hrest (bare : Bool) : Follows e E .inside Statement.shape
      (do
        if bare then
          endStatement
          return .ret none
        else
          let t ← expression r ctx.inner
          endStatement
          return .ret (some t))
      (do
        if bare then
          endStatement
          return .ret none
        else
          let t ← expression r' ctx'.inner
          endStatement
          return .ret (some t)) := by
    split
    · exact .bind .endStatement fun _ _ _ => .pure rfl
    · refine .bind (expression_follows hr hctx.inner) fun t t' ht => .bind .endStatement fun _ _ _ => ?_
      exact .pure (by simp only [Statement.shape, ht])
  refine .bind (.require fun h => .inl (hbody ▸ h)) fun _ _ _ => ?_
  refine .bind_token (fun t => ?_) (.inl .inside)
  split
  · exact hrest true
  · exact hrest true
  · exact hrest true
  · exact .bind_id .newline hrest

/-! ## Expressions and labels -/

omit hbody in
theorem expressionStatement_follows : Follows e E .inside Statement.shape
    (expressionStatement r ctx) (expressionStatement r' ctx') :=
  .bind (expression_follows hr hctx) fun _ _ h => .bind .endStatement fun _ _ _ =>
    .pure (congrArg Statement.expression h)

/-- A name with a colon behind it is a label, everything else an expression. -/
theorem labelOrExpression_follows : Follows e E .inside Statement.shape
    (labelOrExpression r ctx) (labelOrExpression r' ctx') := by
  refine .bind (expression_follows hr hctx) fun t t' ht => ?_
  have hend : Follows e E .inside Statement.shape
      (endStatement >>= fun _ => pure (.expression t))
      (endStatement >>= fun _ => pure (.expression t')) :=
    .bind .endStatement fun _ _ _ => .pure (congrArg Statement.expression ht)
  split
  · obtain ⟨start, stop, rfl⟩ := Term.eq_ident_of_shape ht.symm
    refine .bind_eat _ ?_ hend (.inr .inside)
    exact .bind (embedded_follows hr hctx hbody) fun _ _ _ => .pure rfl
  · rename_i hname
    split
    · obtain ⟨start, stop, rfl⟩ := Term.eq_ident_of_shape ht
      exact (hname _ _ _ rfl).elim
    · exact hend

omit hr hbody in
/-- Whether a declaration with `let` begins does not depend on the context. -/
theorem continuesLet_eq (t : Token) : continuesLet ctx' t = continuesLet ctx t := by
  have hinner : Context.Eases E { ctx with noIn := false } { ctx' with noIn := false } :=
    ⟨rfl, hctx.await, hctx.yield, hctx.decorator⟩
  unfold continuesLet
  simp only [operator?_eq hinner]

omit hbody in
/-- The word `let` begins a declaration or is a name, by the token behind it. -/
theorem letStatement_follows (alone : Bool) (escaped : Bool) :
    FollowsFrom e E (.word "let" escaped) (fun _ => .inside) Statement.shape
      (letStatement r ctx alone) (letStatement r' ctx' alone) := by
  refine .bind_lookahead (Token.isPlain_word _ _) fun l l' hl => FollowsBy.from' ?_
  have hcontinues := hl.eq (P := fun t _ => continuesLet ctx t) (by
    intro p hp _ _
    simp only [List.mem_cons, List.not_mem_nil, or_false] at hp
    rcases hp with rfl | rfl | rfl | rfl <;> rfl)
  have hexpression := hl.eq (P := fun t _ => isPunct .dot t || isPunct .leftParen t) (by decide)
  have hname := hl.eq (P := fun t _ => isPunct .semicolon t || (alone && !isPunct .leftBracket t))
    (by cases alone <;> decide)
  dsimp only at hcontinues hexpression hname ⊢
  rw [hcontinues, hexpression, hname, continuesLet_eq hctx]
  split
  · refine .bind (hr.assignment_inside hctx) fun t t' ht => .bind .endStatement fun _ _ _ => ?_
    exact .pure (congrArg Statement.expression ht)
  split
  · exact expressionStatement_follows hr hctx
  split
  · refine .bind (nameTerm_follows hctx _) fun t t' ht => .bind .endStatement fun _ _ _ => ?_
    exact .pure (congrArg Statement.expression ht)
  · refine .bind (.require_self _) fun _ _ _ => .bind .advance fun _ _ _ => ?_
    exact .bind (declarationRest_follows hr hctx _) fun _ _ _ => .pure rfl

/-! ## Statements -/

/-- Both readers of a statement that begins with a word, or none. -/
theorem keywordStatement_follows (alone : Bool) (word : String) :
    keywordStatement r ctx alone word = none ∧ keywordStatement r' ctx' alone word = none ∨
      ∃ p q, keywordStatement r ctx alone word = some p ∧
        keywordStatement r' ctx' alone word = some q ∧
          FollowsFrom e E (.word word false) (fun _ => .inside) id p q := by
  have hcondition := condition_follows (E := E) hr hctx
  have hembedded := embedded_follows (E := E) hr hctx hbody
  have hloop : Follows e E .inside id
      (advance >>= fun _ => condition r ctx >>= fun _ => embedded r ctx)
      (advance >>= fun _ => condition r' ctx' >>= fun _ => embedded r' ctx') :=
    .bind .advance fun _ _ _ => .bind hcondition fun _ _ _ => hembedded
  -- The statements with a word of their own, in the order in which they are told apart.
  unfold keywordStatement
  split
  all_goals first
    | exact .inl ⟨rfl, rfl⟩
    | refine .inr ⟨_, _, rfl, rfl, ?_⟩
  · refine FollowsBy.from' (.bind .advance fun _ _ _ => .bind hcondition fun _ _ _ => ?_)
    refine .bind hembedded fun _ _ _ => .bind_eatWord _ fun b => ?_
    split
    · exact hembedded
    · exact .pure rfl
  · exact hloop.from'
  · exact hloop.from'
  · refine FollowsBy.from' (.bind .advance fun _ _ _ => .bind hembedded fun _ _ _ => ?_)
    refine .bind (.expectWord _) fun _ _ _ => .bind hcondition fun _ _ _ => ?_
    exact .bind (.eat_inside _) fun _ _ _ => .pure rfl
  · refine FollowsBy.from' (.bind .advance fun _ _ _ => ?_)
    exact .bind (forHead_follows hr hctx) fun _ _ _ => hembedded
  · refine FollowsBy.from' (.bind .advance fun _ _ _ => .bind hcondition fun _ _ _ => ?_)
    exact switchClauses_follows hr hctx hbody
  · exact FollowsBy.from' (.bind .advance fun _ _ _ => tryRest_follows hr hctx hbody)
  · refine FollowsBy.from' (.bind .advance fun _ _ _ => .bind_id .newline fun line => ?_)
    refine .bind (.require_self _) fun _ _ _ => ?_
    exact .bind (expression_follows hr hctx) fun _ _ _ => .endStatement
  · exact FollowsBy.from' (.bind .advance fun _ _ _ => jumpRest_follows hctx)
  · exact FollowsBy.from' (.bind .advance fun _ _ _ => jumpRest_follows hctx)
  · exact FollowsBy.from' (.bind .advance fun _ _ _ => .endStatement)
  · refine FollowsBy.from' (.bind .advance fun _ _ _ => ?_)
    exact .bind (declarationRest_follows hr hctx _) fun _ _ _ => .pure rfl
  · refine FollowsBy.from' (.bind (.require_self _) fun _ _ _ => .bind .advance fun _ _ _ => ?_)
    exact .bind (declarationRest_follows hr hctx _) fun _ _ _ => .pure rfl
  · refine .bind_lookahead (Token.isPlain_word _ _) fun l l' hl => FollowsBy.from' ?_
    -- A generator cannot stand alone. The star behind the word is the same in both texts.
    have hstar := hl.eq (P := fun t _ => isPunct .star t) (by decide)
    simp only [hstar]
    refine .bind (.require_self _) fun _ _ _ => ?_
    exact .bind (functionDeclaration_follows hr hctx _ _) fun _ _ _ => .pure rfl
  · refine FollowsBy.from' (.bind (.require_self _) fun _ _ _ => ?_)
    exact .bind (classDeclaration_follows hr hctx) fun _ _ _ => .pure rfl
  · exact FollowsBy.from' (.bind .advance fun _ _ _ => exportRest_follows hr hctx _)

/-- Statements that begin with a word. -/
theorem wordStatement_follows (alone : Bool) (word : String) :
    FollowsFrom e E (.word word false) (fun _ => .inside) Statement.shape
      (wordStatement r ctx alone word) (wordStatement r' ctx' alone word) := by
  refine .bind_stay (usingWords_follows false).from' (fun c => ⟨_, usingWords_eq false c⟩)
    fun disposing disposing' (h : disposing = disposing') => ?_
  subst h
  split
  · exact FollowsBy.from' (.bind .advance fun _ _ _ => returnRest_follows hr hctx hbody)
  split
  · rename_i hlet
    obtain rfl : word = "let" := by simpa using hlet
    exact letStatement_follows hr hctx alone false
  refine .bind_stay atAsyncFunction_follows.from' (fun c => ⟨_, rfl⟩) fun async async'
    (h : async = async') => ?_
  subst h
  split
  · refine FollowsBy.from' (.bind (.require_self _) fun _ _ _ => .bind .advance fun _ _ _ => ?_)
    exact .bind (functionDeclaration_follows hr hctx _ _) fun _ _ _ => .pure rfl
  split
  · refine FollowsBy.from' (.bind (advanceBy_follows _) fun _ _ _ => ?_)
    exact .bind (declarationRest_follows hr hctx _) fun _ _ _ => .pure rfl
  refine .bind_stay atImportTerm_follows (fun c => ⟨_, rfl⟩) fun term term' (h : term = term') => ?_
  subst h
  split
  · refine FollowsBy.from' (.bind .advance fun _ _ _ => ?_)
    exact .bind (importRest_follows hctx) fun _ _ _ => .pure rfl
  rcases keywordStatement_follows (E := E) hr hctx hbody alone word with ⟨hl, hr'⟩ |
    ⟨p, q, hl, hr', hpq⟩
  · rw [hl, hr']
    exact (labelOrExpression_follows hr hctx hbody).from'
  · rw [hl, hr']
    exact hpq.bind (fun _ _ _ => .pure rfl) fun _ _ => .inside

omit hbody in
theorem decoratedStatement_follows (alone : Bool) : Follows e E .inside id
    (decoratedStatement r ctx alone) (decoratedStatement r' ctx' alone) := by
  refine .bind (decorators_follows hr hctx) fun _ _ _ => .bind_eatWord _ fun b => ?_
  split
  · exact exportRest_follows hr hctx true
  · refine .bind (.require_self _) fun _ _ _ => ?_
    exact .bind (classDeclaration_follows hr hctx) fun _ _ _ => .pure rfl

/-- Every statement before the end of the text. -/
theorem statementTerm_follows (alone : Bool) : Follows e E .inside Statement.shape
    (statementTerm r ctx alone) (statementTerm r' ctx' alone) := by
  refine .bind_token_from (fun t => ?_) (.inl .inside)
  split
  · exact FollowsBy.from' (.bind (block_follows hr hctx hbody) fun _ _ _ => .pure rfl)
  · exact FollowsBy.from' (.bind .advance fun _ _ _ => .pure rfl)
  · refine FollowsBy.from' (.bind (decoratedStatement_follows hr hctx alone) fun _ _ _ => ?_)
    exact .pure rfl
  · exact wordStatement_follows hr hctx hbody alone _
  · exact (labelOrExpression_follows hr hctx hbody).from'

end Statements

/-! ## Closing the circle -/

/-- Rules that follow others do so one level higher. -/
theorem Rules.Follows.over (hr : r.Follows e r') : r.over.Follows e r'.over where
  assignment h := assignmentTerm_follows hr h
  binary h rank := binaryTerm_follows hr h rank
  unary h := unaryTerm_follows hr h
  subject h := subjectTerm_follows hr h
  chain h := chainTerm_follows hr h
  binding h := bindingPattern_follows hr h
  statement h hbody alone := statementTerm_follows hr h hbody alone

/-- Whatever of a text is read, is read with another ending, too. -/
theorem Rules.ofDepth_follows (e : Ending) {n n' : Nat} (h : n ≤ n') :
    (Rules.ofDepth n).Follows e (Rules.ofDepth n') := by
  induction n generalizing n' with
  | zero =>
    exact ⟨fun _ => .fail, fun _ _ => .fail, fun _ => .fail, fun _ => .fail, fun _ => .fail,
      fun _ => .fail, fun _ _ _ => .fail⟩
  | succ n ih =>
    obtain ⟨n', rfl⟩ : ∃ k, n' = k + 1 := ⟨n' - 1, by omega⟩
    exact (ih (by omega)).over

end UiTemplate.Script
