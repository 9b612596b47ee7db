import UiTemplate.Proofs.Script.Locality.Functions
import UiTemplate.Script.Grammar.Expression

/-!
# Terms in other surroundings

Literals, names, and members and calls of them are read alike wherever they stand, whatever of the
endings comes behind them. An expression in parentheses or brackets ends before the ending of the
text.
-/

namespace UiTemplate.Script

open Reader

variable {e : Ending} {E : Prop} {r r' : Rules} {ctx ctx' : Context}

/-- What can begin an ending. -/
theorem Ending.mark_eq (e : Ending) : e.mark = .rightParen ∨ e.mark = .rightBrace ∨
    e.mark = .question ∨ e.mark = .coalesce := by
  simpa using e.mark_mem

/-- A name where a value stands. -/
theorem nameTerm_follows (hctx : ctx.Eases E ctx') (name : String) {m : Term → Stop} :
    FollowsBy e E m Term.shape (nameTerm ctx name) (nameTerm ctx' name) :=
  .bind_atEnd (hctx.requireName _) fun _ _ _ => .bind_get fun c d =>
    (FollowsBy.bind_atEnd .advance fun _ _ _ => .pure (by simp only [Term.shape])) c d

/-! ## Scanning anew -/

section Anew

variable {c d : Cursor}

theorem regexTerm_eq_none {lead : List Char} (h : scanRegex (lead ++ c.rest) = none) :
    regexTerm lead c = none := by
  rw [regexTerm, bind_of_eq_some (p := get) (a := c) (d := c) rfl, h]
  rfl

theorem regexTerm_eq_some {lead rest : List Char} {width : Nat}
    (h : scanRegex (lead ++ c.rest) = some (width, rest)) :
    regexTerm lead c = some (.other .unusual c.current.start,
      { c with
        current := (next (c.current.start + 1 + width) rest).1
        rest := (next (c.current.start + 1 + width) rest).2 }) := by
  rw [regexTerm, bind_of_eq_some (p := get) (a := c) (d := c) rfl, h]
  rfl

/-- The chunk of a template literal behind a hole. -/
def nextQuasi (quasis : List (Option String)) (holes : List Term) :
    Reader ((List (Option String) × List Term) ⊕ (List (Option String) × List Term)) := do
  let c ← get
  match c.current.token, scanQuasi (c.rest.length + 1) c.rest with
  | .punct .rightBrace, some q =>
    match q.token with
    | .quasi cooked last =>
      let (lexeme, rest) := next (c.current.stop + q.width) q.rest
      set { c with current := lexeme, rest := rest }
      if last then return .inr ((cooked :: quasis).reverse, holes.reverse)
      else return .inl (cooked :: quasis, holes)
    | _ => fail
  | _, _ => fail

theorem templateRest_eq (first : Option String) :
    templateRest r ctx first = repeatFrom ([first], []) fun x =>
      expression r ctx.inner >>= fun hole => nextQuasi x.1 (hole :: x.2) :=
  rfl

/-- What is known after a hole. -/
def Quasi.chunk (q : Quasi) : Option String :=
  q.units.map fun units => String.ofList (textOfUnits units)

/-- The next chunk of a template literal, scanned from the brace that closes a hole. -/
theorem nextQuasi_eq (quasis : List (Option String)) (holes : List Term) {q : Quasi}
    (htoken : c.current.token = .punct .rightBrace)
    (hscan : scanQuasi (c.rest.length + 1) c.rest = some q) :
    nextQuasi quasis holes c = some
      (if q.last then .inr ((q.chunk :: quasis).reverse, holes.reverse)
        else .inl (q.chunk :: quasis, holes),
      { c with
        current := (next (c.current.stop + q.width) q.rest).1
        rest := (next (c.current.stop + q.width) q.rest).2 }) := by
  rw [nextQuasi, bind_of_eq_some (p := get) (a := c) (d := c) rfl, htoken, hscan]
  dsimp only [Quasi.token]
  cases q.last <;> rfl

/-- A hole is closed by a brace, and what is behind it is scanned as a chunk. -/
theorem nextQuasi_eq_some {quasis : List (Option String)} {holes : List Term} {x : _ ⊕ _}
    (h : nextQuasi quasis holes c = some (x, d)) :
    c.current.token = .punct .rightBrace ∧
      ∃ q, scanQuasi (c.rest.length + 1) c.rest = some q := by
  rw [nextQuasi, bind_of_eq_some (p := get) (a := c) (d := c) rfl] at h
  have htoken : c.current.token = .punct .rightBrace := by
    revert h
    cases c.current.token with
    | punct p =>
      cases p with
      | rightBrace => exact fun _ => rfl
      | _ => rintro ⟨⟩
    | _ => rintro ⟨⟩
  rw [htoken] at h
  cases hscan : scanQuasi (c.rest.length + 1) c.rest with
  | none =>
    rw [hscan] at h
    cases h
  | some q => exact ⟨htoken, q, rfl⟩

theorem eats_nextQuasi (quasis : List (Option String)) (holes : List Term)
    {m : (List (Option String) × List Term) ⊕ (List (Option String) × List Term) → Stop} :
    Eats m (nextQuasi quasis holes) := by
  intro c x c' h _ _ hlast
  have htoken : c.current.token = .punct .rightParen := hlast.1
  cases htoken.symm.trans (nextQuasi_eq_some h).1

/-- The chunk behind a hole is the same in both texts, since it ends inside the first one. -/
theorem nextQuasi_follows {quasis quasis' : List (Option String)} {holes holes' : List Term}
    (hquasis : quasis = quasis') (hholes : holes.map Term.shape = holes'.map Term.shape) :
    Follows e E .atEnd (Sum.map (fun x => (x.1, x.2.map Term.shape))
      fun x => (x.1, x.2.map Term.shape)) (nextQuasi quasis holes) (nextQuasi quasis' holes') := by
  subst hquasis
  intro c d x c' h
  obtain ⟨htoken, q, hscan⟩ := nextQuasi_eq_some h
  rw [nextQuasi_eq _ _ htoken hscan] at h
  obtain ⟨rfl, rfl⟩ := Prod.mk.inj (Option.some.inj h)
  have hlead : Spot.Leads c.spot _ := .single (.quasi htoken hscan)
  refine ⟨hlead, fun hallows hbeside => ?_⟩
  have hagree := (hbeside.cases (hallows.live.of_leads hlead)).resolve_left fun hlast => by
    cases htoken.symm.trans hlast.1.1
  obtain ⟨q', hscan', hsame, hmatches⟩ := hagree.quasi hscan hlead hallows.live
  have htoken' : d.current.token = .punct .rightBrace := hagree.token_eq.trans htoken
  obtain ⟨hchunk, hlast⟩ : q'.chunk = q.chunk ∧ q'.last = q.last := Token.quasi.inj hsame
  refine .inr ⟨_, _, nextQuasi_eq _ _ htoken' hscan', ?_, hmatches _, hbeside.pending,
    hbeside.exported⟩
  rw [hchunk, hlast]
  split
  · simp [hholes]
  · simp [hholes]

end Anew

section Expressions

variable (hr : r.Follows e r') (hctx : ctx.Eases E ctx')

include hr hctx

/-- Expressions with commas between them. -/
theorem expression_follows :
    Follows e E .inside Term.shape (expression r ctx) (expression r' ctx') := by
  refine .bind (hr.assignment_inside hctx) fun t t' ht => .bind_at _ (fun b => ?_) (.inr .inside)
  cases b with
  | false => exact .pure ht
  | true =>
    refine Follows.repeatFrom (v := List.map Term.shape) (fun ts ts' hts => ?_) (by simp [ht])
    refine .bind_eat _ (.bind (hr.assignment_inside hctx) fun u u' hu => .pure ?_) (.pure ?_)
      (.inr .inside)
    · simp [hu, hts]
    · simp [Term.shape, hts]

/-! ## Items and fields -/

theorem arrayElement_follows :
    Follows e E .inside Element.shape (arrayElement r ctx) (arrayElement r' ctx') := by
  refine .bind_at _ (fun b => ?_) (.inr .inside)
  split
  · exact .pure rfl
  · refine .bind_eat _ ?_ ?_ (.inr .inside)
    · exact .bind (hr.assignment_inside hctx.inner) fun _ _ h => .pure (congrArg Element.spread h)
    · exact .bind (hr.assignment_inside hctx.inner) fun _ _ h => .pure (congrArg Element.item h)

theorem argument_follows :
    Follows e E .inside Element.shape (argument r ctx) (argument r' ctx') := by
  refine .bind_eat _ ?_ ?_ (.inr .inside)
  · exact .bind (hr.assignment_inside hctx.inner) fun _ _ h => .pure (congrArg Element.spread h)
  · exact .bind (hr.assignment_inside hctx.inner) fun _ _ h => .pure (congrArg Element.item h)

omit hctx in
theorem methodField_follows (key : Option String) (computed async generator : Bool) :
    Follows e E .inside Property.shape (methodField r key computed async generator)
      (methodField r' key computed async generator) :=
  .bind_start fun _ _ => .bind (functionRest_follows hr _ _) fun _ _ _ => .pure rfl

theorem accessorField_follows (a : Accessor) :
    Follows e E .inside Property.shape (accessorField r ctx a) (accessorField r' ctx' a) := by
  refine .bind .advance fun _ _ _ => .bind_id (propertyKey_follows hr hctx _) fun key => ?_
  exact .bind_start fun _ _ => .bind (accessorRest_follows hr a) fun _ _ _ => .pure rfl

omit hr hctx in
theorem atAsyncMethod_follows {m : Bool → Stop} :
    FollowsBy e E m id atAsyncMethod atAsyncMethod := by
  refine .read_words (x := false) (G := fun t k _ => isKeyword "async" t && !k.newline &&
    (k.token.beginsKey || isPunct .star k.token)) (fun _ => rfl) ?_ ?_
  · intro t k l ht
    cases t with
    | word name escaped => exact absurd rfl (ht name escaped)
    | _ => rfl
  · intro name escaped k l k' l' hk _
    have hkey := hk.eq (P := fun t newline => !newline && (t.beginsKey || isPunct .star t)) (by decide)
    simp only [Bool.and_assoc]
    exact congrArg (_ && ·) hkey

/-- A field with a value, a method, or a name that stands for itself. -/
theorem plainField_follows :
    Follows e E .inside Property.shape (plainField r ctx) (plainField r' ctx') := by
  refine .bind_id atAsyncMethod_follows fun async => .when async .advance ?_
  refine .bind_id (.eat_inside _) fun generator => .bind_start fun start start' => ?_
  refine .bind_get fun c d => (FollowsBy.bind_token (fun t => ?_) (.inl .inside)) c d
  refine .bind_id (propertyKey_follows hr hctx _) fun key => .bind_at _ (fun b => ?_) (.inr .inside)
  split
  · exact methodField_follows hr _ _ _ _
  refine .bind_eat _ (.bind (hr.assignment_inside hctx.inner) fun t t' ht => .pure ?_) ?_
    (.inr .inside)
  · simp only [Property.shape, ht]
  have hvalue (name : String) : Follows e E .inside Property.shape
      (do
        let initialized ← optionalValue r ctx.inner
        if initialized then modify fun c => { c with pending := c.pending + 1 }
        return .field key.1 false false true initialized (.ident name start c.current.stop))
      (do
        let initialized ← optionalValue r' ctx'.inner
        if initialized then modify fun c => { c with pending := c.pending + 1 }
        return .field key.1 false false true initialized (.ident name start' d.current.stop)) := by
    refine .bind_id (optionalValue_follows hr hctx.inner) fun initialized => ?_
    refine .when initialized ?_ (.pure (by simp only [Property.shape, Term.shape]))
    exact .modify (fun _ => rfl) fun _ _ h =>
      ⟨h.spot, congrArg (· + 1) h.pending, h.exported⟩
  cases t with
  | word name escaped =>
    by_cases hname : ctx.isName name = true
    · by_cases hname' : ctx'.isName name = true
      · simpa only [hname, hname', Bool.false_eq_true, ↓reduceIte] using hvalue name
      · have hE := (hctx.isName hname).resolve_left hname'
        simpa only [hname, hname', Bool.false_eq_true, ↓reduceIte] using
          FollowsBy.fails hE (hvalue name).moves
    · simpa only [hname, Bool.false_eq_true, ↓reduceIte] using FollowsBy.fail
  | _ => exact .fail

/-- The fields of an object. -/
theorem objectProperty_follows :
    Follows e E .inside Property.shape (objectProperty r ctx) (objectProperty r' ctx') := by
  refine .bind_eat _ ?_ (.bind_id accessor?_follows fun found => ?_) (.inr .inside)
  · exact .bind (hr.assignment_inside hctx.inner) fun _ _ h => .pure (congrArg Property.spread h)
  · cases found with
    | some a => exact accessorField_follows hr hctx a
    | none => exact plainField_follows hr hctx

/-! ## Parentheses -/

/-- Items in parentheses. -/
theorem enclosed_follows {m : List Element × Bool → Stop} :
    FollowsBy e E m (fun x => (x.1.map Element.shape, x.2)) (enclosed r ctx) (enclosed r' ctx') :=
  .bind_atEnd (.expect _) fun _ _ _ => delimited_follows _ (argument_follows hr hctx)

/-- The arguments of a call. -/
theorem arguments_follows {m : List Element → Stop} :
    FollowsBy e E m (List.map Element.shape) (arguments r ctx) (arguments r' ctx') :=
  .bind_atEnd (enclosed_follows hr hctx) fun _ _ h => .pure (Prod.mk.inj h).1

theorem groupTerm_follows {m : Term → Stop} :
    FollowsBy e E m Term.shape (groupTerm r ctx) (groupTerm r' ctx') := by
  refine .bind_atEnd (enclosed_follows hr hctx) fun x y h => ?_
  obtain ⟨hitems, htrailing⟩ := Prod.mk.inj h
  cases hgroup : group? x.1 x.2 with
  | none => simpa only [hgroup] using FollowsBy.fail
  | some t =>
    obtain ⟨t', hgroup', ht⟩ := group?_of_shape hitems hgroup
    rw [htrailing] at hgroup'
    simpa only [hgroup, hgroup'] using FollowsBy.pure ht

/-! ## Words -/

theorem importCall_follows (start start' : Nat) {m : Term → Stop} :
    FollowsBy e E m Term.shape (importCall r ctx start) (importCall r' ctx' start') := by
  refine .bind_atEnd (.expect _) fun _ _ _ => ?_
  refine .bind_atEnd (delimited_follows _ (hr.assignment_inside hctx.inner)) fun x y h => ?_
  have hlen : y.1.length = x.1.length := by
    simpa using (congrArg (fun x => x.1.length) h).symm
  refine .bind_atEnd (.require fun h => .inl ?_) fun _ _ _ => .pure rfl
  rwa [hlen]

theorem importTerm_follows {m : Term → Stop} :
    FollowsBy e E m Term.shape (importTerm r ctx) (importTerm r' ctx') := by
  refine .bind_start fun start start' => .bind_atEnd .advance fun _ _ _ => ?_
  refine .bind_eat _ (.bind_token (fun t => ?_) (.inr .fail)) (importCall_follows hr hctx _ _)
    (.inl (e.ne_mark (by decide)))
  split
  · exact .bind_atEnd .advance fun _ _ _ => .pure rfl
  · exact .bind_atEnd .advance fun _ _ _ => importCall_follows hr hctx _ _
  · exact .bind_atEnd .advance fun _ _ _ => importCall_follows hr hctx _ _
  · exact .fail

/-- What `new` is applied to has its arguments behind it, or none. -/
theorem newTerm_follows {m : Term → Stop} :
    FollowsBy e E m Term.shape (newTerm r ctx) (newTerm r' ctx') := by
  refine .bind_start fun start start' => .bind_atEnd .advance fun _ _ _ => ?_
  refine .bind_eat _ (.bind_atEnd (.expectWord _) fun _ _ _ => .pure rfl) ?_
    (.inl (e.ne_mark (by decide)))
  refine .bind_atEnd (hr.subject hctx) fun t t' ht => ?_
  have hrest : Follows e E .atEnd Term.shape
      (do
        if ← at? .leftParen then
          let _ ← arguments r ctx
        return .other .new start)
      (do
        if ← at? .leftParen then
          let _ ← arguments r' ctx'
        return .other .new start') := by
    refine .bind_at _ (fun b => ?_) (.inl (by decide))
    cases b with
    | true => exact .bind (arguments_follows hr hctx) fun _ _ _ => .pure rfl
    | false => exact .pure rfl
  split
  · exact .fail
  · exact .fail
  · rename_i hchain himport
    split
    · obtain ⟨start, ht⟩ := Term.eq_other_of_shape ht
      exact absurd ht (hchain start)
    · obtain ⟨start, ht⟩ := Term.eq_other_of_shape ht
      exact absurd ht (himport start)
    · exact .of_atEnd hrest

/-- What begins with a word: a constant, a function, a class or a name. -/
theorem wordTerm_follows (name : String) (escaped : Bool) {m : Term → Stop} :
    FollowsFrom e E (.word name escaped) m Term.shape (wordTerm r ctx name)
      (wordTerm r' ctx' name) := by
  refine .bind_start fun start start' => ?_
  split
  · exact FollowsBy.from' (.bind_atEnd .advance fun _ _ _ => .pure rfl)
  · exact FollowsBy.from' (.bind_atEnd .advance fun _ _ _ => .pure rfl)
  · exact FollowsBy.from' (.bind_atEnd .advance fun _ _ _ => .pure rfl)
  · exact FollowsBy.from' (.bind_atEnd .advance fun _ _ _ => .pure rfl)
  · refine FollowsBy.from' (.bind_atEnd .advance fun _ _ _ => ?_)
    exact .bind_atEnd (functionAfterKeyword_follows hr hctx _ _) fun _ _ _ => .pure rfl
  · refine FollowsBy.from' (.bind_atEnd .advance fun _ _ _ => ?_)
    exact .bind_atEnd (classAfterKeyword_follows hr hctx) fun _ _ _ => .pure rfl
  · exact (newTerm_follows hr hctx).from'
  · exact (importTerm_follows hr hctx).from'
  · refine FollowsBy.from' (.bind_atEnd .advance fun _ _ _ => .bind_token (fun t => ?_) (.inr .fail))
    split
    · exact .pure rfl
    · exact .pure rfl
    · exact .pure rfl
    · exact .fail
  · refine .bind_lookahead (Token.isPlain_word _ _) fun l l' hl => FollowsBy.from' ?_
    have hfunction := hl.eq (P := fun t newline => isKeyword "function" t && !newline) (by decide)
    simp only [Bool.and_assoc, hfunction]
    split
    · refine .bind_atEnd .advance fun _ _ _ => .bind_atEnd .advance fun _ _ _ => ?_
      exact .bind_atEnd (functionAfterKeyword_follows hr hctx _ _) fun _ _ _ => .pure rfl
    · exact nameTerm_follows hctx name

/-! ## Literals -/

omit hr hctx in
/-- A regular expression, of which `lead` was taken for a part of the token. -/
theorem regexTerm_follows {lead : List Char} {t : Token}
    (ht : t = .punct .slash ∧ lead = [] ∨ t = .punct .slashAssign ∧ lead = ['=']) {m : Term → Stop} :
    FollowsFrom e E t m Term.shape (regexTerm lead) (regexTerm lead) := by
  intro c d hc a c' h
  cases hscan : scanRegex (lead ++ c.rest) with
  | none =>
    rw [regexTerm_eq_none hscan] at h
    cases h
  | some x =>
    rw [regexTerm_eq_some hscan] at h
    obtain ⟨rfl, rfl⟩ := Prod.mk.inj (Option.some.inj h)
    rw [← hc] at ht
    refine ⟨.single (.regex ht hscan), fun hallows hbeside => ?_⟩
    have hlead : Spot.Leads c.spot _ := .single (.regex ht hscan)
    have hagree := (hbeside.cases (hallows.live.of_leads hlead)).resolve_left fun hlast => by
      have htoken : c.current.token = .punct .rightParen := hlast.1.1
      rw [htoken] at ht
      rcases ht with ⟨⟨⟩, -⟩ | ⟨⟨⟩, -⟩
    have hshort : lead.length ≤ 1 := by
      rcases ht with ⟨-, rfl⟩ | ⟨-, rfl⟩ <;> decide
    obtain ⟨rest, hscan', hmatches⟩ := hagree.regex hshort hscan hlead hallows.live
    exact .inr ⟨_, _, regexTerm_eq_some hscan', rfl, hmatches _, hbeside.pending, hbeside.exported⟩

/-- The holes and chunks of a template literal. -/
theorem templateRest_follows (first : Option String)
    {m : List (Option String) × List Term → Stop} :
    FollowsBy e E m (fun x => (x.1, x.2.map Term.shape)) (templateRest r ctx first)
      (templateRest r' ctx' first) := by
  rw [templateRest_eq, templateRest_eq]
  refine .of_atEnd (Follows.repeatFrom (v := fun x => (x.1, x.2.map Term.shape)) (fun x y h => ?_)
    rfl)
  obtain ⟨hquasis, hholes⟩ := Prod.mk.inj h
  refine .bind_eats (expression_follows hr hctx.inner) (fun t t' ht => ?_) fun t => ?_
  · exact nextQuasi_follows hquasis (by simp [ht, hholes])
  · exact eats_nextQuasi _ _

theorem templateLiteral_follows (cooked : Option String) (last : Bool)
    {m : List (Option String) × List Term → Stop} :
    FollowsBy e E m (fun x => (x.1, x.2.map Term.shape)) (templateLiteral r ctx cooked last)
      (templateLiteral r' ctx' cooked last) := by
  refine .bind_atEnd .advance fun _ _ _ => ?_
  split
  · exact .pure rfl
  · exact templateRest_follows hr hctx cooked

theorem templateTerm_follows (cooked : Option String) (last : Bool) {m : Term → Stop} :
    FollowsBy e E m Term.shape (templateTerm r ctx cooked last)
      (templateTerm r' ctx' cooked last) := by
  refine .bind_atEnd (templateLiteral_follows hr hctx cooked last) fun x y h => ?_
  obtain ⟨hquasis, hholes⟩ := Prod.mk.inj h
  cases hcooked : x.1.mapM id with
  | none => simpa only [hcooked] using FollowsBy.fail
  | some quasis =>
    rw [hquasis] at hcooked
    simpa only [hquasis, hcooked] using FollowsBy.pure (by simp [Term.shape, hholes])

/-- A term without anything behind it. It ends with a token of its own, so that the ending is not
looked at. -/
theorem primary_follows {m : Term → Stop} :
    FollowsBy e E m Term.shape (primary r ctx) (primary r' ctx') := by
  refine .bind_start fun start start' => .bind_token_from (fun t => ?_) (.inl ?_)
  · split
    · exact FollowsBy.from' (.bind_atEnd .advance fun _ _ _ => .pure rfl)
    · exact FollowsBy.from' (.bind_atEnd .advance fun _ _ _ => .pure rfl)
    · exact FollowsBy.from' (.bind_atEnd .advance fun _ _ _ => .pure rfl)
    · exact (templateTerm_follows hr hctx _ _).from'
    · refine FollowsBy.from' (.bind_atEnd .advance fun _ _ _ => ?_)
      refine .bind_atEnd (delimited_follows _ (arrayElement_follows hr hctx)) fun x y h => .pure ?_
      obtain ⟨hitems, htrailing⟩ := Prod.mk.inj h
      simp [Term.shape, hitems, htrailing]
    · refine FollowsBy.from' (.bind_atEnd .advance fun _ _ _ => ?_)
      refine .bind_atEnd (delimited_follows _ (objectProperty_follows hr hctx)) fun x y h => .pure ?_
      obtain ⟨hitems, htrailing⟩ := Prod.mk.inj h
      simp [Term.shape, hitems, htrailing]
    · exact (groupTerm_follows hr hctx).from'
    · exact regexTerm_follows (.inl ⟨rfl, rfl⟩)
    · exact regexTerm_follows (.inr ⟨rfl, rfl⟩)
    · refine FollowsBy.from' (.bind_atEnd (decorators_follows hr hctx) fun _ _ _ => ?_)
      refine .bind_atEnd (.expectWord _) fun _ _ _ => ?_
      exact .bind_atEnd (classAfterKeyword_follows hr hctx) fun _ _ _ => .pure rfl
    · split
      · exact (nameTerm_follows hctx _).from'
      · exact wordTerm_follows hr hctx _ _
    · exact FollowsBy.fail.from'
  · rintro c t c' ⟨⟩

/-! ## Members and calls -/

omit hr hctx in
/-- A member behind a dot. -/
theorem dotMember_follows (start start' : Nat) {t t' : Term} (ht : t.shape = t'.shape)
    {m : Term → Stop} :
    FollowsBy e E m Term.shape (dotMember start t) (dotMember start' t') := by
  refine .bind_token (fun l => ?_) (.inr .fail)
  split
  · exact .bind_atEnd .advance fun _ _ _ => .pure (by simp only [Term.shape, ht])
  · exact .bind_atEnd .advance fun _ _ _ => .pure rfl
  · exact .fail

/-- A member in brackets. -/
theorem indexMember_follows {t t' : Term} (ht : t.shape = t'.shape) {m : Term → Stop} :
    FollowsBy e E m Term.shape (indexMember r ctx t) (indexMember r' ctx' t') := by
  refine .bind_atEnd (.expect _) fun _ _ _ => ?_
  refine .bind_eats (expression_follows hr hctx.inner) (fun u u' hu => ?_) fun _ => ?_
  · exact .bind_atEnd (.expect _) fun _ _ _ => .pure (by simp only [Term.shape, ht, hu])
  · exact (Eats.expect _).bind fun _ => moves_pure _

/-- Members and calls behind a term. No ending begins another one. -/
theorem chainRest_follows (calls : Bool) (start start' : Nat) {base base' : Term}
    (hbase : base.shape = base'.shape) {m : Term → Stop} :
    FollowsBy e E m Term.shape (chainRest r ctx calls start base)
      (chainRest r' ctx' calls start' base') := by
  refine .of_atEnd (Follows.repeatFrom (v := fun x : Term × Bool => (x.1.shape, x.2)) ?_ ?_)
  · rintro ⟨t, optional⟩ ⟨t', optional'⟩ h
    obtain ⟨ht, rfl⟩ := Prod.mk.inj h
    have hdone : Follows e E .atEnd (Sum.map (fun x : Term × Bool => (x.1.shape, x.2)) Term.shape)
        (pure (.inr (if optional then .other .optionalChain start else t)))
        (pure (.inr (if optional then .other .optionalChain start' else t'))) := by
      refine .pure ?_
      cases optional
      · exact congrArg Sum.inr ht
      · rfl
    refine .bind_token_from (fun l => ?_) (.inr ?_)
    · have hmore {p q : Reader Term} (hpq : Follows e E .atEnd Term.shape p q) (b : Bool) :
          Follows e E .atEnd (Sum.map (fun x : Term × Bool => (x.1.shape, x.2)) Term.shape)
            (p >>= fun t => pure (.inl (t, b))) (q >>= fun t => pure (.inl (t, b))) :=
        .bind hpq fun _ _ h => .pure (congrArg (fun t => Sum.inl (t, b)) h)
      split
      · exact FollowsBy.from' (.bind .advance fun _ _ _ => hmore (dotMember_follows _ _ ht) _)
      · rw [hctx.decorator]
        split
        · exact hdone.from'
        · exact (hmore (indexMember_follows hr hctx ht) _).from'
      · refine .bind_lookahead (by simp [Token.IsPlain]) fun l l' hl => FollowsBy.from' ?_
        have hdot : Follows e E .atEnd (Sum.map (fun x : Term × Bool => (x.1.shape, x.2)) Term.shape)
            (advance >>= fun _ => dotMember start t >>= fun t => pure (.inl (t, true)))
            (advance >>= fun _ => dotMember start' t' >>= fun t => pure (.inl (t, true))) :=
          .bind .advance fun _ _ _ => hmore (dotMember_follows _ _ ht) _
        -- Behind the dot the token is the same in both texts, or both have come to an end. No end
        -- is a parenthesis or a bracket, so that both go on with a name.
        rcases hl.token_eq with hl | ⟨hl, hl'⟩
        · rw [hl]
          split
          · split
            · refine .bind .advance fun _ _ _ => ?_
              exact .bind (arguments_follows hr hctx) fun _ _ _ => .pure (by simp [ht])
            · exact hdone
          · rw [hctx.decorator]
            refine .bind (.require_self _) fun _ _ _ => .bind .advance fun _ _ _ => ?_
            exact hmore (indexMember_follows hr hctx ht) _
          · exact hdot
        · rw [hl, hl']
          obtain h | h | h | h := e.mark_eq
          all_goals
            rw [h]
            exact hdot
      · split
        · refine FollowsBy.from' (.bind (arguments_follows hr hctx) fun xs ys hxs => .pure ?_)
          simp [Term.shape, ht, hxs]
        · exact hdone.from'
      · refine FollowsBy.from' (.bind (.require_self _) fun _ _ _ => ?_)
        exact .bind (templateLiteral_follows hr hctx _ _) fun _ _ _ => .pure rfl
      · exact hdone.from'
    · obtain h | h | h | h := e.mark_eq
      all_goals
        rw [h]
        exact hdone
  · exact congrArg (·, false) hbase

theorem subjectTerm_follows {m : Term → Stop} :
    FollowsBy e E m Term.shape (subjectTerm r ctx) (subjectTerm r' ctx') :=
  .bind_start fun _ _ => .bind_atEnd (primary_follows hr hctx) fun _ _ ht =>
    chainRest_follows hr hctx false _ _ ht

theorem chainTerm_follows {m : Term → Stop} :
    FollowsBy e E m Term.shape (chainTerm r ctx) (chainTerm r' ctx') :=
  .bind_start fun _ _ => .bind_atEnd (primary_follows hr hctx) fun _ _ ht =>
    chainRest_follows hr hctx true _ _ ht

end Expressions

end UiTemplate.Script
