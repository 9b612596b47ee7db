import UiTemplate.Proofs.Script.Follows
import UiTemplate.Proofs.Script.Shape
import UiTemplate.Script.Grammar.Declaration

/-!
# Functions and classes in other surroundings

Patterns, functions and classes are read alike wherever they stand, if the rules for their parts
do so (`Rules.Follows`). A class that begins in one of two texts ends before the ending of the
text, so most of them only have to be followed there.
-/

namespace UiTemplate.Script

open Reader

/-- What is a name in the first context is one in the second, unless `E` holds, and operators are
the same but for `await`. -/
structure Context.Eases (E : Prop) (ctx ctx' : Context) : Prop where
  noIn : ctx'.noIn = ctx.noIn
  await : ctx'.await = true → ctx.await = true ∨ E
  yield : ctx'.yield = ctx.yield
  decorator : ctx'.decorator = ctx.decorator

/-- How far an expression may go, by what stands behind it. Behind an expression, a question mark is
the operator of a condition. -/
def Ending.stop (e : Ending) : Stop :=
  if e.mark = .rightParen ∨ e.mark = .rightBrace then .atEnd else .inside

/-- The second rules follow the first ones. -/
structure Rules.Follows (e : Ending) (r r' : Rules) : Prop where
  assignment {E : Prop} {ctx ctx' : Context} (h : ctx.Eases E ctx') :
    Script.Follows e E e.stop Term.shape (r.assignment ctx) (r'.assignment ctx')
  binary {E : Prop} {ctx ctx' : Context} (h : ctx.Eases E ctx') (rank : Nat) :
    Script.Follows e E e.stop Term.shape (r.binary ctx rank) (r'.binary ctx' rank)
  unary {E : Prop} {ctx ctx' : Context} (h : ctx.Eases E ctx') :
    Script.Follows e E e.stop Term.shape (r.unary ctx) (r'.unary ctx')
  subject {E : Prop} {ctx ctx' : Context} (h : ctx.Eases E ctx') :
    Script.Follows e E .atEnd Term.shape (r.subject ctx) (r'.subject ctx')
  chain {E : Prop} {ctx ctx' : Context} (h : ctx.Eases E ctx') :
    Script.Follows e E .atEnd Term.shape (r.chain ctx) (r'.chain ctx')
  binding {E : Prop} {ctx ctx' : Context} (h : ctx.Eases E ctx') :
    Script.Follows e E .inside id (r.binding ctx) (r'.binding ctx')
  statement {E : Prop} {ctx ctx' : Context} (h : ctx.Eases E ctx') (hbody : ctx'.body = ctx.body)
    (alone : Bool) :
    Script.Follows e E .inside Statement.shape (r.statement ctx alone) (r'.statement ctx' alone)

namespace Context.Eases

variable {E : Prop} {ctx ctx' : Context}

/-- Every context eases itself. -/
theorem refl (ctx : Context) : ctx.Eases E ctx :=
  ⟨rfl, .inl, rfl, rfl⟩

theorem inner (h : ctx.Eases E ctx') : ctx.inner.Eases E ctx'.inner :=
  ⟨rfl, h.await, h.yield, rfl⟩

/-- What is a name stays one. -/
theorem isName (h : ctx.Eases E ctx') {word : String} (hword : ctx.isName word = true) :
    ctx'.isName word = true ∨ E := by
  unfold Context.isName at hword ⊢
  rw [h.yield]
  cases hawait : ctx'.await with
  | false =>
    left
    simp only [Bool.and_eq_true] at hword
    simp [hword]
  | true =>
    refine (h.await hawait).imp_left fun hawait' => ?_
    rwa [hawait'] at hword

/-- A name that is asked for. -/
theorem requireName (h : ctx.Eases E ctx') (word : String) {e : Ending} {m : Unit → Stop} :
    FollowsBy e E m id (require (ctx.isName word)) (require (ctx'.isName word)) :=
  .require h.isName

end Context.Eases

variable {e : Ending} {E : Prop} {r r' : Rules} {ctx ctx' : Context}

/-- An expression before the end of the text. -/
theorem Rules.Follows.assignment_inside (hr : r.Follows e r') (h : ctx.Eases E ctx') :
    Script.Follows e E .inside Term.shape (r.assignment ctx) (r'.assignment ctx') :=
  (hr.assignment h).to_inside

section Functions

variable (hr : r.Follows e r') (hctx : ctx.Eases E ctx')

include hr hctx

/-! ## Keys and values -/

theorem optionalValue_follows :
    Follows e E .inside id (optionalValue r ctx) (optionalValue r' ctx') :=
  .bind_eat _ (.bind (hr.assignment_inside hctx) fun _ _ _ => .pure rfl) (.pure rfl) (.inr .inside)

/-- A key is a name, a literal or an expression in brackets. -/
theorem propertyKey_follows (number : Float → String) :
    Follows e E .inside id (propertyKey r ctx number) (propertyKey r' ctx' number) := by
  refine .bind_token (fun t => ?_) (.inl .inside)
  split
  case h_5 =>
    refine .bind .advance fun _ _ _ => .bind (hr.assignment_inside hctx.inner) fun _ _ _ => ?_
    exact .bind (.expect _) fun _ _ _ => .pure rfl
  case h_6 => exact .fail
  all_goals exact .bind .advance fun _ _ _ => .pure rfl

/-! ## Patterns -/

theorem bindingElement_follows :
    Follows e E .inside id (bindingElement r ctx) (bindingElement r' ctx') := by
  refine .bind_at _ (fun b => ?_) (.inr .inside)
  split
  · exact .pure rfl
  · refine .bind_eat _ (.bind_id (hr.binding hctx) fun _ => .pure rfl) ?_ (.inr .inside)
    refine .bind_id (hr.binding hctx) fun _ => ?_
    exact .bind (optionalValue_follows hr hctx.inner) fun _ _ _ => .pure rfl

/-- A field of a pattern. One that stands for itself has to be a name. -/
theorem bindingProperty_follows :
    Follows e E .inside id (bindingProperty r ctx) (bindingProperty r' ctx') := by
  refine .bind_eat _ ?_ ?_ (.inr .inside)
  · exact .bind_id (hr.binding hctx) fun d => .bind (.require_self _) fun _ _ _ => .pure rfl
  · refine .bind_token (fun t => ?_) (.inl .inside)
    refine .bind (propertyKey_follows hr hctx _) fun _ _ _ => .bind_eat _ ?_ ?_ (.inr .inside)
    · refine .bind_id (hr.binding hctx) fun _ => ?_
      exact .bind (optionalValue_follows hr hctx.inner) fun _ _ _ => .pure rfl
    · have hvalue (name : String) : Follows e E .inside id
          (optionalValue r ctx.inner >>= fun _ => pure ([name], false))
          (optionalValue r' ctx'.inner >>= fun _ => pure ([name], false)) :=
        .bind (optionalValue_follows hr hctx.inner) fun _ _ _ => .pure rfl
      cases t with
      | word name escaped =>
        by_cases hname : ctx.isName name = true
        · by_cases hname' : ctx'.isName name = true
          · simpa only [hname, hname', Bool.false_eq_true, ↓reduceIte] using hvalue name
          · have hE := (hctx.isName hname).resolve_left hname'
            simpa only [hname, hname', Bool.false_eq_true, ↓reduceIte] using
              FollowsBy.fails hE (hvalue name).moves
        · simpa only [hname, Bool.false_eq_true, ↓reduceIte] using FollowsBy.fail
      | _ => exact .fail

omit hr hctx in
theorem patternItems_follows {item item' : Reader (List String × Bool)}
    (hitem : Follows e E .inside id item item') (close : Punct) :
    Follows e E .inside id (patternItems close item) (patternItems close item') :=
  .bind_id (delimited_follows_id close hitem) fun _ =>
    .bind (.require_self _) fun _ _ _ => .pure rfl

/-- Patterns of arrays and of objects. -/
theorem bindingPattern_follows :
    Follows e E .inside id (bindingPattern r ctx) (bindingPattern r' ctx') := by
  refine .bind_token (fun t => ?_) (.inl .inside)
  split
  · exact .bind (hctx.requireName _) fun _ _ _ => .bind .advance fun _ _ _ => .pure rfl
  · exact .bind .advance fun _ _ _ => patternItems_follows (bindingElement_follows hr hctx) _
  · exact .bind .advance fun _ _ _ => patternItems_follows (bindingProperty_follows hr hctx) _
  · exact .fail

/-! ## Parameters -/

theorem parameter_follows : Follows e E .inside id (parameter r ctx) (parameter r' ctx') := by
  refine .bind_eat _ (.bind_id (hr.binding hctx) fun _ => .pure rfl) ?_ (.inr .inside)
  refine .bind_id (hr.binding hctx) fun _ => ?_
  exact .bind (optionalValue_follows hr hctx.inner) fun _ _ _ => .pure rfl

/-- The parameters of a function, which are closed inside the text. -/
theorem parameters_follows {m : Parameters → Stop} :
    FollowsBy e E m id (parameters r ctx) (parameters r' ctx') := by
  refine .of_atEnd (.bind (.expect _) fun _ _ _ => ?_)
  refine .bind_id (delimited_follows_id _ (parameter_follows hr hctx)) fun _ => ?_
  exact .bind (.require_self _) fun _ _ _ => .pure rfl

end Functions

/-! ## Bodies -/

/-- What only looks at the words ahead. -/
theorem accessor?_follows {m : Option Accessor → Stop} : FollowsBy e E m id accessor? accessor? := by
  refine .read_words (x := none) (G := fun t k _ =>
    if isKeyword "get" t && k.token.beginsKey then some .get
    else if isKeyword "set" t && k.token.beginsKey then some .set else none) (fun c => ?_) ?_ ?_
  · show (if isKeyword "get" c.current.token && c.advanced.current.token.beginsKey then
        pure (some .get) else do
          if (← atWord "set") && c.advanced.current.token.beginsKey then return some .set
          else return none : Reader (Option Accessor)) c = _
    split
    · rfl
    · show (if isKeyword "set" c.current.token && c.advanced.current.token.beginsKey then
        pure (some .set) else pure none : Reader (Option Accessor)) c = _
      split <;> rfl
  · intro t k l ht
    cases t with
    | word name escaped => exact absurd rfl (ht name escaped)
    | _ => rfl
  · intro name escaped k l k' l' hk _
    have hkey := hk.eq (P := fun t _ => t.beginsKey) (by decide)
    simp only [hkey]

section Bodies

variable (hr : r.Follows e r')

include hr

theorem blockStep_follows (hctx : ctx.Eases E ctx') (hbody : ctx'.body = ctx.body)
    {ss ss' : List Statement} (hss : ss.map Statement.shape = ss'.map Statement.shape) :
    FollowsBy e E (loopStop .inside .atEnd) (Sum.map (List.map Statement.shape)
        (List.map Statement.shape))
      (do
        if ← eat .rightBrace then return .inr ss.reverse
        else
          let s ← r.statement ctx false
          return .inl (s :: ss))
      (do
        if ← eat .rightBrace then return .inr ss'.reverse
        else
          let s ← r'.statement ctx' false
          return .inl (s :: ss')) := by
  refine .bind_eat _ (.pure ?_) (.goes_on (hr.statement hctx hbody false) fun s s' hs => ?_)
    (.inr .goes_on)
  · simp [hss]
  · simp [hss, hs]

/-- The statements of a block. What closes it is inside the text. -/
theorem block_follows (hctx : ctx.Eases E ctx') (hbody : ctx'.body = ctx.body)
    {m : List Statement → Stop} :
    FollowsBy e E m (List.map Statement.shape) (block r ctx) (block r' ctx') := by
  refine .of_atEnd (.bind (.expect _) fun _ _ _ => ?_)
  exact FollowsBy.repeatFrom (i := .inside) (fun _ _ hss => blockStep_follows hr hctx hbody hss)
    (fun _ _ _ => .bind_eat _ (moves_pure _) .goes_on) rfl

theorem functionBody_follows (hctx : ctx.Eases E ctx') (hbody : ctx'.body = ctx.body)
    {m : List Statement → Stop} :
    FollowsBy e E m (List.map Statement.shape) (functionBody r ctx) (functionBody r' ctx') := by
  refine .bind_atEnd (block_follows hr hctx hbody) fun ss ss' hss => .pure ?_
  rw [dropWhile_isDirective_shapes, dropWhile_isDirective_shapes, hss]

/-- A function from its parameters on. In its body neither `await` nor `yield` is taken from
outside. -/
theorem functionRest_follows (async generator : Bool) {m : Parameters → Stop} :
    FollowsBy e E m id (functionRest r async generator) (functionRest r' async generator) := by
  refine .bind_atEnd (parameters_follows hr (.refl _)) fun params params' hparams => ?_
  exact .bind_atEnd (functionBody_follows hr (.refl _) rfl) fun _ _ _ => .pure hparams

theorem accessorRest_follows (a : Accessor) {m : Unit → Stop} :
    FollowsBy e E m id (accessorRest r a) (accessorRest r' a) :=
  .of_atEnd (.bind_id (functionRest_follows hr _ _) fun _ => .require_self _)

/-- A function behind its keyword. A function that is a value may have no name. -/
theorem functionAfterKeyword_follows (hctx : ctx.Eases E ctx') (async value : Bool)
    {m : Option String → Stop} :
    FollowsBy e E m id (functionAfterKeyword r ctx async value)
      (functionAfterKeyword r' ctx' async value) := by
  refine .of_atEnd (.bind_id (.eat _ (e.ne_mark (by decide))) fun generator => ?_)
  have hrest (name? : Option String) : Follows e E .atEnd id
      (functionRest r async generator >>= fun _ => pure name?)
      (functionRest r' async generator >>= fun _ => pure name?) :=
    .bind (functionRest_follows hr async generator) fun _ _ _ => .pure rfl
  refine .bind_token (fun t => ?_) (.inr (hrest none))
  split
  · refine .bind (.require ?_) fun _ _ _ => .bind .advance fun _ _ _ => hrest _
    cases value with
    | true => exact .inl
    | false => exact hctx.isName
  · exact hrest none

end Bodies

/-! ## Classes -/

section Classes

theorem modifier?_follows (before : List Modifier) {m : Option Modifier → Stop} :
    FollowsBy e E m id (modifier? before) (modifier? before) := by
  refine .bind_token_from (fun t => ?_) (.inr (.pure rfl))
  split
  · refine .bind_lookahead (Token.isPlain_word _ _) fun l l' hl => FollowsBy.from' ?_
    have hnamed := hl.eq (P := fun t _ => t.beginsKey || isPunct .star t) (by decide)
    have hline := hl.eq (P := fun t newline => (t.beginsKey || isPunct .star t) && !newline)
      (by decide)
    split
    · simp only [hnamed]
      exact .pure rfl
    · simp only [hline]
      exact .pure rfl
    · exact .pure rfl
  · exact (FollowsBy.pure rfl).from'

/-- The words in front of a member of a class. -/
theorem modifiers_follows {m : List Modifier → Stop} :
    FollowsBy e E m id modifiers modifiers := by
  refine .of_atEnd (Follows.repeatFrom (v := id) (fun before before' h => ?_) rfl)
  obtain rfl : before = before' := h
  refine .bind_id (modifier?_follows before) fun found => ?_
  cases found with
  | none => exact .pure rfl
  | some found => exact .bind (.require_self _) fun _ _ _ => .bind .advance fun _ _ _ => .pure rfl

variable (hr : r.Follows e r') (hctx : ctx.Eases E ctx')

include hr hctx

theorem decorators_follows {m : Bool → Stop} :
    FollowsBy e E m id (decorators r ctx) (decorators r' ctx') := by
  have hinside : Context.Eases E { ctx with decorator := true } { ctx' with decorator := true } :=
    ⟨hctx.noIn, hctx.await, hctx.yield, rfl⟩
  refine .of_atEnd (Follows.repeatFrom (v := id) (fun found found' h => ?_) rfl)
  obtain rfl : found = found' := h
  exact .bind_eat _ (.bind (hr.chain hinside) fun _ _ _ => .pure rfl) (.pure rfl)
    (.inl (e.ne_mark (by decide)))

theorem memberName_follows (mods : List Modifier) :
    Follows e E .inside id (memberName r ctx mods) (memberName r' ctx' mods) := by
  refine .bind_token (fun t => ?_) (.inl .inside)
  split
  · exact .bind (.require_self _) fun _ _ _ => .bind .advance fun _ _ _ => .pure rfl
  · exact .bind_id (propertyKey_follows hr hctx _) fun _ => .pure rfl

omit hctx in
/-- A method of a class behind its name. -/
theorem methodRest_follows (decorated generator : Bool) (mods : List Modifier) (name : MemberName) :
    Follows e E .inside id (methodRest r decorated generator mods name)
      (methodRest r' decorated generator mods name) := by
  unfold methodRest
  split
  all_goals
    refine .bind (.require_self _) fun _ _ _ => ?_
    exact .bind (functionRest_follows hr _ _) fun _ _ _ => .pure rfl

/-- A property of a class, with its value if it has one. -/
theorem propertyRest_follows (mods : List Modifier) (name : MemberName) :
    Follows e E .inside id (propertyRest r ctx mods name) (propertyRest r' ctx' mods name) := by
  have hinside : Context.Eases E { ctx.inner with await := false, yield := false }
      { ctx'.inner with await := false, yield := false } :=
    ⟨hctx.inner.noIn, .inl, rfl, hctx.inner.decorator⟩
  refine .bind (.require_self _) fun _ _ _ => .bind (.eat_inside _) fun _ _ _ => ?_
  exact .bind (optionalValue_follows hr hinside) fun _ _ _ => .endStatement

theorem memberRest_follows (decorated : Bool) (mods : List Modifier) :
    Follows e E .inside id (memberRest r ctx decorated mods)
      (memberRest r' ctx' decorated mods) := by
  refine .bind_id accessor?_follows fun found => ?_
  cases found with
  | some a =>
    refine .bind .advance fun _ _ _ => .bind_id (memberName_follows hr hctx mods) fun name => ?_
    refine .bind (.require_self _) fun _ _ _ => .bind (.require_self _) fun _ _ _ => ?_
    exact accessorRest_follows hr a
  | none =>
    refine .bind_id (.eat_inside _) fun generator => ?_
    refine .bind_id (memberName_follows hr hctx mods) fun name => ?_
    refine .bind (.require_self _) fun _ _ _ => .bind (.eat_inside _) fun _ _ _ => ?_
    refine .bind_at _ (fun b => ?_) (.inr .inside)
    split
    · exact methodRest_follows hr _ _ _ _
    · exact propertyRest_follows hr hctx _ _

/-- A member of a class: a block, a method, an accessor or a property. -/
theorem classMember_follows : Follows e E .inside id (classMember r ctx) (classMember r' ctx') := by
  have hinside : Context.Eases E { ctx with await := true, yield := false, body := false }
      { ctx' with await := true, yield := false, body := false } :=
    ⟨hctx.noIn, .inl, rfl, hctx.decorator⟩
  refine .bind_id (decorators_follows hr hctx) fun decorated => ?_
  refine .bind_id modifiers_follows fun mods => .if_wordAhead _ (fun l l' hl => ?_) ?_ ?_
  · exact hl.eq (P := fun t _ => isPunct .leftBrace t) (by decide)
  · refine .bind (.require_self _) fun _ _ _ => .bind .advance fun _ _ _ => ?_
    exact .bind (block_follows hr hinside rfl) fun _ _ _ => .pure rfl
  · exact memberRest_follows hr hctx decorated mods

omit hr in
theorem dottedName_follows : Follows e E .inside id (dottedName ctx) (dottedName ctx') := by
  refine .bind_token (fun t => ?_) (.inl .inside)
  split
  · rename_i name _
    refine .bind (.require fun h => ?_) fun _ _ _ => .bind .advance fun _ _ _ => ?_
    · rcases Bool.or_eq_true_iff.mp h with hname | hthis
      · exact (hctx.isName hname).imp_left fun h => by rw [h, Bool.true_or]
      · exact .inl (by rw [hthis, Bool.or_true])
    · refine Follows.repeatFrom (v := id) (fun _ _ _ => ?_) rfl
      refine .bind_eat _ (.bind_token (fun t => ?_) (.inl .inside)) (.pure rfl) (.inr .inside)
      split
      · exact .bind .advance fun _ _ _ => .pure rfl
      · exact .fail
  · exact .fail

/-- What a class extends is read as the subject of a call. -/
theorem heritage_follows : Follows e E .inside id (heritage r ctx) (heritage r' ctx') := by
  have hnames : Follows e E .inside id (dottedNames ctx) (dottedNames ctx') := by
    refine Follows.repeatFrom (v := id) (fun _ _ _ => ?_) rfl
    refine .bind (dottedName_follows hctx) fun _ _ _ => ?_
    exact .bind_eat _ (.pure rfl) (.pure rfl) (.inr .inside)
  have himplements : Follows e E .inside id
      (do if ← eatWord "implements" then dottedNames ctx : Reader Unit)
      (do if ← eatWord "implements" then dottedNames ctx' : Reader Unit) := by
    refine .bind_eatWord _ fun b => ?_
    split
    · exact hnames
    · exact .pure rfl
  refine .bind_eatWord _ fun b => ?_
  split
  · exact .bind (hr.chain hctx).to_inside fun _ _ _ => himplements
  · exact himplements

/-- The members of a class and its closing brace. -/
def classMembers (r : Rules) (ctx : Context) : Reader Unit :=
  repeatFrom () fun _ => do
    if ← eat .rightBrace then return .inr ()
    else if ← eat .semicolon then return .inl ()
    else
      classMember r ctx
      return .inl ()

/-- The members of a class up to the closing brace. -/
theorem classMembers_follows :
    Follows e E .atEnd id (classMembers r ctx) (classMembers r' ctx') := by
  have heats : Eats (loopStop .inside .atEnd) (do
      if ← eat .semicolon then return .inl ()
      else
        classMember r ctx
        return .inl () : Reader (Unit ⊕ Unit)) :=
    .bind_eat _ (moves_pure _) .goes_on
  refine FollowsBy.repeatFrom (i := .inside) (v := id) (fun _ _ _ => ?_) (fun _ _ _ => ?_) rfl
  · refine .bind_eat _ (.pure rfl) (.bind_eat _ (.pure rfl) ?_ (.inr .goes_on)) (.inr heats)
    exact .goes_on (classMember_follows hr hctx) fun _ _ _ => rfl
  · exact .bind_eat _ (moves_pure _) heats

/-- A class behind its keyword. -/
theorem classAfterKeyword_follows {m : Option String → Stop} :
    FollowsBy e E m id (classAfterKeyword r ctx) (classAfterKeyword r' ctx') := by
  have hmembers (name? : Option String) : Follows e E .atEnd id
      (expect .leftBrace >>= fun _ => classMembers r ctx >>= fun _ => pure name?)
      (expect .leftBrace >>= fun _ => classMembers r' ctx' >>= fun _ => pure name?) :=
    .bind (.expect _) fun _ _ _ => .bind (classMembers_follows hr hctx) fun _ _ _ => .pure rfl
  have hrest (name? : Option String) : Follows e E .atEnd id
      (heritage r ctx >>= fun _ => expect .leftBrace >>= fun _ => classMembers r ctx >>= fun _ =>
        pure name?)
      (heritage r' ctx' >>= fun _ => expect .leftBrace >>= fun _ => classMembers r' ctx' >>=
        fun _ => pure name?) :=
    .bind_eats (heritage_follows hr hctx) (fun _ _ _ => hmembers name?) fun _ =>
      (Eats.expect _).bind fun _ => (classMembers_follows hr hctx).moves.bind fun _ => moves_pure _
  refine .of_atEnd (.bind_token (fun t => ?_) (.inr (hrest none)))
  split
  · split
    · exact .bind (hctx.requireName _) fun _ _ _ => .bind .advance fun _ _ _ => hrest _
    · exact hrest none
  · exact hrest none

end Classes

end UiTemplate.Script
