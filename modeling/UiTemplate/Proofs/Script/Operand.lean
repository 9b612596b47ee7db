import UiTemplate.Proofs.Script.Phrase

/-!
# Reading operands

How the grammar reads what is bound more tightly than all operators: literals, names, lists in
brackets, braces and parentheses, and the members and calls behind them. A phrase is read wherever
it stands, so it is known by its tokens alone:

- `Phrase.ReadsAssignment c`: where an expression without commas may stand, the tokens of `c` are
  taken and mean `c`.
- `Phrase.ReadsChain c`: where an operand may stand, they are taken and go on as a chain.
-/

namespace UiTemplate.Script

open Reader

/-! ## Meaning -/

/-- The term becomes the expression, whichever names are bound around it. -/
def Term.Denotes (t : Term) (e : Expr) : Prop :=
  ∀ bound, ∃ refs, Expr.ofTerm bound t = .ok (e, refs)

/-- The term is one that the phrase is read as. -/
structure Term.Means (t : Term) (c : Phrase) : Prop where
  denotes : t.Denotes c.tree
  isAndOr : c.isAndOr = false → t.isAndOr = false
  isUnary : c.rank = 14 → t.isUnary = false

/-- The item is the one that the phrase is read as. -/
def Element.Means (c : Phrase) (x : Element) : Prop :=
  ∃ t, x = .item t ∧ t.Means c

/-- Items that mean phrases become the trees of these. -/
theorem ofElements_of_means {items : List Phrase} {xs : List Element}
    (h : List.Forall₂ Element.Means items xs) (bound : List String) (fault : Fault) :
    ∃ refs, Expr.ofElements bound fault xs = .ok (trees items, refs) := by
  induction h with
  | nil => exact ⟨[], by rw [Expr.ofElements, trees]⟩
  | cons hx _ ih =>
    obtain ⟨t, rfl, ht⟩ := hx
    obtain ⟨refs, ht⟩ := ht.denotes bound
    obtain ⟨refs', ih⟩ := ih
    exact ⟨refs ++ refs', by rw [Expr.ofElements, ht, ih]; rfl⟩

/-- So do terms. -/
theorem ofTerms_of_means {items : List Phrase} {ts : List Term}
    (h : List.Forall₂ (fun c t => t.Means c) items ts) (bound : List String) :
    ∃ refs, Expr.ofTerms bound ts = .ok (trees items, refs) := by
  induction h with
  | nil => exact ⟨[], by rw [Expr.ofTerms, trees]⟩
  | cons hx _ ih =>
    obtain ⟨refs, ht⟩ := hx.denotes bound
    obtain ⟨refs', ih⟩ := ih
    exact ⟨refs ++ refs', by rw [Expr.ofTerms, ht, ih]; rfl⟩

/-- The property is the one that the field is read as. -/
def Property.Means (f : Field) (p : Property) : Prop :=
  ∃ shorthand value,
    p = .field (some f.entry.1) false false shorthand false value ∧ value.Denotes f.entry.2

/-- Properties that mean fields become the entries of these. -/
theorem ofProperties_of_means {fields : List Field} {ps : List Property}
    (h : List.Forall₂ Property.Means fields ps) (bound : List String) (start : Nat) :
    ∃ refs, Expr.ofProperties bound start ps = .ok (fieldTrees fields, refs) := by
  induction h with
  | nil => exact ⟨[], by rw [Expr.ofProperties, fieldTrees]⟩
  | cons hx _ ih =>
    obtain ⟨shorthand, value, rfl, hvalue⟩ := hx
    obtain ⟨refs, hvalue⟩ := hvalue bound
    obtain ⟨refs', ih⟩ := ih
    exact ⟨_, by rw [Expr.ofProperties, hvalue, ih]; rfl⟩

/-! ## Tokens around phrases -/

/-- The context is that of an expression: `in` is an operator, and a bracket begins a member. -/
structure Context.Ordinary (ctx : Context) : Prop where
  noIn : ctx.noIn = false
  decorator : ctx.decorator = false

theorem Context.ordinary_inner (ctx : Context) : ctx.inner.Ordinary :=
  ⟨rfl, rfl⟩

/-- A name is one in every context. -/
theorem Context.isName_text (ctx : Context) (n : VariableName) : ctx.isName n.text = true := by
  have hawait : (n.text == "await") = false := beq_eq_false_iff_ne.mpr (n.text_ne (by decide))
  have hyield : (n.text == "yield") = false := beq_eq_false_iff_ne.mpr (n.text_ne (by decide))
  rw [isName, n.isBindingWord_text, hawait, hyield, Bool.and_false, Bool.and_false]
  rfl

/-- A token behind an expression without a comma at its top. -/
def Token.closes : Token → Bool
  | .eof => true
  | .punct p => [Punct.rightParen, .rightBracket, .rightBrace, .comma, .colon].contains p
  | _ => false

/-- A phrase begins with none of the punctuators that begin no phrase. -/
theorem Token.isPunct_eq_false {t : Token} {p : Punct} (h : t.begins = true)
    (hp : openings.contains p = false) : isPunct p t = false := by
  cases t with
  | punct q =>
    simp only [isPunct, beq_eq_false_iff_ne]
    rintro rfl
    exact absurd (hp.symm.trans h) Bool.false_ne_true
  | _ => rfl

/-- The first token of a phrase is not the given punctuator, if that begins no phrase. -/
theorem Phrase.isPunct_first (c : Phrase) {p : Punct} (hp : openings.contains p = false) :
    ∃ t rest, c.tokens = t :: rest ∧ isPunct p t = false := by
  obtain ⟨rest, h⟩ := c.tokens_eq_cons
  exact ⟨c.first, rest, h, Token.isPunct_eq_false c.first_begins hp⟩

/-! ## Items -/

/-- The phrase is read where an expression without commas may stand, by rules for nesting that is at
least as deep as there are tokens. -/
def Phrase.ReadsAssignment (c : Phrase) : Prop :=
  ∀ n, c.tokens.length < n → ∀ ctx, ctx.Ordinary → ∀ u after, u.closes = true →
    Takes ((Rules.ofDepth n).assignment ctx) c.tokens (u :: after) (Term.Means · c)

variable {n : Nat} {ctx : Context} {items : List Phrase} {u : Token} {after : List Token}

/-- An argument is a phrase before a comma or a closing parenthesis. -/
theorem argument_takes {c : Phrase} (hc : c.ReadsAssignment) (hn : c.tokens.length < n)
    (hu : u.closes = true) :
    Takes (argument (.ofDepth n) ctx) c.tokens (u :: after) (Element.Means c) := by
  obtain ⟨t, rest, hts, hellipsis⟩ := c.isPunct_first (p := .ellipsis) rfl
  rw [argument]
  refine Takes.bind_eat_absent (by rw [hts]; rfl) hellipsis ?_
  refine Takes.bind_last (hc n hn _ ctx.ordinary_inner u after hu) fun t ht => ?_
  exact Takes.pure ⟨t, rfl, ht⟩

/-- So is an item of an array. -/
theorem arrayElement_takes {c : Phrase} (hc : c.ReadsAssignment) (hn : c.tokens.length < n)
    (hu : u.closes = true) :
    Takes (arrayElement (.ofDepth n) ctx) c.tokens (u :: after) (Element.Means c) := by
  obtain ⟨t, rest, hts, hcomma⟩ := c.isPunct_first (p := .comma) rfl
  rw [arrayElement]
  refine Takes.bind_at (by rw [hts]; rfl) ?_
  rw [hcomma]
  exact argument_takes hc hn hu

/-- Items up to a closing punctuator. -/
theorem delimited_takes {α : Type} {item : Reader α} {Q : Phrase → α → Prop} {close : Punct}
    (hclose : (Token.punct close).closes = true) (hother : close ≠ .comma)
    (hitems : ∀ c ∈ items, c.ReadsAssignment) (hn : (commas (rows items)).length < n)
    (hitem : ∀ c : Phrase, c.ReadsAssignment → c.tokens.length < n → ∀ u after, u.closes = true →
      Takes item c.tokens (u :: after) (Q c)) :
    Takes (delimited close item) (commas (rows items) ++ [.punct close]) (u :: after)
      fun r => List.Forall₂ Q items r.1 ∧ r.2 = false := by
  rw [rows_eq_map] at hn ⊢
  refine Takes.delimited hother items ?_ ?_
  · intro c hc v later hv
    have hlen := length_le_commas (List.mem_map_of_mem (f := Phrase.tokens) hc)
    refine hitem c (hitems c hc) (by omega) v later ?_
    rcases hv with rfl | rfl
    · rfl
    · exact hclose
  · intro c _
    refine c.isPunct_first ?_
    cases close <;> first | rfl | exact absurd hclose (by decide)

/-- Phrases in parentheses are taken one by one, without a comma behind the last. -/
theorem enclosed_takes (hitems : ∀ c ∈ items, c.ReadsAssignment)
    (hn : (commas (rows items)).length < n) :
    Takes (enclosed (.ofDepth n) ctx) (parens (commas (rows items))) (u :: after)
      fun r => List.Forall₂ Element.Means items r.1 ∧ r.2 = false := by
  rw [enclosed, parens]
  refine Takes.bind_expect (by simp) ?_
  exact delimited_takes rfl (by decide) hitems hn fun c hc hlen v later hv =>
    argument_takes hc hlen hv

/-- The arguments of a call are the phrases in its parentheses. -/
theorem arguments_takes (hitems : ∀ c ∈ items, c.ReadsAssignment)
    (hn : (commas (rows items)).length < n) :
    Takes (arguments (.ofDepth n) ctx) (parens (commas (rows items))) (u :: after)
      (List.Forall₂ Element.Means items) := by
  rw [arguments]
  refine Takes.bind_last (enclosed_takes hitems hn) ?_
  rintro ⟨xs, trailing⟩ ⟨hxs, -⟩
  exact Takes.pure hxs

/-! ## Atoms -/

/-- The phrase is read as a literal, a name or an expression that carries its own delimiters. -/
def Phrase.ReadsPrimary (c : Phrase) : Prop :=
  ∀ n, c.tokens.length ≤ n → ∀ ctx, ctx.Ordinary → ∀ u after,
    Takes (primary (.ofDepth n) ctx) c.tokens (u :: after) (Term.Means · c)

theorem Phrase.readsPrimary_null : Phrase.null.ReadsPrimary := by
  intro n hn ctx hctx u after
  rw [primary]
  refine Takes.bind_start fun _ => Takes.bind_token rfl (Takes.bind_start fun _ => ?_)
  exact Takes.bind_advance (by simp) (Takes.pure ⟨fun _ => ⟨[], rfl⟩, fun _ => rfl, fun _ => rfl⟩)

theorem Phrase.readsPrimary_bool (b : Bool) : (Phrase.bool b).ReadsPrimary := by
  intro n hn ctx hctx u after
  rw [primary]
  cases b
  all_goals
    refine Takes.bind_start fun _ => Takes.bind_token rfl (Takes.bind_start fun _ => ?_)
    exact Takes.bind_advance (by simp)
      (Takes.pure ⟨fun _ => ⟨[], rfl⟩, fun _ => rfl, fun _ => rfl⟩)

theorem Phrase.readsPrimary_number (x : Float) : (Phrase.number x).ReadsPrimary := by
  intro n hn ctx hctx u after
  rw [primary]
  refine Takes.bind_start fun _ => Takes.bind_token rfl ?_
  exact Takes.bind_advance (by simp) (Takes.pure ⟨fun _ => ⟨[], rfl⟩, fun _ => rfl, fun _ => rfl⟩)

theorem Phrase.readsPrimary_str (s : String) : (Phrase.str s).ReadsPrimary := by
  intro n hn ctx hctx u after
  rw [primary]
  refine Takes.bind_start fun _ => Takes.bind_token rfl ?_
  exact Takes.bind_advance (by simp) (Takes.pure ⟨fun _ => ⟨[], rfl⟩, fun _ => rfl, fun _ => rfl⟩)

/-- The name of a variable is taken as itself. -/
theorem nameTerm_takes (v : VariableName) :
    Takes (nameTerm ctx v.text) [v.token] (u :: after)
      fun t => ∃ start stop, t = .ident v.text start stop := by
  rw [nameTerm]
  refine Takes.bind_require (ctx.isName_text v) (Takes.bind_get rfl fun c _ => ?_)
  exact Takes.bind_advance (by simp) (Takes.pure ⟨_, _, rfl⟩)

/-- A name is no keyword. -/
theorem wordTerm_takes (v : VariableName) :
    Takes (wordTerm (.ofDepth n) ctx v.text) [v.token] (u :: after)
      fun t => ∃ start stop, t = .ident v.text start stop := by
  have hasync : (v.text == "async") = false := beq_eq_false_iff_ne.mpr (v.text_ne (by decide))
  rw [wordTerm]
  refine Takes.bind_start fun _ => ?_
  split
  all_goals first
    | (rename_i heq
       exact absurd heq (v.text_ne (by decide)))
    | skip
  refine Takes.bind_lookahead rfl fun l _ => ?_
  rw [hasync, Bool.false_and, Bool.false_and]
  exact nameTerm_takes v

/-- A name alone is an operand. -/
theorem Phrase.readsPrimary_name (v : VariableName) : (Phrase.name v).ReadsPrimary := by
  intro n hn ctx hctx u after
  rw [primary]
  refine Takes.bind_start fun _ => Takes.bind_token rfl ?_
  refine (wordTerm_takes v).imp ?_
  rintro _ ⟨start, stop, rfl⟩
  exact ⟨fun bound => ⟨_, rfl⟩, fun _ => rfl, fun _ => rfl⟩

/-- An array of phrases is an operand. -/
theorem Phrase.readsPrimary_array (hitems : ∀ c ∈ items, c.ReadsAssignment) :
    (Phrase.array items).ReadsPrimary := by
  intro n hn ctx hctx u after
  rw [tokens, List.length_cons, List.length_append] at hn
  rw [primary, tokens]
  refine Takes.bind_start fun start => Takes.bind_token rfl (Takes.bind_advance (by simp) ?_)
  refine Takes.bind_last (delimited_takes rfl (by decide) hitems (by omega)
    fun c hc hlen v later hv => arrayElement_takes hc hlen hv) ?_
  rintro ⟨xs, trailing⟩ ⟨hxs, -⟩
  refine Takes.pure ⟨fun bound => ?_, fun _ => rfl, fun _ => rfl⟩
  obtain ⟨refs, hxs⟩ := ofElements_of_means hxs bound (Expr.faultAt .spreadOrHole start)
  exact ⟨refs, by rw [Expr.ofTerm, hxs]; rfl⟩

/-- Items without spreads are the terms of a sequence. -/
theorem mapM_term?_of_means {xs : List Element} (h : List.Forall₂ Element.Means items xs) :
    ∃ ts, xs.mapM Element.term? = some ts ∧ List.Forall₂ (fun c t => t.Means c) items ts := by
  induction h with
  | nil => exact ⟨[], rfl, .nil⟩
  | cons hx _ ih =>
    obtain ⟨t, rfl, ht⟩ := hx
    obtain ⟨ts, hts, hmeans⟩ := ih
    exact ⟨t :: ts, by rw [List.mapM_cons, hts]; rfl, .cons ht hmeans⟩

/-- Items in parentheses without a comma after the last are an expression. -/
theorem group?_of_means {xs : List Element} (h : List.Forall₂ Element.Means items xs)
    (hne : items ≠ []) : ∃ t, group? xs false = some t ∧ t.Means (.group items) := by
  obtain ⟨ts, hts, hmeans⟩ := mapM_term?_of_means h
  rw [group?, hts]
  cases hmeans with
  | nil => exact absurd rfl hne
  | cons ht hmeans =>
    cases hmeans with
    | nil =>
      refine ⟨_, rfl, fun bound => ?_, fun _ => rfl, fun _ => rfl⟩
      rw [Expr.ofTerm]
      exact ht.denotes bound
    | cons ht' hmeans =>
      refine ⟨_, rfl, fun bound => ?_, fun _ => rfl, fun _ => rfl⟩
      obtain ⟨refs, h⟩ := ofTerms_of_means (.cons ht (.cons ht' hmeans)) bound
      exact ⟨refs, by rw [Expr.ofTerm, Expr.ofTerm, h]; rfl⟩

/-- Expressions in parentheses. -/
theorem groupTerm_takes (hitems : ∀ c ∈ items, c.ReadsAssignment) (hne : items ≠ [])
    (hn : (commas (rows items)).length < n) :
    Takes (groupTerm (.ofDepth n) ctx) (parens (commas (rows items))) (u :: after)
      fun t => t.Means (.group items) := by
  rw [groupTerm]
  refine Takes.bind_last (enclosed_takes hitems hn) ?_
  rintro ⟨xs, trailing⟩ ⟨hxs, rfl⟩
  obtain ⟨t, ht, hmeans⟩ := group?_of_means hxs hne
  dsimp only
  rw [ht]
  exact Takes.pure hmeans

/-- Phrases in parentheses are an operand, if there are any. -/
theorem Phrase.readsPrimary_group (hitems : ∀ c ∈ items, c.ReadsAssignment) (hne : items ≠ []) :
    (Phrase.group items).ReadsPrimary := by
  intro n hn ctx hctx u after
  rw [tokens, parens, List.length_cons, List.length_append] at hn
  rw [primary]
  refine Takes.bind_start fun _ => Takes.bind_token rfl ?_
  exact groupTerm_takes hitems hne (by omega)

/-! ## Objects -/

/-- A token behind the name of a field. -/
def Token.endsName (t : Token) : Prop :=
  t = .punct .colon ∨ t = .punct .comma ∨ t = .punct .rightBrace

/-- No accessor starts with a word before the end of a name. -/
theorem accessor?_takes {t : Token} (hu : u.endsName) :
    Takes accessor? [] (t :: u :: after) (· = none) := by
  have hkey : u.beginsKey = false := by
    rcases hu with rfl | rfl | rfl <;> rfl
  rw [accessor?]
  refine Takes.bind_lookahead rfl fun l hl => Takes.bind_atWord rfl ?_
  rw [hl, hkey, Bool.and_false]
  refine Takes.bind_atWord rfl ?_
  rw [Bool.and_false]
  exact Takes.pure rfl

/-- Nor does an asynchronous method. -/
theorem atAsyncMethod_takes {t : Token} (hu : u.endsName) :
    Takes atAsyncMethod [] (t :: u :: after) (· = false) := by
  have hkey : (u.beginsKey || isPunct .star u) = false := by
    rcases hu with rfl | rfl | rfl <;> rfl
  rw [atAsyncMethod]
  refine Takes.bind_lookahead rfl fun l hl => Takes.bind_atWord rfl ?_
  rw [hl, hkey, Bool.and_false]
  exact Takes.pure rfl

/-- The name of a field is taken as its key. -/
theorem propertyKey_takes {r : Rules} (name : FieldName) (number : Float → String) :
    Takes (propertyKey r ctx number) [name.token] (u :: after) (· = (some name.text, false)) := by
  rw [propertyKey]
  refine Takes.bind_token rfl ?_
  cases name with
  | word text => exact Takes.bind_advance (by simp) (Takes.pure rfl)
  | str text => exact Takes.bind_advance (by simp) (Takes.pure rfl)

/-- A field is its name, a colon and a phrase. -/
theorem plainField_takes_pair (name : FieldName) {value : Phrase} (hvalue : value.ReadsAssignment)
    (hn : value.tokens.length < n) (hu : u.closes = true) :
    Takes (plainField (.ofDepth n) ctx) (Field.pair name value).tokens (u :: after)
      (Property.Means (.pair name value)) := by
  rw [plainField]
  refine Takes.bind_peek (atAsyncMethod_takes (.inl rfl)) ?_
  rintro _ rfl
  refine Takes.bind_eat_absent rfl (by cases name <;> rfl) ?_
  refine Takes.bind_start fun _ => Takes.bind_get rfl fun _ _ => Takes.bind_token rfl ?_
  have hkey : Takes (propertyKey (.ofDepth n) ctx Json.numberText) [name.token]
      (.punct .colon :: value.tokens ++ u :: after) (· = (some name.text, false)) :=
    propertyKey_takes name _
  refine Takes.bind hkey ?_
  rintro _ rfl
  refine Takes.bind_at rfl (Takes.bind_eat (by simp) ?_)
  refine Takes.bind_last (hvalue n hn _ ctx.ordinary_inner u after hu) fun t ht => ?_
  exact Takes.pure ⟨false, t, rfl, ht.denotes⟩

/-- A variable stands for the field of its name. -/
theorem plainField_takes_shorthand (v : VariableName)
    (hu : u = .punct .comma ∨ u = .punct .rightBrace) :
    Takes (plainField (.ofDepth n) ctx) (Field.shorthand v).tokens (u :: after)
      (Property.Means (.shorthand v)) := by
  have hpunct {p : Punct} (hcomma : p ≠ .comma) (hbrace : p ≠ .rightBrace) :
      isPunct p u = false := by
    rcases hu with rfl | rfl
    · simpa [isPunct] using hcomma
    · simpa [isPunct] using hbrace
  rw [plainField]
  refine Takes.bind_peek (atAsyncMethod_takes (.inr hu)) ?_
  rintro _ rfl
  refine Takes.bind_eat_absent rfl rfl ?_
  refine Takes.bind_start fun nameStart => Takes.bind_get rfl fun c _ => Takes.bind_token rfl ?_
  have hkey : Takes (propertyKey (.ofDepth n) ctx Json.numberText) [v.token] (u :: after)
      (· = (some v.text, false)) :=
    propertyKey_takes (.word v.text) _
  refine Takes.bind_last hkey ?_
  rintro _ rfl
  refine Takes.bind_at rfl ?_
  rw [hpunct (p := .leftParen) (by decide) (by decide)]
  refine Takes.bind_eat_absent rfl (hpunct (by decide) (by decide)) ?_
  simp only [VariableName.token, ctx.isName_text, if_true, Bool.false_eq_true, if_false]
  have hvalue : Takes (optionalValue (.ofDepth n) ctx.inner) [] (u :: after) (· = false) := by
    rw [optionalValue]
    exact Takes.bind_eat_absent rfl (hpunct (by decide) (by decide)) (Takes.pure rfl)
  refine Takes.bind_last hvalue ?_
  rintro _ rfl
  exact Takes.pure ⟨true, _, rfl, fun bound => ⟨_, rfl⟩⟩

/-- A property of an object literal is one field. -/
theorem objectProperty_takes (f : Field)
    (hf : ∀ name value, f = .pair name value → value.ReadsAssignment)
    (hn : f.tokens.length ≤ n) (hu : u = .punct .comma ∨ u = .punct .rightBrace) :
    Takes (objectProperty (.ofDepth n) ctx) f.tokens (u :: after) (Property.Means f) := by
  rw [objectProperty]
  cases f with
  | pair name value =>
    refine Takes.bind_eat_absent rfl (by cases name <;> rfl) ?_
    refine Takes.bind_peek (accessor?_takes (.inl rfl)) ?_
    rintro _ rfl
    rw [Field.tokens, List.length_cons, List.length_cons] at hn
    refine plainField_takes_pair name (hf name value rfl) (by omega) ?_
    rcases hu with rfl | rfl <;> rfl
  | shorthand v =>
    refine Takes.bind_eat_absent rfl rfl (Takes.bind_peek (accessor?_takes (.inr hu)) ?_)
    rintro _ rfl
    exact plainField_takes_shorthand v hu

/-- An object literal of fields is an operand. -/
theorem Phrase.readsPrimary_object {fields : List Field}
    (hfields : ∀ f ∈ fields, ∀ name value, f = .pair name value → value.ReadsAssignment) :
    (Phrase.object fields).ReadsPrimary := by
  intro n hn ctx hctx u after
  rw [tokens, fieldRows_eq_map, List.length_cons, List.length_append] at hn
  rw [primary, tokens, fieldRows_eq_map]
  refine Takes.bind_start fun start => Takes.bind_token rfl (Takes.bind_advance (by simp) ?_)
  have hitems : Takes (delimited .rightBrace (objectProperty (.ofDepth n) ctx))
      (commas (fields.map Field.tokens) ++ [.punct .rightBrace]) (u :: after)
      fun r => List.Forall₂ Property.Means fields r.1 ∧ r.2 = false := by
    refine Takes.delimited (by decide) fields ?_ ?_
    · intro f hf v later hv
      have hlen := length_le_commas (List.mem_map_of_mem (f := Field.tokens) hf)
      exact objectProperty_takes f (hfields f hf) (by omega) hv
    · intro f _
      cases f with
      | pair name value => exact ⟨name.token, _, rfl, by cases name <;> rfl⟩
      | shorthand v => exact ⟨v.token, _, rfl, rfl⟩
  refine Takes.bind_last hitems ?_
  rintro ⟨ps, trailing⟩ ⟨hps, -⟩
  refine Takes.pure ⟨fun bound => ?_, fun _ => rfl, fun _ => rfl⟩
  obtain ⟨refs, hps⟩ := ofProperties_of_means hps bound start
  exact ⟨refs, by rw [Expr.ofTerm, hps]; rfl⟩

/-! ## Chains -/

/-- A step of the loop over members and calls. -/
def chainStep (r : Rules) (ctx : Context) (calls : Bool) (start : Nat) (state : Term × Bool) :
    Reader ((Term × Bool) ⊕ Term) := do
  let done : (Term × Bool) ⊕ Term :=
    .inr (if state.2 then .other .optionalChain start else state.1)
  match ← token with
  | .punct .dot =>
    advance
    return .inl (← dotMember start state.1, state.2)
  | .punct .leftBracket =>
    if ctx.decorator then return done
    else return .inl (← indexMember r ctx state.1, state.2)
  | .punct .questionDot =>
    match (← lookahead).token with
    | .punct .leftParen =>
      if calls then
        advance
        let _ ← arguments r ctx
        return .inl (state.1, true)
      else return done
    | .punct .leftBracket =>
      require (!ctx.decorator)
      advance
      return .inl (← indexMember r ctx state.1, true)
    | _ =>
      advance
      return .inl (← dotMember start state.1, true)
  | .punct .leftParen =>
    if calls then return .inl (.call start state.1 (← arguments r ctx), state.2)
    else return done
  | .quasi cooked last =>
    require (!state.2)
    let _ ← templateLiteral r ctx cooked last
    return .inl (.other .unusual start, false)
  | _ => return done

theorem chainRest_eq (r : Rules) (ctx : Context) (calls : Bool) (start : Nat) (base : Term) :
    chainRest r ctx calls start base = repeatFrom (base, false) (chainStep r ctx calls start) :=
  rfl

/-- The phrase is read as an operand: whatever the members and calls behind it are taken by goes on
with what the phrase means. -/
def Phrase.ReadsChain (c : Phrase) : Prop :=
  ∀ n, c.tokens.length ≤ n → ∀ ctx, ctx.Ordinary → ∀ start us after, us ++ after ≠ [] →
    ∀ post : Term → Prop,
    (∀ t fuel, t.Means c → (us ++ after).length < fuel →
      Takes (iterate (chainStep (.ofDepth n) ctx true start) fuel (t, false)) us after post) →
    Takes (primary (.ofDepth n) ctx >>= chainRest (.ofDepth n) ctx true start)
      (c.tokens ++ us) after post

/-- An operand alone is a chain. -/
theorem Phrase.ReadsPrimary.readsChain {c : Phrase} (h : c.ReadsPrimary) : c.ReadsChain := by
  intro n hn ctx hctx start us after hne post hrest
  obtain ⟨u, later, hus⟩ := List.exists_cons_of_ne_nil hne
  have hc := h n hn ctx hctx u later
  rw [← hus] at hc
  refine Takes.bind hc fun t ht => ?_
  rw [chainRest_eq]
  exact Takes.repeatFrom fun fuel hfuel => hrest t fuel ht hfuel

/-- One more member or call. -/
theorem Phrase.ReadsChain.link {c d : Phrase} (ls : List Token) (hc : c.ReadsChain)
    (htokens : d.tokens = c.tokens ++ ls) (hls : ls ≠ [])
    (hstep : ∀ n, d.tokens.length ≤ n → ∀ ctx, ctx.Ordinary → ∀ start t u after, t.Means c →
      Takes (chainStep (.ofDepth n) ctx true start (t, false)) ls (u :: after)
        fun r => ∃ t', r = .inl (t', false) ∧ t'.Means d) :
    d.ReadsChain := by
  intro n hn ctx hctx start us after hne post hrest
  obtain ⟨u, later, hus⟩ := List.exists_cons_of_ne_nil hne
  have hlen : c.tokens.length ≤ n := by
    rw [htokens, List.length_append] at hn
    omega
  rw [htokens, List.append_assoc]
  refine hc n hlen ctx hctx start (ls ++ us) after (by simp [hls]) post fun t fuel ht hfuel => ?_
  have hpos := List.length_pos_of_ne_nil hls
  rw [List.append_assoc, List.length_append] at hfuel
  obtain ⟨fuel, rfl⟩ : ∃ k, fuel = k + 1 := ⟨fuel - 1, by omega⟩
  have hone := hstep n hn ctx hctx start t u later ht
  rw [← hus] at hone
  refine Takes.iterate_more (m := fun s => ∃ t', s = (t', false) ∧ t'.Means d) ?_ ?_
  · refine hone.imp ?_
    rintro _ ⟨t', rfl, ht'⟩
    exact ⟨_, rfl, t', rfl, ht'⟩
  · rintro _ ⟨t', rfl, ht'⟩
    exact hrest t' fuel ht' (by omega)

/-- A chain goes on with the name of a member. -/
theorem Phrase.ReadsChain.member {c : Phrase} (hc : c.ReadsChain) (name : String) :
    (Phrase.member c name).ReadsChain := by
  refine hc.link [.punct .dot, .word name false] rfl (by simp) ?_
  intro n hn ctx hctx start t u after ht
  refine Takes.bind_token rfl (Takes.bind_advance (by simp) ?_)
  have hname : Takes (dotMember start t) [.word name false] (u :: after) (· = .member t name) := by
    rw [dotMember]
    exact Takes.bind_token rfl (Takes.bind_advance (by simp) (Takes.pure rfl))
  refine Takes.bind_last hname ?_
  rintro _ rfl
  refine Takes.pure ⟨_, rfl, fun bound => ?_, fun _ => rfl, fun _ => rfl⟩
  obtain ⟨refs, h⟩ := ht.denotes bound
  exact ⟨refs, by rw [Expr.ofTerm, h]; rfl⟩

/-- It goes on with a phrase in brackets. -/
theorem Phrase.ReadsChain.index {c key : Phrase} (hc : c.ReadsChain) (hkey : key.ReadsAssignment) :
    (Phrase.index c key).ReadsChain := by
  refine hc.link (.punct .leftBracket :: (key.tokens ++ [.punct .rightBracket])) rfl
    (by simp) ?_
  intro n hn ctx hctx start t u after ht
  rw [tokens, List.length_append, List.length_cons, List.length_append] at hn
  refine Takes.bind_token rfl ?_
  rw [hctx.decorator]
  have hmember : Takes (indexMember (.ofDepth n) ctx t)
      (.punct .leftBracket :: (key.tokens ++ [.punct .rightBracket])) (u :: after)
      fun t' => ∃ k, t' = .index t k ∧ k.Means key := by
    have hexpression : Takes (expression (.ofDepth n) ctx.inner) key.tokens
        ([.punct .rightBracket] ++ u :: after) (Term.Means · key) := by
      rw [expression]
      refine Takes.bind_last (hkey n (by omega) _ ctx.ordinary_inner _ _ rfl) fun k hk => ?_
      exact Takes.bind_at rfl (Takes.pure hk)
    rw [indexMember]
    refine Takes.bind_expect (by simp) (Takes.bind hexpression fun k hk => ?_)
    exact Takes.bind_expect (by simp) (Takes.pure ⟨k, rfl, hk⟩)
  refine Takes.bind_last hmember ?_
  rintro _ ⟨k, rfl, hk⟩
  refine Takes.pure ⟨_, rfl, fun bound => ?_, fun _ => rfl, fun _ => rfl⟩
  obtain ⟨refs, h⟩ := ht.denotes bound
  obtain ⟨refs', h'⟩ := hk.denotes bound
  exact ⟨refs ++ refs', by rw [Expr.ofTerm, h, h']; rfl⟩

/-- It goes on with the arguments of a call. -/
theorem Phrase.ReadsChain.call {c : Phrase} (hc : c.ReadsChain)
    (hitems : ∀ d ∈ items, d.ReadsAssignment) : (Phrase.call c items).ReadsChain := by
  refine hc.link (parens (commas (rows items))) rfl (by simp [parens]) ?_
  intro n hn ctx hctx start t u after ht
  rw [tokens, List.length_append, parens, List.length_cons, List.length_append] at hn
  refine Takes.bind_token rfl (Takes.bind_last (arguments_takes hitems (by omega)) fun xs hxs => ?_)
  refine Takes.pure ⟨_, rfl, fun bound => ?_, fun _ => rfl, fun _ => rfl⟩
  obtain ⟨refs, h⟩ := ht.denotes bound
  obtain ⟨refs', h'⟩ := ofElements_of_means hxs bound (Expr.faultAt .spreadArgument start)
  exact ⟨refs ++ refs', by rw [Expr.ofTerm, h, h']; rfl⟩

end UiTemplate.Script
