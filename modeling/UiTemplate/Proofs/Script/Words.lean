import UiTemplate.Expression.Basic
import UiTemplate.Proofs.Result
import UiTemplate.Script.Grammar

/-!
# Names are words

A term that is a name has the name of a word, and the characters of a word are such as identifiers
have, also where an escape stands for them.

- `next_spelled`: this holds of every token.
- `Gives p post`: where a token stands that was taken off a text, what the reader gives satisfies
  `post`.
- `Expression.isWord_of_ident`: an expression that is a name is a word.
-/

namespace UiTemplate.Script

open Text

/-! ## Tokens -/

/-- The characters are such as identifiers have. -/
def IsWord (name : String) : Prop :=
  ∀ c ∈ name.toList, isIdentPart c = true

/-- A word has characters such as identifiers have. -/
def Token.Spelled : Token → Prop
  | .word name _ => IsWord name
  | _ => True

theorem isIdentPart_of_start {c : Char} (h : isIdentStart c = true) : isIdentPart c = true := by
  rw [isIdentPart, h, Bool.true_or, Bool.true_or]

/-- All characters of a word are such as names have. -/
theorem scanWord_name {first : Bool} {fuel : Nat} {cs : List Char} {w : Word}
    (h : scanWord first fuel cs = some w) : ∀ c ∈ w.name, isIdentPart c = true := by
  induction fuel generalizing first cs w with
  | zero => cases h
  | succ fuel ih =>
    have hallowed {c : Char} (hc : (if first then isIdentStart c else isIdentPart c) = true) :
        isIdentPart c = true := by
      cases first with
      | true => exact isIdentPart_of_start hc
      | false => exact hc
    have hcons {c : Char} {width : Nat} {escaped : Bool} {rest : List Char}
        (hc : isIdentPart c = true)
        (hw : (scanWord false fuel rest).map (Word.cons c width escaped) = some w) :
        ∀ d ∈ w.name, isIdentPart d = true := by
      obtain ⟨w', hw', rfl⟩ := Option.map_eq_some_iff.mp hw
      exact List.forall_mem_cons.mpr ⟨hc, ih hw'⟩
    unfold scanWord at h
    extract_lets allowed at h
    split at h
    · obtain ⟨⟨code, width, rest⟩, -, h⟩ := Option.bind_eq_some_iff.mp h
      dsimp only at h
      split at h
      · cases h
      · rename_i hcode
        simp only [Bool.or_eq_true, not_or, Bool.not_eq_true', Bool.not_eq_false] at hcode
        exact hcons (hallowed hcode.2) h
    · cases h
    · split at h
      · exact hcons (hallowed ‹_›) h
      · cases h
        exact fun c hc => absurd hc List.not_mem_nil
    · cases h
      exact fun c hc => absurd hc List.not_mem_nil

/-- The token is a number, big or not. -/
def Token.isNumeral : Token → Bool
  | .number _ => true
  | .bigint => true
  | _ => false

theorem Token.spelled_of_isNumeral {t : Token} (h : t.isNumeral = true) : t.Spelled := by
  cases t with
  | word name escaped => cases h
  | _ => trivial

/-- A numeral stays one with a suffix, or becomes one of another kind. -/
theorem withSuffix_isNumeral {t : Token} (ht : t.isNumeral = true) (width : Nat)
    (cs : List Char) : (withSuffix t width cs).1.isNumeral = true := by
  unfold withSuffix
  split
  · rfl
  · exact ht

theorem basedNumber_isNumeral {base : Nat} {cs : List Char} {r : Token × Nat × List Char}
    (h : basedNumber base cs = some r) : r.1.isNumeral = true := by
  obtain ⟨⟨digits, width, rest⟩, -, h⟩ := Option.bind_eq_some_iff.mp h
  dsimp only at h
  split at h
  · cases h
  · cases h
    exact withSuffix_isNumeral rfl _ _

theorem decimalTail_isNumeral {whole cs : List Char} {width : Nat} {r : Token × Nat × List Char}
    (h : decimalTail whole width cs = some r) : r.1.isNumeral = true := by
  have hnumber (x : Float) {short : Bool} {width width' : Nat} {rest : List Char} :
      (if short = true then withSuffix (.number x) width rest
        else (.number x, width', rest)).1.isNumeral = true := by
    split
    · exact withSuffix_isNumeral rfl _ _
    · rfl
  unfold decimalTail at h
  dsimp only at h
  split at h
  · obtain ⟨⟨digits, w, rest⟩, -, h⟩ := Option.bind_eq_some_iff.mp h
    obtain ⟨part, -, h⟩ := Option.bind_eq_some_iff.mp h
    obtain ⟨⟨e, expWidth, rest⟩, -, h⟩ := Option.bind_eq_some_iff.mp h
    rw [← Option.some.inj h]
    exact hnumber _
  · obtain ⟨part, -, h⟩ := Option.bind_eq_some_iff.mp h
    obtain ⟨⟨e, expWidth, rest⟩, -, h⟩ := Option.bind_eq_some_iff.mp h
    rw [← Option.some.inj h]
    exact hnumber _

theorem zeroLed_isNumeral {cs : List Char} {r : Token × Nat × List Char}
    (h : zeroLed cs = some r) : r.1.isNumeral = true := by
  unfold zeroLed at h
  dsimp only at h
  split at h
  · cases h
  · split at h
    · cases h
      rfl
    · split at h
      · cases h
      · exact decimalTail_isNumeral h

/-- What begins with a digit is a numeral, if it is a token at all. -/
theorem scanNumber_isNumeral {cs : List Char} {r : Token × Nat × List Char}
    (h : scanNumber cs = some r) : r.1.isNumeral = true := by
  have hends {scanned : Option (Token × Nat × List Char)}
      (hs : ∀ t ∈ scanned, t.1.isNumeral = true)
      (h : (scanned.bind fun t =>
        if (t.2.2.head?.any fun c => c.isDigit || isIdentStart c || c == '\\') = true then none
        else some t) = some r) : r.1.isNumeral = true := by
    obtain ⟨t, ht, h⟩ := Option.bind_eq_some_iff.mp h
    split at h
    · cases h
    · cases h
      exact hs _ ht
  unfold scanNumber at h
  dsimp only at h
  split at h
  · split at h
    · exact hends (fun _ => basedNumber_isNumeral) h
    · split at h
      · exact hends (fun _ => basedNumber_isNumeral) h
      · split at h
        · exact hends (fun _ => basedNumber_isNumeral) h
        · split at h
          · cases h
          · split at h
            · exact hends (fun _ => zeroLed_isNumeral) h
            · exact hends (fun _ => decimalTail_isNumeral) h
  · exact hends (fun _ => decimalTail_isNumeral) h
  · obtain ⟨⟨whole, width, rest⟩, -, h⟩ := Option.bind_eq_some_iff.mp h
    exact hends (fun _ => decimalTail_isNumeral) h

theorem scanPunct_punct {cs : List Char} {r : Token × Nat × List Char}
    (h : scanPunct cs = some r) : ∃ p, r.1 = .punct p := by
  unfold scanPunct at h
  split at h
  · split at h
    · cases h
      exact ⟨_, rfl⟩
    · cases h
      exact ⟨_, rfl⟩
  · obtain ⟨p, -, rfl⟩ := Option.map_eq_some_iff.mp h
    exact ⟨_, rfl⟩

/-- The words among the tokens are spelled with characters of names. -/
theorem scanToken_spelled {cs : List Char} {r : Token × Nat × List Char}
    (h : scanToken cs = some r) : r.1.Spelled := by
  unfold scanToken at h
  split at h
  · cases h
    trivial
  · split at h
    · obtain ⟨_, -, h⟩ := Option.bind_eq_some_iff.mp h
      cases h
      trivial
    · split at h
      · obtain ⟨_, -, h⟩ := Option.bind_eq_some_iff.mp h
        cases h
        trivial
      · split at h
        · exact Token.spelled_of_isNumeral (scanNumber_isNumeral h)
        · split at h
          · obtain ⟨w, -, h⟩ := Option.bind_eq_some_iff.mp h
            split at h
            · cases h
            · cases h
              trivial
          · split at h
            · obtain ⟨w, hw, h⟩ := Option.bind_eq_some_iff.mp h
              cases h
              show ∀ c ∈ (String.ofList w.name).toList, isIdentPart c = true
              rw [String.toList_ofList]
              exact scanWord_name hw
            · obtain ⟨p, hp⟩ := scanPunct_punct h
              rw [hp]
              trivial

/-- Every word has characters such as identifiers have. -/
theorem next_spelled (pos : Nat) (cs : List Char) : (next pos cs).1.token.Spelled := by
  unfold next
  split
  · trivial
  · split
    · trivial
    · exact scanToken_spelled ‹_›

/-! ## Readers -/

/-- The token at which the reading stands was taken off a text. -/
def Cursor.Lexed (c : Cursor) : Prop :=
  c.current.token.Spelled

/-- Where the reading stands so that `pre` holds, what the reader gives satisfies `post`. -/
def Gives {α : Type} (pre : Cursor → Prop) (p : Reader α) (post : α → Prop) : Prop :=
  ∀ c a d, pre c → p c = some (a, d) → post a

/-- Wherever the reading stands, what the reader gives satisfies `post`. -/
abbrev Always {α : Type} (p : Reader α) (post : α → Prop) : Prop :=
  Gives (fun _ => True) p post

namespace Gives

open Reader

variable {α β : Type} {pre : Cursor → Prop} {p : Reader α} {post : β → Prop}

theorem of_always {q : Reader β} (h : Always q post) : Gives pre q post :=
  fun c a d _ hp => h c a d trivial hp

protected theorem pure {b : β} (h : post b) : Gives pre (pure b : Reader β) post := by
  rintro c _ _ - ⟨⟩
  exact h

/-- A reader that fails gives nothing. -/
theorem fails : Gives pre (fail : Reader β) post :=
  fun _ _ _ _ h => nomatch h

/-- What the first part gives, and what the second makes of it. -/
theorem bind {f : α → Reader β} {mid : α → Prop} (hp : Gives pre p mid)
    (hf : ∀ a, mid a → Always (f a) post) : Gives pre (p >>= f) post := by
  intro c b e hc h
  obtain ⟨⟨a, d⟩, hpc, hfd⟩ := Option.bind_eq_some_iff.mp h
  exact hf a (hp c a d hc hpc) d b e trivial hfd

/-- Whatever the first part gives. -/
theorem bind_any {f : α → Reader β} (hf : ∀ a, Always (f a) post) : Gives pre (p >>= f) post := by
  have hany : Gives pre p fun _ => True := fun _ _ _ _ _ => trivial
  exact hany.bind fun a _ => hf a

/-- A part after which the reading stands so that `mid` holds. -/
theorem bind_then {f : α → Reader β} {mid : Cursor → Prop}
    (hp : ∀ c a d, p c = some (a, d) → mid d) (hf : ∀ a, Gives mid (f a) post) :
    Gives pre (p >>= f) post := by
  intro c b e _ h
  obtain ⟨⟨a, d⟩, hpc, hfd⟩ := Option.bind_eq_some_iff.mp h
  exact hf a d b e (hp c a d hpc) hfd

/-- A part that gives back part of where the reading stands. -/
theorem bind_read {f : α → Reader β} (g : Cursor → α) (hg : ∀ c, p c = some (g c, c))
    (hf : ∀ c, pre c → Gives pre (f (g c)) post) : Gives pre (p >>= f) post := by
  intro c b d hc h
  obtain ⟨⟨a, e⟩, hpc, hfe⟩ := Option.bind_eq_some_iff.mp h
  rw [hg] at hpc
  cases hpc
  exact hf c hc c b d hc hfe

theorem bind_start {f : Nat → Reader β} (hf : ∀ n, Gives pre (f n) post) :
    Gives pre (start >>= f) post :=
  bind_read (fun c => c.current.start) (fun _ => rfl) fun c _ => hf c.current.start

theorem bind_require {f : Unit → Reader β} {b : Bool} (hf : Gives pre (f ()) post) :
    Gives pre (require b >>= f) post := by
  cases b with
  | true => exact hf
  | false =>
    have hfails : Gives pre (require false) fun _ => False := fun _ _ _ _ h => nomatch h
    exact hfails.bind fun _ => False.elim

theorem bind_at {f : Bool → Reader β} {q : Punct} (hf : ∀ b, Gives pre (f b) post) :
    Gives pre (at? q >>= f) post :=
  bind_read (fun c => isPunct q c.current.token) (fun _ => rfl) fun _ _ => hf _

theorem bind_lookahead {f : Lexeme → Reader β} (hf : ∀ l, Gives pre (f l) post) :
    Gives pre (lookahead >>= f) post :=
  bind_read (fun c => (next c.current.stop c.rest).1) (fun _ => rfl) fun _ _ => hf _

theorem bind_ahead {f : List Lexeme → Reader β} {n : Nat} (hf : ∀ ls, Gives pre (f ls) post) :
    Gives pre (ahead n >>= f) post :=
  bind_read (fun c => lexemes n c.current.stop c.rest) (fun _ => rfl) fun _ _ => hf _

/-- The token that is looked at is spelled like one. -/
theorem bind_token {f : Token → Reader β} (hf : ∀ t, t.Spelled → Gives Cursor.Lexed (f t) post) :
    Gives Cursor.Lexed (token >>= f) post :=
  bind_read (fun c => c.current.token) (fun _ => rfl) fun c hc => hf c.current.token hc

theorem eat_eq (q : Punct) (c : Cursor) :
    eat q c = (if isPunct q c.current.token = true then (advance >>= fun _ => pure true)
      else pure false : Reader Bool) c := rfl

theorem eat_lexed {q : Punct} {c d : Cursor} (h : eat q c = some (true, d)) : d.Lexed := by
  rw [eat_eq] at h
  split at h
  · cases h
    exact next_spelled _ _
  · cases h

theorem eq_of_eat {q : Punct} {c d : Cursor} (h : eat q c = some (false, d)) : d = c := by
  rw [eat_eq] at h
  split at h
  · cases h
  · cases h
    rfl

/-- Behind a punctuator the next token is lexed again. -/
theorem expect_lexed {q : Punct} {c d : Cursor} {u : Unit} (h : expect q c = some (u, d)) :
    d.Lexed := by
  unfold expect at h
  obtain ⟨⟨b, e⟩, heat, h⟩ := Option.bind_eq_some_iff.mp h
  cases b with
  | false => cases h
  | true =>
    cases h
    exact eat_lexed heat

/-! ## Loops -/

variable {step : α → Reader (α ⊕ β)}

/-- What a loop keeps from one step to the next leads to what its last step gives. -/
theorem repeatFrom {a : α} (keeps : α → Cursor → Prop) (ha : ∀ c, pre c → keeps a c)
    (hstep : ∀ a c r d, keeps a c → step a c = some (r, d) → r.elim (keeps · d) post) :
    Gives pre (Reader.repeatFrom a step) post := by
  have hiterate (fuel : Nat) : ∀ a c b d, keeps a c → iterate step fuel a c = some (b, d) →
      post b := by
    induction fuel with
    | zero => exact fun _ _ _ _ _ h => nomatch h
    | succ fuel ih =>
      intro a c b d hk h
      obtain ⟨⟨r, e⟩, hr, h⟩ := Option.bind_eq_some_iff.mp h
      have hnext := hstep a c r e hk hr
      cases r with
      | inl a' => exact ih a' e b d hnext h
      | inr b' =>
        cases h
        exact hnext
  intro c b d hc h
  exact hiterate _ a c b d (ha c hc) h

/-- A loop that keeps a property of what it has so far. -/
theorem repeatFrom_always {a : α} (keeps : α → Prop) (ha : keeps a)
    (hstep : ∀ a, keeps a → Always (step a) (Sum.elim keeps post)) :
    Gives pre (Reader.repeatFrom a step) post := by
  refine repeatFrom (fun a _ => keeps a) (fun _ _ => ha) fun a c r d hk hr => ?_
  have h := hstep a hk c r d trivial hr
  cases r <;> exact h

/-- The items of a list that begins where a token was taken off a text. -/
theorem delimited {item : Reader α} {close : Punct} {test : α → Prop}
    (hitem : Gives Cursor.Lexed item test) :
    Gives Cursor.Lexed (Reader.delimited close item) fun r => ∀ a ∈ r.1, test a := by
  refine repeatFrom (fun k c => c.Lexed ∧ ∀ a ∈ k.1, test a)
    (fun c hc => ⟨hc, fun a ha => absurd ha List.not_mem_nil⟩) ?_
  rintro ⟨items, trailing⟩ c r d ⟨hc, hitems⟩ hr
  obtain ⟨⟨closed, c₁⟩, hclosed, hrest⟩ := Option.bind_eq_some_iff.mp hr
  cases closed with
  | true =>
    cases hrest
    exact fun a ha => hitems a (List.mem_reverse.mp ha)
  | false =>
    obtain rfl := eq_of_eat hclosed
    obtain ⟨⟨a, c₂⟩, ha, hrest⟩ := Option.bind_eq_some_iff.mp hrest
    have hall : ∀ b ∈ a :: items, test b := List.forall_mem_cons.mpr ⟨hitem _ _ _ hc ha, hitems⟩
    obtain ⟨⟨more, c₃⟩, hmore, hrest⟩ := Option.bind_eq_some_iff.mp hrest
    cases more with
    | true =>
      cases hrest
      exact ⟨eat_lexed hmore, hall⟩
    | false =>
      obtain ⟨⟨u, c₄⟩, -, hrest⟩ := Option.bind_eq_some_iff.mp hrest
      cases hrest
      exact fun b hb => hall b (List.mem_reverse.mp hb)

end Gives

/-! ## Terms -/

/-- A term that is a name, maybe in parentheses, has the name of a word. -/
def Term.Named : Term → Prop
  | .ident name _ _ => IsWord name
  | .paren t => t.Named
  | _ => True

section Terms

open Reader

variable {r : Rules} {ctx : Context} {pre : Cursor → Prop} {name : String} {start : Nat}
  {t left : Term}

/-- A name that is read as a value is a word. -/
theorem nameTerm_gives (h : IsWord name) : Gives pre (nameTerm ctx name) Term.Named := by
  rw [nameTerm]
  exact .bind_any fun _ => .bind_any fun c => .bind_any fun _ => .pure h

theorem importCall_gives : Gives pre (importCall r ctx start) Term.Named := by
  rw [importCall]
  exact .bind_any fun _ => .bind_any fun _ => .bind_any fun _ => .pure trivial

theorem importTerm_gives : Gives pre (importTerm r ctx) Term.Named := by
  rw [importTerm]
  refine .bind_any fun _ => .bind_any fun _ => .bind_any fun dot => ?_
  split
  · refine .bind_any fun t => ?_
    split
    · exact .bind_any fun _ => .pure trivial
    · exact .bind_any fun _ => importCall_gives
    · exact .bind_any fun _ => importCall_gives
    · exact .fails
  · exact importCall_gives

theorem newTerm_gives : Gives pre (newTerm r ctx) Term.Named := by
  rw [newTerm]
  refine .bind_any fun _ => .bind_any fun _ => .bind_any fun dot => ?_
  split
  · exact .bind_any fun _ => .pure trivial
  · refine .bind_any fun subject => ?_
    split
    · exact .fails
    · exact .fails
    · refine .bind_any fun paren => ?_
      split
      · exact .bind_any fun _ => .pure trivial
      · exact .pure trivial

/-- What begins with a word has words for names. -/
theorem wordTerm_gives (h : IsWord name) : Gives pre (wordTerm r ctx name) Term.Named := by
  rw [wordTerm]
  refine .bind_any fun start => ?_
  split
  · exact .bind_any fun _ => .pure trivial
  · exact .bind_any fun _ => .pure trivial
  · exact .bind_any fun _ => .pure trivial
  · exact .bind_any fun _ => .pure trivial
  · exact .bind_any fun _ => .bind_any fun _ => .pure trivial
  · exact .bind_any fun _ => .bind_any fun _ => .pure trivial
  · exact newTerm_gives
  · exact importTerm_gives
  · refine .bind_any fun _ => .bind_any fun t => ?_
    split
    · exact .pure trivial
    · exact .pure trivial
    · exact .pure trivial
    · exact .fails
  · refine .bind_any fun after => ?_
    split
    · exact .bind_any fun _ => .bind_any fun _ => .bind_any fun _ => .pure trivial
    · exact nameTerm_gives h

/-- An item that is a name alone is so in the text. -/
def Element.Named (x : Element) : Prop :=
  ∀ t, x = .item t → t.Named

/-- So have the items in parentheses. -/
theorem enclosed_gives (hr : ∀ ctx, Gives Cursor.Lexed (r.assignment ctx) Term.Named) :
    Gives pre (enclosed r ctx) fun items => ∀ x ∈ items.1, x.Named := by
  have hargument : Gives Cursor.Lexed (argument r ctx) Element.Named := by
    rw [argument]
    intro c x d hc h
    obtain ⟨⟨spread, e⟩, heat, h⟩ := Option.bind_eq_some_iff.mp h
    cases spread with
    | true =>
      obtain ⟨t, -, h⟩ := Option.bind_eq_some_iff.mp h
      cases h
      exact nofun
    | false =>
      obtain ⟨⟨t, f⟩, ht, h⟩ := Option.bind_eq_some_iff.mp h
      cases h
      rintro _ ⟨⟩
      exact hr ctx.inner e t d (Gives.eq_of_eat heat ▸ hc) ht
  rw [enclosed]
  exact .bind_then (fun _ _ _ => Gives.expect_lexed) fun _ => Gives.delimited hargument

theorem named_of_mapM_term? {items : List Element} {ts : List Term}
    (h : items.mapM Element.term? = some ts) (hitems : ∀ x ∈ items, x.Named) :
    ∀ t ∈ ts, t.Named := by
  induction items generalizing ts with
  | nil =>
    cases h
    exact nofun
  | cons x items ih =>
    rw [List.mapM_cons] at h
    obtain ⟨t, ht, h⟩ := Option.bind_eq_some_iff.mp h
    obtain ⟨more, hmore, h⟩ := Option.bind_eq_some_iff.mp h
    cases h
    obtain ⟨hx, hrest⟩ := List.forall_mem_cons.mp hitems
    refine List.forall_mem_cons.mpr ⟨?_, ih hmore hrest⟩
    cases x with
    | item t' =>
      cases ht
      exact hx t rfl
    | _ => cases ht

/-- So has what they are together. -/
theorem group?_named {items : List Element} {trailing : Bool} {t : Term}
    (h : group? items trailing = some t) (hitems : ∀ x ∈ items, x.Named) : t.Named := by
  obtain ⟨ts, hts, h⟩ := Option.bind_eq_some_iff.mp h
  have hnamed := named_of_mapM_term? hts hitems
  split at h
  · cases h
  · rename_i t'
    split at h <;> cases h
    exact hnamed t' List.mem_cons_self
  · split at h <;> cases h
    exact trivial

theorem groupTerm_gives (hr : ∀ ctx, Gives Cursor.Lexed (r.assignment ctx) Term.Named) :
    Gives pre (groupTerm r ctx) Term.Named := by
  rw [groupTerm]
  refine (enclosed_gives hr).bind fun (items, trailing) hitems => ?_
  dsimp only
  split
  · rename_i t ht
    exact .pure (group?_named ht hitems)
  · exact .fails

theorem templateTerm_gives {cooked : Option String} {last : Bool} :
    Gives pre (templateTerm r ctx cooked last) Term.Named := by
  rw [templateTerm]
  refine .bind_any fun (quasis, holes) => ?_
  dsimp only
  split
  · exact .pure trivial
  · exact .fails

theorem regexTerm_gives {lead : List Char} : Gives pre (regexTerm lead) Term.Named := by
  rw [regexTerm]
  refine .bind_any fun c => ?_
  split
  · exact .bind_any fun _ => .pure trivial
  · exact .fails

/-- So has every term without anything behind it. -/
theorem primary_gives (hr : ∀ ctx, Gives Cursor.Lexed (r.assignment ctx) Term.Named) :
    Gives Cursor.Lexed (primary r ctx) Term.Named := by
  rw [primary]
  refine .bind_start fun start => .bind_token fun t ht => ?_
  cases t with
  | number x => exact .bind_any fun _ => .pure trivial
  | bigint => exact .bind_any fun _ => .pure trivial
  | str s => exact .bind_any fun _ => .pure trivial
  | quasi cooked last => exact templateTerm_gives
  | word name escaped =>
    dsimp only
    split
    · exact nameTerm_gives ht
    · exact wordTerm_gives ht
  | punct p =>
    cases p with
    | leftBracket => exact .bind_any fun _ => .bind_any fun _ => .pure trivial
    | leftBrace => exact .bind_any fun _ => .bind_any fun _ => .pure trivial
    | leftParen => exact groupTerm_gives hr
    | slash => exact regexTerm_gives
    | slashAssign => exact regexTerm_gives
    | atSign =>
      exact .bind_any fun _ => .bind_any fun _ => .bind_any fun _ => .pure trivial
    | _ => exact .fails
  | _ => exact .fails

theorem dotMember_gives : Gives pre (dotMember start t) Term.Named := by
  rw [dotMember]
  refine .bind_any fun t => ?_
  split
  · exact .bind_any fun _ => .pure trivial
  · exact .bind_any fun _ => .pure trivial
  · exact .fails

theorem indexMember_gives : Gives pre (indexMember r ctx t) Term.Named := by
  rw [indexMember]
  exact .bind_any fun _ => .bind_any fun _ => .bind_any fun _ => .pure trivial

/-- Members and calls make no names, and without any the term is what it was. -/
theorem chainRest_gives {calls : Bool} (ht : t.Named) :
    Gives pre (chainRest r ctx calls start t) Term.Named := by
  have hdone {t : Term} {optional : Bool} (ht : t.Named) :
      (if optional = true then Term.other .optionalChain start else t).Named := by
    split
    · trivial
    · exact ht
  have hmember {t : Term} {optional : Bool} : Always (do
      return (Sum.inl (← dotMember start t, optional) : (Term × Bool) ⊕ Term))
        (Sum.elim (fun x => x.1.Named) Term.Named) :=
    dotMember_gives.bind fun _ h => .pure h
  have hindex {t : Term} {optional : Bool} : Always (do
      return (Sum.inl (← indexMember r ctx t, optional) : (Term × Bool) ⊕ Term))
        (Sum.elim (fun x => x.1.Named) Term.Named) :=
    indexMember_gives.bind fun _ h => .pure h
  rw [chainRest]
  refine .repeatFrom_always (fun x => x.1.Named) ht fun (t, optional) ht => ?_
  refine .bind_any fun token => ?_
  split
  · exact .bind_any fun _ => hmember
  · split
    · exact .pure (hdone ht)
    · exact hindex
  · refine .bind_any fun after => ?_
    split
    · split
      · exact .bind_any fun _ => .bind_any fun _ => .pure ht
      · exact .pure (hdone ht)
    · exact .bind_any fun _ => .bind_any fun _ => hindex
    · exact .bind_any fun _ => hmember
  · split
    · exact .bind_any fun _ => .pure trivial
    · exact .pure (hdone ht)
  · exact .bind_any fun _ => .bind_any fun _ => .pure trivial
  · exact .pure (hdone ht)

/-- So has every term with members and calls. -/
theorem chainTerm_gives (hr : ∀ ctx, Gives Cursor.Lexed (r.assignment ctx) Term.Named) :
    Gives Cursor.Lexed (chainTerm r ctx) Term.Named := by
  rw [chainTerm]
  exact .bind_start fun start => (primary_gives hr).bind fun _ => chainRest_gives

theorem incrementRest_gives (ht : t.Named) : Gives pre (incrementRest start t) Term.Named := by
  have hupdate : Always (do
      if ← newline then return t
      else
        require t.isPlace
        advance
        return .update start t) Term.Named := by
    refine .bind_any fun newline => ?_
    split
    · exact .pure ht
    · exact .bind_any fun _ => .bind_any fun _ => .pure trivial
  rw [incrementRest]
  refine .bind_any fun token => ?_
  split
  · exact hupdate
  · exact hupdate
  · exact .pure ht

/-- So has every operand. -/
theorem unaryTerm_gives (hr : ∀ ctx, Gives Cursor.Lexed (r.assignment ctx) Term.Named) :
    Gives Cursor.Lexed (unaryTerm r ctx) Term.Named := by
  have hupdate (start : Nat) : Gives Cursor.Lexed (do
      advance
      let t ← r.unary ctx
      require t.isPlace
      return Term.update start t) Term.Named :=
    .bind_any fun _ => .bind_any fun _ => .bind_any fun _ => .pure trivial
  have hoperand (start : Nat) : Gives Cursor.Lexed (do incrementRest start (← chainTerm r ctx))
      Term.Named :=
    (chainTerm_gives hr).bind fun _ => incrementRest_gives
  rw [unaryTerm]
  refine .bind_start fun start => .bind_token fun token _ => ?_
  split
  · exact .bind_any fun _ => .bind_any fun _ => .pure trivial
  · split
    · exact hupdate start
    · exact hupdate start
    · split
      · exact .bind_any fun _ => .bind_any fun _ => .pure trivial
      · split
        · refine .bind_lookahead fun l => ?_
          exact .bind_read _ (fun _ => rfl) fun c _ => .bind_require (hoperand start)
        · exact hoperand start

/-- Operands keep their names when they are joined. -/
theorem operatorTerm_named {op : Operator} {leftParen rightParen : Bool} {right : Term}
    (h : operatorTerm op leftParen rightParen left right = some t) : t.Named := by
  unfold operatorTerm at h
  split at h
  · split at h
    · cases h
    · cases h
      trivial
  · cases h
    trivial
  · dsimp only at h
    split at h
    · split at h
      · cases h
      · cases h
        trivial
    · split at h
      · cases h
      · cases h
        trivial
  · cases h
    trivial

theorem binaryRest_gives {rank : Nat} {leftParen : Bool} (ht : left.Named) :
    Gives pre (binaryRest r ctx rank leftParen left) Term.Named := by
  rw [binaryRest]
  refine .repeatFrom_always Term.Named ht fun left hleft => .bind_any fun token => ?_
  split
  · exact .pure hleft
  · split
    · exact .pure hleft
    · refine .bind_any fun _ => .bind_any fun rightParen => .bind_any fun right => ?_
      split
      · exact .pure (operatorTerm_named ‹_›)
      · exact .fails

/-- So have operands with operators between them. -/
theorem binaryTerm_gives {rank : Nat}
    (hr : ∀ ctx, Gives Cursor.Lexed (r.assignment ctx) Term.Named) :
    Gives Cursor.Lexed (binaryTerm r ctx rank) Term.Named := by
  have hprivate : Always (privateIn r ctx) Term.Named := by
    rw [privateIn]
    refine .bind_any fun _ => .bind_any fun _ => .bind_any fun _ => .bind_any fun _ =>
      .bind_any fun right => ?_
    split
    · exact .fails
    · exact .pure trivial
  rw [binaryTerm]
  refine .bind_at fun leftParen => .bind_token fun token _ => ?_
  split
  · exact .of_always (hprivate.bind fun _ => binaryRest_gives)
  · exact (unaryTerm_gives hr).bind fun _ => binaryRest_gives

/-- A function is not asked for its names. -/
theorem arrowRest_gives {async : Bool} {params : List (Option String)} :
    Gives pre (arrowRest r ctx start async params) Term.Named := by
  rw [arrowRest]
  refine .bind_any fun _ => .bind_any fun _ => .bind_any fun _ => .bind_any fun brace => ?_
  split
  · exact .bind_any fun _ => .pure trivial
  · exact .bind_any fun _ => .pure trivial

theorem assignRest_gives {plain : Bool} :
    Gives pre (assignRest r ctx start plain left) Term.Named := by
  rw [assignRest]
  split
  · exact .fails
  · exact .bind_any fun _ => .bind_any fun _ => .bind_any fun _ => .pure trivial

theorem assignmentRest_gives (ht : left.Named) :
    Gives pre (assignmentRest r ctx start left) Term.Named := by
  have hconditional : Always (conditionalRest r ctx left) Term.Named := by
    rw [conditionalRest]
    refine .bind_any fun question => ?_
    split
    · exact .bind_any fun _ => .bind_any fun _ => .bind_any fun _ => .pure trivial
    · exact .pure ht
  rw [assignmentRest]
  refine .bind_any fun token => ?_
  split
  · exact arrowRest_gives
  · exact assignRest_gives
  · exact assignRest_gives
  · exact assignRest_gives
  · exact hconditional

theorem operatorsTerm_gives (hr : ∀ ctx, Gives Cursor.Lexed (r.assignment ctx) Term.Named) :
    Gives Cursor.Lexed (operatorsTerm r ctx) Term.Named := by
  rw [operatorsTerm]
  exact .bind_start fun start => (binaryTerm_gives hr).bind fun _ => assignmentRest_gives

theorem afterTerm_gives {leftParen : Bool} (ht : t.Named) :
    Gives pre (afterTerm r ctx start leftParen t) Term.Named := by
  rw [afterTerm]
  exact (chainRest_gives ht).bind fun _ hchain => (incrementRest_gives hchain).bind
    fun _ hoperand => (binaryRest_gives hoperand).bind fun _ => assignmentRest_gives

theorem yieldTerm_gives : Gives pre (yieldTerm r ctx) Term.Named := by
  rw [yieldTerm]
  refine .bind_any fun _ => .bind_any fun _ => .bind_any fun _ => .bind_any fun newline => ?_
  split
  · exact .pure trivial
  · refine .bind_any fun star => ?_
    split
    · exact .bind_any fun _ => .pure trivial
    · refine .bind_any fun token => ?_
      split
      · exact .pure trivial
      · split
        · exact .pure trivial
        · exact .bind_any fun _ => .pure trivial
      · exact .bind_any fun _ => .pure trivial

/-- So has what begins with a parenthesis. -/
theorem parenTerm_gives (hr : ∀ ctx, Gives Cursor.Lexed (r.assignment ctx) Term.Named) :
    Gives Cursor.Lexed (parenTerm r ctx) Term.Named := by
  rw [parenTerm]
  refine .bind_start fun start => .bind_read _ (fun _ => rfl) fun c _ => ?_
  refine (enclosed_gives hr).bind fun (items, trailing) hitems => .bind_any fun arrow => ?_
  split
  · exact .bind_any fun _ => arrowRest_gives
  · split
    · rename_i t ht
      exact afterTerm_gives (group?_named ht hitems)
    · exact .fails

/-- So has what begins with `async`. -/
theorem asyncTerm_gives (hr : ∀ ctx, Gives Cursor.Lexed (r.assignment ctx) Term.Named) :
    Gives Cursor.Lexed (asyncTerm r ctx) Term.Named := by
  have hcall : Always (asyncCall r ctx) Term.Named := by
    rw [asyncCall]
    exact .bind_any fun _ => .bind_any fun _ => .bind_any fun _ => .bind_any fun _ =>
      .bind_any fun _ => .bind_any fun _ => .bind_any fun _ => .bind_any fun _ =>
      .bind_any fun _ => .pure trivial
  rw [asyncTerm]
  refine .bind_start fun start => .bind_ahead fun lexemes => ?_
  split
  · split
    · exact operatorsTerm_gives hr
    · split
      · refine .bind_any fun params? => ?_
        split
        · exact arrowRest_gives
        · exact hcall.bind fun _ ht => afterTerm_gives ht
      · split
        · exact .bind_any fun _ => .bind_any fun _ => .bind_any fun _ => arrowRest_gives
        · exact operatorsTerm_gives hr
      · exact operatorsTerm_gives hr
  · exact .fails

/-- So has every expression without a comma at its top. -/
theorem assignmentTerm_gives (hr : ∀ ctx, Gives Cursor.Lexed (r.assignment ctx) Term.Named) :
    Gives Cursor.Lexed (assignmentTerm r ctx) Term.Named := by
  rw [assignmentTerm]
  refine .bind_token fun token _ => ?_
  split
  · exact parenTerm_gives hr
  · refine .bind_lookahead fun l => ?_
    split
    · exact yieldTerm_gives
    · split
      · exact asyncTerm_gives hr
      · exact operatorsTerm_gives hr
  · exact operatorsTerm_gives hr

end Terms

/-- Where an expression is read, a name is a word. -/
theorem Rules.assignment_gives (n : Nat) (ctx : Context) :
    Gives Cursor.Lexed ((Rules.ofDepth n).assignment ctx) Term.Named := by
  induction n generalizing ctx with
  | zero => exact .fails
  | succ n ih => exact assignmentTerm_gives ih

/-! ## Scripts -/

/-- A statement that is a name, maybe in parentheses, has the name of a word. -/
def Statement.Named : Statement → Prop
  | .expression t => t.Named
  | _ => True

section Scripts

open Reader

theorem expression_gives {r : Rules} {ctx : Context}
    (hr : Gives Cursor.Lexed (r.assignment ctx) Term.Named) :
    Gives Cursor.Lexed (expression r ctx) Term.Named := by
  rw [expression]
  refine hr.bind fun first hfirst => .bind_any fun comma => ?_
  split
  · exact .pure hfirst
  · refine .repeatFrom_always (fun _ => True) trivial fun items _ => .bind_any fun comma => ?_
    split
    · exact .bind_any fun _ => .pure trivial
    · exact .pure trivial

/-- A statement that begins with a parenthesis. -/
theorem statement_gives (n : Nat) :
    Gives (fun c => c.current.token = .punct .leftParen)
      ((Rules.ofDepth n).statement .top false) Statement.Named := by
  cases n with
  | zero => exact .fails
  | succ n =>
    have hlabel : Gives Cursor.Lexed (labelOrExpression (.ofDepth n) .top) Statement.Named := by
      rw [labelOrExpression]
      refine (expression_gives (Rules.assignment_gives n _)).bind fun t ht => ?_
      split
      · refine .bind_any fun colon => ?_
        split
        · exact .bind_any fun _ => .pure trivial
        · exact .bind_any fun _ => .pure ht
      · exact .bind_any fun _ => .pure ht
    show Gives _ (statementTerm (.ofDepth n) .top false) _
    rw [statementTerm]
    refine .bind_read (fun c => c.current.token) (fun _ => rfl) fun c hc => ?_
    rw [hc]
    exact fun c s d hc h => hlabel c s d (by rw [Cursor.Lexed, hc]; trivial) h

/-- The first statement of a script that begins with a parenthesis. -/
theorem script_gives (n : Nat) :
    Gives (fun c => c.current.token = .punct .leftParen) (script (.ofDepth n))
      fun statements => ∀ s ∈ statements.head?, s.Named := by
  rw [script]
  refine .repeatFrom (fun statements c =>
    (statements = [] ∧ c.current.token = .punct .leftParen) ∨
      ∃ later s, statements = later ++ [s] ∧ s.Named) (fun c hc => .inl ⟨rfl, hc⟩) ?_
  intro statements c r d hk hr
  have hread {s : Statement} {e : Cursor}
      (hs : (Rules.ofDepth n).statement .top false c = some (s, e)) :
      ∃ later s', s :: statements = later ++ [s'] ∧ s'.Named := by
    rcases hk with ⟨rfl, hc⟩ | ⟨later, s', rfl, hs'⟩
    · exact ⟨[], s, rfl, statement_gives n c s e hc hs⟩
    · exact ⟨s :: later, s', rfl, hs'⟩
  have hbind {β : Type} (f : Token → Reader β) : (token >>= f) c = f c.current.token c := rfl
  rw [hbind] at hr
  cases htoken : c.current.token with
  | eof =>
    rw [htoken] at hr
    cases hr
    rcases hk with ⟨-, hc⟩ | ⟨later, s, rfl, hs⟩
    · rw [htoken] at hc
      cases hc
    · intro s' hs'
      rw [List.reverse_concat] at hs'
      cases hs'
      exact hs
  | _ =>
    rw [htoken] at hr
    obtain ⟨⟨s, e⟩, hs, hr⟩ := Option.bind_eq_some_iff.mp hr
    cases hr
    exact .inr (hread hs)

/-- What is read in parentheses. -/
theorem statements?_named {cs : List Char} {t : Term} {more : List Statement}
    (h : statements? ('(' :: cs) = some (.expression t :: more)) : t.Named := by
  have hnext : next 0 ('(' :: cs) = (⟨.punct .leftParen, 0, 1, false⟩, cs) := rfl
  unfold statements? at h
  rw [hnext] at h
  obtain ⟨⟨statements, c⟩, hscript, h⟩ := Option.bind_eq_some_iff.mp h
  dsimp only at h
  split at h
  · cases h
    exact script_gives _ _ _ _ rfl hscript _ rfl
  · cases h

end Scripts

end UiTemplate.Script

namespace UiTemplate

open Script

/-- A name that an expression denotes is a word. -/
theorem Expr.isWord_of_ofTerm {bound : List String} (t : Term) {name : String}
    {refs : List Reference} (ht : t.Named) (h : ofTerm bound t = .ok (.ident name, refs)) :
    IsWord name := by
  match t with
  | .ident name' start stop =>
    cases h
    exact ht
  | .paren t => exact Expr.isWord_of_ofTerm t ht h
  | .null | .bool _ | .number _ | .str _ | .privateMember _ | .other .. => cases h
  | .template .. | .member .. | .unary .. | .sequence _ | .array .. | .object .. =>
    rw [ofTerm] at h
    obtain ⟨_, -, h⟩ := Except.bind_eq_ok.mp h
    cases h
  | .index .. | .binary .. | .logical .. | .call .. =>
    rw [ofTerm] at h
    obtain ⟨_, -, h⟩ := Except.bind_eq_ok.mp h
    obtain ⟨_, -, h⟩ := Except.bind_eq_ok.mp h
    cases h
  | .conditional .. =>
    rw [ofTerm] at h
    obtain ⟨_, -, h⟩ := Except.bind_eq_ok.mp h
    obtain ⟨_, -, h⟩ := Except.bind_eq_ok.mp h
    obtain ⟨_, -, h⟩ := Except.bind_eq_ok.mp h
    cases h
  | .arrow .. =>
    rw [ofTerm] at h
    split at h
    · cases h
    · obtain ⟨_, -, h⟩ := Except.bind_eq_ok.mp h
      cases h
  | .assign .. =>
    rw [ofTerm] at h
    split at h
    · obtain ⟨_, -, h⟩ := Except.bind_eq_ok.mp h
      obtain ⟨_, -, h⟩ := Except.bind_eq_ok.mp h
      cases h
    · cases h
  | .update .. =>
    rw [ofTerm] at h
    split at h
    · obtain ⟨_, -, h⟩ := Except.bind_eq_ok.mp h
      cases h
    · cases h

/-- An expression that is a name is a word. -/
theorem Expression.isWord_of_ident {text : String} {e : Expression} {name : String}
    (h : parse text = .ok e) (he : e.tree = .ident name) : IsWord name := by
  unfold parse at h
  dsimp only at h
  split at h
  · cases h
  · split at h
    · cases h
    · split at h
      · cases h
      · rename_i hterm
        cases h
        obtain rfl := he
        exact Expr.isWord_of_ofTerm _ (statements?_named ‹_›) hterm
    · cases h

end UiTemplate
