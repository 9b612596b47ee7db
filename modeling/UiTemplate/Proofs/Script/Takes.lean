import Mathlib.Data.List.Forall2
import UiTemplate.Script.Rules

/-!
# What readers take

A text is known by the tokens that it is lexed into, and a reader by the tokens that it takes.

- `Spells cs ts tail`: the text `cs` begins with the tokens `ts`, and `tail` is what comes after.
- `Takes p ts after post`: where the tokens `ts` and then `after` stand, the reader `p` succeeds,
  takes `ts` and stops at `after`; its result satisfies `post`.

There is one rule for each way to make a reader. Most of them are about a first step and the reader
that follows it, since that is how readers are written.
-/

namespace UiTemplate.Script

/-- The text begins with the given tokens, and `tail` is the text after them. Only the last of them
may be the end of the text. No line ends before an arrow. -/
inductive Spells : List Char → List Token → List Char → Prop
  | none (cs : List Char) : Spells cs [] cs
  | cons {cs rest tail : List Char} {t : Token} {ts : List Token}
      (hnext : ∀ pos, ∃ start stop newline, next pos cs = (⟨t, start, stop, newline⟩, rest) ∧
        (t = .punct .arrow → newline = false))
      (hshort : ts = [] ∨ rest.length < cs.length) (hrest : Spells rest ts tail) :
      Spells cs (t :: ts) tail

theorem Spells.length_le {cs tail : List Char} {ts : List Token} (h : Spells cs ts tail) :
    ts.length ≤ cs.length + 1 := by
  induction h with
  | none cs => simp
  | cons hnext hshort hrest ih =>
    rcases hshort with rfl | hshort
    · simp
    · simp only [List.length_cons]
      omega

/-- The current token and the ones after it are the given ones, and `tail` is the text after
them. -/
def Cursor.At (c : Cursor) (ts : List Token) (tail : List Char) : Prop :=
  ∃ t rest, ts = t :: rest ∧ c.current.token = t ∧
    (t = .punct .arrow → c.current.newline = false) ∧ Spells c.rest rest tail

theorem Cursor.At.token_eq {c : Cursor} {t : Token} {ts : List Token} {tail : List Char}
    (h : c.At (t :: ts) tail) : c.current.token = t := by
  obtain ⟨t', rest, ⟨⟩, ht, -, -⟩ := h
  exact ht

theorem Cursor.At.spells {c : Cursor} {t : Token} {ts : List Token} {tail : List Char}
    (h : c.At (t :: ts) tail) : Spells c.rest ts tail := by
  obtain ⟨t', rest, ⟨⟩, -, -, hs⟩ := h
  exact hs

/-- The cursor behind the current token. -/
def Cursor.advanced (c : Cursor) : Cursor :=
  { c with current := (next c.current.stop c.rest).1, rest := (next c.current.stop c.rest).2 }

theorem Cursor.At.advanced {c : Cursor} {t u : Token} {ts : List Token} {tail : List Char}
    (h : c.At (t :: u :: ts) tail) : c.advanced.At (u :: ts) tail := by
  obtain ⟨t', rest, ⟨⟩, -, -, hs⟩ := h
  cases hs with
  | cons hnext hshort hrest =>
    obtain ⟨start, stop, newline, hn, harrow⟩ := hnext c.current.stop
    refine ⟨u, ts, rfl, ?_, ?_, ?_⟩
    · simp [Cursor.advanced, hn]
    · simpa [Cursor.advanced, hn] using harrow
    · simpa [Cursor.advanced, hn] using hrest

/-- Where the tokens `ts` and then `after` stand, the reader takes `ts`, and its result satisfies
`post`. -/
def Takes {α : Type} (p : Reader α) (ts after : List Token) (post : α → Prop) : Prop :=
  ∀ c tail, c.At (ts ++ after) tail →
    ∃ a d, p c = some (a, d) ∧ post a ∧ d.At after tail ∧ d.pending = c.pending ∧
      d.exported = c.exported

namespace Takes

open Reader

variable {α β : Type} {p : Reader α} {ts us after rest : List Token} {post : β → Prop} {t u : Token}

/-! ## Steps -/

protected theorem pure {a : α} {post : α → Prop} (h : post a) : Takes (pure a) [] after post :=
  fun c _ hc => ⟨a, c, rfl, h, hc, rfl, rfl⟩

theorem imp {P Q : α → Prop} (h : Takes p ts after P) (hpq : ∀ a, P a → Q a) :
    Takes p ts after Q := by
  intro c tail hc
  obtain ⟨a, d, hp, ha, hd⟩ := h c tail hc
  exact ⟨a, d, hp, hpq a ha, hd⟩

theorem bind {f : α → Reader β} {m : α → Prop} (hp : Takes p ts (us ++ after) m)
    (hf : ∀ a, m a → Takes (f a) us after post) : Takes (p >>= f) (ts ++ us) after post := by
  intro c tail hc
  rw [List.append_assoc] at hc
  obtain ⟨a, d, hpc, ha, hd, hpending, hexported⟩ := hp c tail hc
  obtain ⟨b, e, hfd, hb, he, hpending', hexported'⟩ := hf a ha d tail hd
  refine ⟨b, e, ?_, hb, he, hpending'.trans hpending, hexported'.trans hexported⟩
  show (p c).bind (fun x => f x.1 x.2) = _
  rw [hpc]
  exact hfd

/-- A step that takes nothing. -/
theorem bind_peek {f : α → Reader β} {m : α → Prop} (hp : Takes p [] (ts ++ after) m)
    (hf : ∀ a, m a → Takes (f a) ts after post) : Takes (p >>= f) ts after post :=
  bind hp hf

/-- A step that takes all there is to take. -/
theorem bind_last {f : α → Reader β} {m : α → Prop} (hp : Takes p ts after m)
    (hf : ∀ a, m a → Takes (f a) [] after post) : Takes (p >>= f) ts after post := by
  have h : Takes (p >>= f) (ts ++ []) after post := bind hp hf
  rwa [List.append_nil] at h

/-- A step that gives back part of where the reading stands, or an answer to a question about the
tokens to come. -/
theorem bind_read {f : α → Reader β} (g : Cursor → α) (hg : ∀ c, p c = some (g c, c))
    (hf : ∀ c tail, c.At (ts ++ after) tail → Takes (f (g c)) ts after post) :
    Takes (p >>= f) ts after post := by
  intro c tail hc
  obtain ⟨b, d, hfc, hb⟩ := hf c tail hc c tail hc
  refine ⟨b, d, ?_, hb⟩
  show (p c).bind (fun x => f x.1 x.2) = _
  rw [hg]
  exact hfc

theorem bind_start {f : Nat → Reader β} (hf : ∀ n, Takes (f n) ts after post) :
    Takes (start >>= f) ts after post :=
  bind_read (fun c => c.current.start) (fun _ => rfl) fun c _ _ => hf c.current.start

theorem bind_token {f : Token → Reader β} (hts : ts ++ after = t :: rest)
    (hf : Takes (f t) ts after post) : Takes (token >>= f) ts after post := by
  refine bind_read (fun c => c.current.token) (fun _ => rfl) fun c tail hc => ?_
  rw [hts] at hc
  rw [hc.token_eq]
  exact hf

theorem bind_get {f : Cursor → Reader β} (hts : ts ++ after = t :: rest)
    (hf : ∀ c, c.current.token = t → Takes (f c) ts after post) :
    Takes (get >>= f) ts after post := by
  refine bind_read id (fun _ => rfl) fun c tail hc => hf c ?_
  rw [hts] at hc
  exact hc.token_eq

/-- No line ends before an arrow. -/
theorem bind_newline {f : Bool → Reader β} (hts : ts ++ after = .punct .arrow :: rest)
    (hf : Takes (f false) ts after post) : Takes (newline >>= f) ts after post := by
  refine bind_read (fun c => c.current.newline) (fun _ => rfl) fun c tail hc => ?_
  rw [hts] at hc
  obtain ⟨t, rest, ⟨⟩, -, harrow, -⟩ := hc
  rw [harrow rfl]
  exact hf

theorem bind_at {f : Bool → Reader β} {q : Punct} (hts : ts ++ after = t :: rest)
    (hf : Takes (f (isPunct q t)) ts after post) : Takes (at? q >>= f) ts after post := by
  refine bind_read (fun c => isPunct q c.current.token) (fun _ => rfl) fun c tail hc => ?_
  rw [hts] at hc
  rw [hc.token_eq]
  exact hf

theorem bind_atWord {f : Bool → Reader β} {word : String} (hts : ts ++ after = t :: rest)
    (hf : Takes (f (isKeyword word t)) ts after post) :
    Takes (atWord word >>= f) ts after post := by
  refine bind_read (fun c => isKeyword word c.current.token) (fun _ => rfl) fun c tail hc => ?_
  rw [hts] at hc
  rw [hc.token_eq]
  exact hf

theorem bind_lookahead {f : Lexeme → Reader β} (hts : ts ++ after = t :: u :: rest)
    (hf : ∀ l, l.token = u → Takes (f l) ts after post) :
    Takes (lookahead >>= f) ts after post := by
  refine bind_read (fun c => c.advanced.current) (fun _ => rfl) fun c tail hc => hf _ ?_
  rw [hts] at hc
  exact hc.advanced.token_eq

theorem bind_advance {f : Unit → Reader β} (hts : ts ++ after ≠ [])
    (hf : Takes (f ()) ts after post) : Takes (advance >>= f) (t :: ts) after post := by
  obtain ⟨u, rest, hts⟩ := List.exists_cons_of_ne_nil hts
  intro c tail hc
  rw [List.cons_append, hts] at hc
  have hd := hc.advanced
  rw [← hts] at hd
  obtain ⟨b, e, hfd, hb, he, hpending, hexported⟩ := hf _ _ hd
  exact ⟨b, e, hfd, hb, he, hpending, hexported⟩

theorem bind_require {f : Unit → Reader β} {b : Bool} (hb : b = true)
    (hf : Takes (f ()) ts after post) : Takes (require b >>= f) ts after post := by
  subst hb
  exact bind_read (fun _ => ()) (fun _ => rfl) fun _ _ _ => hf

theorem bind_eat {f : Bool → Reader β} {q : Punct} (hts : ts ++ after ≠ [])
    (hf : Takes (f true) ts after post) : Takes (eat q >>= f) (.punct q :: ts) after post := by
  rw [eat, bind_assoc]
  refine bind_at rfl ?_
  rw [show isPunct q (.punct q) = true by simp [isPunct], if_pos rfl, bind_assoc]
  exact bind_advance hts (bind_peek (Takes.pure rfl) fun _ ha => ha ▸ hf)

/-- The punctuator is not there. -/
theorem bind_eat_absent {f : Bool → Reader β} {q : Punct} (hts : ts ++ after = t :: rest)
    (ht : isPunct q t = false) (hf : Takes (f false) ts after post) :
    Takes (eat q >>= f) ts after post := by
  rw [eat, bind_assoc]
  refine bind_at hts ?_
  rw [ht, if_neg (by decide)]
  exact bind_peek (Takes.pure rfl) fun _ ha => ha ▸ hf

theorem bind_expect {f : Unit → Reader β} {q : Punct} (hts : ts ++ after ≠ [])
    (hf : Takes (f ()) ts after post) : Takes (expect q >>= f) (.punct q :: ts) after post := by
  rw [expect, bind_assoc]
  exact bind_eat hts (bind_require rfl hf)

/-! ## Loops -/

variable {step : α → Reader (α ⊕ β)} {a : α} {n : Nat}

/-- A loop goes on long enough to take as many tokens as there are. -/
theorem repeatFrom (h : ∀ n, (ts ++ after).length < n → Takes (iterate step n a) ts after post) :
    Takes (repeatFrom a step) ts after post := by
  refine bind_read id (fun _ => rfl) fun c tail hc => h _ ?_
  obtain ⟨t, rest, hts, -, -, hs⟩ := hc
  have hlen := hs.length_le
  rw [hts, List.length_cons]
  simp only [id]
  omega

/-- The last step of a loop. -/
theorem iterate_done (h : Takes (step a) ts after fun r => ∃ b, r = .inr b ∧ post b) :
    Takes (iterate step (n + 1) a) ts after post := by
  rw [iterate]
  refine bind_last h ?_
  rintro _ ⟨b, rfl, hb⟩
  exact Takes.pure hb

/-- A loop that takes nothing. -/
theorem iterate_nothing {b : β} (h : Takes (step a) [] after (· = .inr b)) (hb : post b)
    (hn : 0 < n) : Takes (iterate step n a) [] after post := by
  obtain ⟨n, rfl⟩ := Nat.exists_eq_add_of_lt hn
  exact iterate_done (h.imp fun _ ha => ⟨b, ha, hb⟩)

/-- A step of a loop before its last one. -/
theorem iterate_more {m : α → Prop}
    (h : Takes (step a) ts (us ++ after) fun r => ∃ a', r = .inl a' ∧ m a')
    (hrest : ∀ a', m a' → Takes (iterate step n a') us after post) :
    Takes (iterate step (n + 1) a) (ts ++ us) after post := by
  rw [iterate]
  refine bind h ?_
  rintro _ ⟨a', rfl, ha⟩
  exact hrest a' ha

end Takes

/-! ## Lists -/

/-- Rows of tokens with commas between them. -/
def commas : List (List Token) → List Token
  | [] => []
  | [ts] => ts
  | ts :: us :: rest => ts ++ .punct .comma :: commas (us :: rest)

theorem length_le_commas {ts : List Token} {rows : List (List Token)} (h : ts ∈ rows) :
    ts.length ≤ (commas rows).length := by
  induction rows with
  | nil => exact absurd h List.not_mem_nil
  | cons us rows ih =>
    cases rows with
    | nil =>
      rw [List.mem_singleton.mp h]
      exact Nat.le_refl _
    | cons vs rows =>
      rw [commas, List.length_append, List.length_cons]
      rcases List.mem_cons.mp h with rfl | h
      · omega
      · have := ih h
        omega

/-- A step of the loop over items. -/
def delimitedStep {α : Type} (close : Punct) (item : Reader α) (state : List α × Bool) :
    Reader ((List α × Bool) ⊕ (List α × Bool)) := do
  if ← Reader.eat close then return .inr (state.1.reverse, state.2)
  else
    let a ← item
    if ← Reader.eat .comma then return .inl (a :: state.1, true)
    else
      Reader.expect close
      return .inr ((a :: state.1).reverse, false)

theorem delimited_eq {α : Type} (close : Punct) (item : Reader α) :
    Reader.delimited close item = Reader.repeatFrom ([], false) (delimitedStep close item) :=
  rfl

section Delimited

open Reader

variable {α ι : Type} {item : Reader α} {close : Punct} {toks : ι → List Token}
  {Q : ι → α → Prop} {u : Token} {after : List Token}

/-- The items that are left, of which there is at least one behind a comma. -/
theorem iterate_delimitedStep_takes (hclose : close ≠ .comma) {xs : List ι}
    (hitem : ∀ x ∈ xs, ∀ u after, u = .punct .comma ∨ u = .punct close →
      Takes item (toks x) (u :: after) (Q x))
    (hopen : ∀ x ∈ xs, ∃ t rest, toks x = t :: rest ∧ isPunct close t = false)
    {fuel : Nat} (hfuel : (commas (xs.map toks) ++ [Token.punct close] ++ u :: after).length < fuel)
    {before : List ι} {items : List α} {trailing : Bool}
    (hbefore : List.Forall₂ Q before items.reverse)
    (htrailing : xs = [] → trailing = false) :
    Takes (iterate (delimitedStep close item) fuel (items, trailing))
      (commas (xs.map toks) ++ [.punct close]) (u :: after)
      fun r => List.Forall₂ Q (before ++ xs) r.1 ∧ r.2 = false := by
  -- `before` are the phrases of the items that were read, which the loop keeps in reverse.
  induction xs generalizing before items trailing fuel with
  | nil =>
    obtain ⟨fuel, rfl⟩ := Nat.exists_eq_add_of_lt hfuel
    refine Takes.iterate_done (Takes.bind_eat (by simp) ?_)
    refine Takes.pure ⟨_, rfl, ?_, htrailing rfl⟩
    rwa [List.append_nil]
  | cons x xs ih =>
    obtain ⟨fuel, rfl⟩ : ∃ k, fuel = k + 1 := ⟨fuel - 1, by omega⟩
    obtain ⟨t, rest, ht, hother⟩ := hopen x List.mem_cons_self
    have hread := hitem x List.mem_cons_self
    cases xs with
    | nil =>
      show Takes _ (toks x ++ [.punct close]) _ _
      refine Takes.iterate_done (Takes.bind_eat_absent (by rw [ht]; rfl) hother ?_)
      refine Takes.bind (hread _ _ (.inr rfl)) fun a ha => ?_
      refine Takes.bind_eat_absent rfl (by simpa [isPunct] using hclose.symm) ?_
      refine Takes.bind_expect (by simp) (Takes.pure ⟨_, rfl, ?_, rfl⟩)
      rw [List.reverse_cons]
      exact List.rel_append hbefore (.cons ha .nil)
    | cons y xs =>
      have htokens : commas ((x :: y :: xs).map toks) ++ [Token.punct close] =
          (toks x ++ [.punct .comma]) ++ (commas ((y :: xs).map toks) ++ [.punct close]) := by
        simp [commas]
      rw [htokens] at hfuel ⊢
      refine Takes.iterate_more (m := fun s => List.Forall₂ Q (before ++ [x]) s.1.reverse) ?_ ?_
      · refine Takes.bind_eat_absent (by rw [ht]; rfl) hother ?_
        refine Takes.bind (hread _ _ (.inl rfl)) fun a ha => ?_
        refine Takes.bind_eat (by simp) (Takes.pure ⟨_, rfl, ?_⟩)
        rw [List.reverse_cons]
        exact List.rel_append hbefore (.cons ha .nil)
      · rintro ⟨items', trailing'⟩ hitems
        refine (ih (fun z hz => hitem z (List.mem_cons_of_mem x hz))
          (fun z hz => hopen z (List.mem_cons_of_mem x hz)) ?_ hitems nofun).imp ?_
        · simp only [List.length_append, List.length_cons] at hfuel ⊢
          omega
        · intro r hr
          rwa [List.append_assoc] at hr

/-- Items with commas between them, up to a closing punctuator. -/
theorem Takes.delimited (hclose : close ≠ .comma) (xs : List ι)
    (hitem : ∀ x ∈ xs, ∀ u after, u = .punct .comma ∨ u = .punct close →
      Takes item (toks x) (u :: after) (Q x))
    (hopen : ∀ x ∈ xs, ∃ t rest, toks x = t :: rest ∧ isPunct close t = false) :
    Takes (delimited close item) (commas (xs.map toks) ++ [.punct close]) (u :: after)
      fun r => List.Forall₂ Q xs r.1 ∧ r.2 = false := by
  rw [delimited_eq]
  refine Takes.repeatFrom fun fuel hfuel => ?_
  have hnil : List.Forall₂ Q [] ([] : List α).reverse := .nil
  exact iterate_delimitedStep_takes hclose hitem hopen hfuel hnil fun _ => rfl

end Delimited

end UiTemplate.Script
