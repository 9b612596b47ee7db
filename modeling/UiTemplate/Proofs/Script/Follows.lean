import UiTemplate.Proofs.Script.Runs
import UiTemplate.Proofs.Script.Tails

/-!
# Readers that follow each other

The same part of a script is read twice: once where the text ends with a closing parenthesis, and
once where it goes on with another ending. The second reader follows the first one: it takes the
same tokens, and its result looks the same, wherever the first one can still get to the
parenthesis.

- `FollowsBy`, `Follows`: the second reader follows the first.
- `Stop`: a reader that looks at the token after what it takes can be followed only as long as that
  token is not the parenthesis.
- `Eats`: the reader does not leave the parenthesis for others.
-/

namespace UiTemplate.Script

open Reader Spot

/-- The current token and the text after it. -/
def Cursor.spot (c : Cursor) : Spot :=
  (c.current, c.rest)

/-- The readings stand at the same place of both texts. -/
structure Cursor.Beside (e : Ending) (c d : Cursor) : Prop where
  spot : Matches e c.spot d.spot
  pending : d.pending = c.pending
  exported : d.exported = c.exported

/-- How far a reader may go. -/
inductive Stop where
  /-- To a token before the closing parenthesis at the end. -/
  | inside
  /-- To the closing parenthesis at the end. -/
  | atEnd

/-- Whether a reader may go to that spot. -/
def Stop.Allows (m : Stop) (s : Spot) : Prop :=
  s.Live ∧ (m = .inside → ¬ s.IsLast)

section Definitions

variable {α γ : Type}

/-- Where the first reader succeeds, it moves on, and if it stops where it may, the second one takes
the same tokens from the same place, and the views of their results are equal. Under the condition
`E`, the second one may fail instead. -/
def FollowsAt (e : Ending) (E : Prop) (m : α → Stop) (v : α → γ) (p : Reader α) (c : Cursor)
    (q : Reader α) (d : Cursor) : Prop :=
  ∀ a c', p c = some (a, c') → Leads c.spot c'.spot ∧
    ((m a).Allows c'.spot → c.Beside e d →
      E ∧ q d = none ∨ ∃ b d', q d = some (b, d') ∧ v a = v b ∧ c'.Beside e d')

/-- The second reader follows the first one, which may go as far as its result says. -/
def FollowsBy (e : Ending) (E : Prop) (m : α → Stop) (v : α → γ) (p q : Reader α) : Prop :=
  ∀ c d, FollowsAt e E m v p c q d

/-- The second reader follows the first one, where that begins at the given token. -/
def FollowsFrom (e : Ending) (E : Prop) (t : Token) (m : α → Stop) (v : α → γ) (p q : Reader α) :
    Prop :=
  ∀ c d, c.current.token = t → FollowsAt e E m v p c q d

/-- The second reader follows the first one, which may go so far. -/
abbrev Follows (e : Ending) (E : Prop) (m : Stop) (v : α → γ) (p q : Reader α) : Prop :=
  FollowsBy e E (fun _ => m) v p q

/-- The reader only moves forward. -/
def Moves (p : Reader α) : Prop :=
  ∀ c a c', p c = some (a, c') → Leads c.spot c'.spot

/-- From the closing parenthesis at the end, the reader does not get to a place where it may leave
that parenthesis for others. -/
def Eats (m : α → Stop) (p : Reader α) : Prop :=
  ∀ c a c', p c = some (a, c') → m a = .atEnd → c'.spot.Live → ¬ c.spot.IsLast

end Definitions

variable {α β γ δ : Type} {e : Ending} {E : Prop} {m : Stop} {mb : β → Stop} {v : α → γ} {w : β → δ}
  {p q : Reader α} {f g : α → Reader β} {c d : Cursor} {t : Token}

/-- A punctuator that begins no ending. -/
theorem Ending.ne_mark (e : Ending) {p : Punct}
    (h : p ∉ [Punct.rightParen, .rightBrace, .question, .coalesce]) : p ≠ e.mark := by
  rintro rfl
  exact h e.mark_mem

theorem Stop.Allows.live {s : Spot} (h : m.Allows s) : s.Live :=
  h.1

/-- At two places beside each other stands the same token, or the parenthesis at the end and what
begins the other ending. -/
theorem Cursor.Beside.cases (h : c.Beside e d) (hlive : c.spot.Live) :
    c.spot.IsLast ∧ d.current.token = .punct e.mark ∨ Agree e c.spot d.spot :=
  h.spot.cases hlive

/-! ## Moving -/

/-- A reader that is followed only moves forward. -/
theorem FollowsBy.moves {ma : α → Stop} (h : FollowsBy e E ma v p q) : Moves p :=
  fun c a c' hp => (h c c a c' hp).1

theorem moves_pure (a : α) : Moves (pure a) := by
  rintro c _ c' ⟨⟩
  exact .refl

theorem moves_require (b : Bool) : Moves (require b) := by
  cases b with
  | false => rintro c _ c' ⟨⟩
  | true => exact moves_pure ()

theorem moves_lookahead : Moves lookahead := by
  rintro c _ c' ⟨⟩
  exact .refl

/-- Readers that move forward do so one after the other. -/
theorem Moves.bind (hp : Moves p) (hf : ∀ a, Moves (f a)) : Moves (p >>= f) := by
  intro c b c' h
  obtain ⟨a, c₁, hpc, hfc⟩ := bind_eq_some.mp h
  exact (hp c a c₁ hpc).trans (hf a c₁ b c' hfc)

namespace Eats

theorem inside : Eats (fun _ => .inside) p := by
  rintro c a c' - ⟨⟩

theorem bind (hp : Eats (fun _ => .atEnd) p) (hf : ∀ a, Moves (f a)) : Eats mb (p >>= f) := by
  intro c b c' h _ hlive
  obtain ⟨a, c₁, hpc, hfc⟩ := bind_eq_some.mp h
  exact hp c a c₁ hpc rfl (hlive.of_leads (hf a c₁ b c' hfc))

/-- What comes after some other reader leaves the parenthesis alone. -/
theorem bind_right (hp : Moves p) (hf : ∀ a, Eats mb (f a)) (hmoves : ∀ a, Moves (f a)) :
    Eats mb (p >>= f) := by
  intro c b c' h hm hlive hlast
  obtain ⟨a, c₁, hpc, hfc⟩ := bind_eq_some.mp h
  have hlive₁ := hlive.of_leads (hmoves a c₁ b c' hfc)
  have heq := hlast.eq_of_leads (hp c a c₁ hpc) hlive₁
  exact hf a c₁ b c' hfc hm hlive (heq ▸ hlast)

theorem of_atEnd {m : α → Stop} (h : Eats (fun _ => .atEnd) p) : Eats m p :=
  fun c a c' hp _ => h c a c' hp rfl

/-- A reader that never stops at the end has nothing to leave alone. -/
theorem of_ne_atEnd {m : α → Stop} (h : ∀ c a c', p c = some (a, c') → m a ≠ .atEnd) : Eats m p :=
  fun c a c' hp hm => absurd hm (h c a c' hp)

end Eats

/-! ## Readers of one token -/

theorem Cursor.spot_advanced (c : Cursor) : c.advanced.spot = c.spot.after :=
  rfl

theorem eq_advanced {c' : Cursor} {x : Unit} (h : advance c = some (x, c')) : c' = c.advanced :=
  (congrArg Prod.snd (Option.some.inj h)).symm

theorem moves_advance : Moves advance := by
  intro c _ c' h
  rw [eq_advanced h]
  exact .single (.after _)

/-- The parenthesis at the end is not taken where the reading can still get to it. -/
theorem not_isLast_of_advanced (hlive : c.advanced.spot.Live) : ¬ c.spot.IsLast := by
  rintro ⟨-, hrest⟩
  rw [Cursor.spot_advanced, Spot.after, hrest] at hlive
  exact not_live_next_nil _ hlive

theorem eats_advance {m : Unit → Stop} : Eats m advance :=
  fun _ _ _ h _ hlive => not_isLast_of_advanced (eq_advanced h ▸ hlive)

/-- The other text is at least as long. -/
theorem Agree.length_le (h : Agree e c.spot d.spot) : c.rest.length ≤ d.rest.length := by
  obtain ⟨x, hc, hd⟩ := h.rest_eq
  have htext : e.text ≠ [] := by
    intro htext
    have hopens := e.opens
    rw [htext] at hopens
    cases hopens
  have hc' : c.rest = x ++ [')'] := hc
  have hd' : d.rest = x ++ e.text := hd
  rw [hc', hd', List.length_append, List.length_append]
  exact Nat.add_le_add_left (List.length_pos_of_ne_nil htext) _

/-- Behind a token that both texts have, the readings stand beside each other again. -/
theorem Agree.beside_advanced (h : Agree e c.spot d.spot) (hbeside : c.Beside e d) :
    c.advanced.Beside e d.advanced :=
  ⟨h.after, hbeside.pending, hbeside.exported⟩

namespace FollowsAt

variable {ma : α → Stop}

protected theorem pure {a b : α} (h : v a = v b) (c d : Cursor) :
    FollowsAt e E ma v (pure a) c (pure b) d := by
  rintro _ _ ⟨⟩
  exact ⟨.refl, fun _ hbeside => .inr ⟨b, d, rfl, h, hbeside⟩⟩

theorem bind (hp : FollowsAt e E ma v p c q d)
    (hf : ∀ a b, v a = v b → FollowsBy e E mb w (f a) (g b))
    (hstop : ∀ a, ma a = .inside → Eats mb (f a)) : FollowsAt e E mb w (p >>= f) c (q >>= g) d := by
  intro x c₂ h
  obtain ⟨a, c₁, hpc, hfc⟩ := bind_eq_some.mp h
  obtain ⟨hlead, hp⟩ := hp a c₁ hpc
  have hlead' := (hf a a rfl).moves c₁ x c₂ hfc
  refine ⟨hlead.trans hlead', fun hallows hbeside => ?_⟩
  have hallows₁ : (ma a).Allows c₁.spot := by
    refine ⟨hallows.live.of_leads hlead', fun hinside hlast => ?_⟩
    cases hm : mb x with
    | inside => exact hallows.2 hm (hlast.eq_of_leads hlead' hallows.live ▸ hlast)
    | atEnd => exact hstop a hinside c₁ x c₂ hfc hm hallows.live hlast
  rcases hp hallows₁ hbeside with ⟨hE, hq⟩ | ⟨b, d₁, hq, hab, hbeside₁⟩
  · exact .inl ⟨hE, bind_of_eq_none hq⟩
  · rw [bind_of_eq_some hq]
    exact (hf a b hab c₁ d₁ x c₂ hfc).2 hallows hbeside₁

/-- A reader that only looks at where the reading stands. -/
theorem read {G : Cursor → α} (hp : ∀ c, p c = some (G c, c)) (hq : ∀ c, q c = some (G c, c))
    (hG : c.spot.Live → (ma (G c) = .inside → ¬ c.spot.IsLast) → c.Beside e d → v (G c) = v (G d)) :
    FollowsAt e E ma v p c q d := by
  intro a c' h
  rw [hp] at h
  cases h
  exact ⟨.refl, fun hallows hbeside =>
    .inr ⟨G d, d, hq d, hG hallows.1 hallows.2 hbeside, hbeside⟩⟩

end FollowsAt

namespace FollowsBy

variable {ma : α → Stop}

protected theorem pure {a b : α} (h : v a = v b) : FollowsBy e E ma v (pure a) (pure b) :=
  FollowsAt.pure h

protected theorem fail : FollowsBy e E ma v fail q := by
  rintro c d a c' ⟨⟩

theorem of_atEnd (h : Follows e E .atEnd v p q) : FollowsBy e E ma v p q := by
  intro c d a c' hp
  obtain ⟨hlead, hq⟩ := h c d a c' hp
  refine ⟨hlead, fun hallows => hq ⟨hallows.live, ?_⟩⟩
  rintro ⟨⟩

/-- What can be followed to the end can be followed to every place before it. -/
theorem to_inside (h : Follows e E m v p q) : Follows e E .inside v p q := by
  intro c d a c' hp
  obtain ⟨hlead, hq⟩ := h c d a c' hp
  exact ⟨hlead, fun hallows => hq ⟨hallows.live, fun _ => hallows.2 rfl⟩⟩

/-- The second reader may fail. -/
theorem fails (hE : E) (hp : Moves p) : FollowsBy e E ma v p fail :=
  fun c _ a c' hpc => ⟨hp c a c' hpc, fun _ _ => .inl ⟨hE, rfl⟩⟩

/-- Two results that look the same do so through every coarser view. -/
theorem view (h : FollowsBy e E ma v p q) {v' : α → δ} (hv : ∀ a b, v a = v b → v' a = v' b) :
    FollowsBy e E ma v' p q := by
  intro c d a c' hp
  obtain ⟨hlead, hq⟩ := h c d a c' hp
  refine ⟨hlead, fun hallows hbeside => (hq hallows hbeside).imp_right ?_⟩
  rintro ⟨b, d', hqd, hab, hbeside'⟩
  exact ⟨b, d', hqd, hv a b hab, hbeside'⟩

/-- What is followed everywhere is followed from each token. -/
theorem from' (h : FollowsBy e E ma v p q) : FollowsFrom e E t ma v p q :=
  fun c d _ => h c d

theorem bind_by (hp : FollowsBy e E ma v p q)
    (hf : ∀ a b, v a = v b → FollowsBy e E mb w (f a) (g b))
    (hstop : ∀ a, ma a = .inside → Eats mb (f a)) : FollowsBy e E mb w (p >>= f) (q >>= g) :=
  fun c d => (hp c d).bind hf hstop

/-- A part that may go up to the end comes first. -/
theorem bind_atEnd (hp : Follows e E .atEnd v p q)
    (hf : ∀ a b, v a = v b → FollowsBy e E mb w (f a) (g b)) :
    FollowsBy e E mb w (p >>= f) (q >>= g) :=
  hp.bind_by hf (by rintro a ⟨⟩)

/-- What follows takes the closing parenthesis. -/
theorem bind_eats (hp : Follows e E .inside v p q)
    (hf : ∀ a b, v a = v b → FollowsBy e E mb w (f a) (g b)) (heats : ∀ a, Eats mb (f a)) :
    FollowsBy e E mb w (p >>= f) (q >>= g) :=
  hp.bind_by hf fun a _ => heats a

theorem bind (hp : Follows e E m v p q) (hf : ∀ a b, v a = v b → Follows e E m w (f a) (g b)) :
    Follows e E m w (p >>= f) (q >>= g) := by
  refine hp.bind_by hf fun a hm => ?_
  rw [hm]
  exact .inside

/-- The second part begins with equal values. -/
theorem bind_id (hp : Follows e E m id p q) (hf : ∀ a, Follows e E m w (f a) (g a)) :
    Follows e E m w (p >>= f) (q >>= g) :=
  hp.bind fun a b (hab : a = b) => hab ▸ hf a

/-- A condition that holds in the second reading, too, or else lets it fail. -/
protected theorem require {b b' : Bool} (h : b = true → b' = true ∨ E) {mu : Unit → Stop} :
    FollowsBy e E mu id (require b) (require b') := by
  cases b with
  | false => exact .fail
  | true =>
    intro c d _ c' hc
    cases hc
    refine ⟨.refl, fun _ hbeside => ?_⟩
    rcases h rfl with rfl | hE
    · exact .inr ⟨(), d, rfl, rfl, hbeside⟩
    · cases b' with
      | false => exact .inl ⟨hE, rfl⟩
      | true => exact .inr ⟨(), d, rfl, rfl, hbeside⟩

/-- The same demand is made in both texts. -/
theorem require_self (b : Bool) {mu : Unit → Stop} :
    FollowsBy e E mu id (require b) (require b) :=
  .require .inl

protected theorem advance {mu : Unit → Stop} : FollowsBy e E mu id advance advance := by
  intro c d _ c' h
  have hlead := moves_advance c _ c' h
  obtain rfl := eq_advanced h
  refine ⟨hlead, fun hallows hbeside => .inr ⟨(), d.advanced, rfl, rfl, ?_⟩⟩
  have hagree := (hbeside.cases (hallows.live.of_leads hlead)).resolve_left fun hlast =>
    not_isLast_of_advanced hallows.live hlast.1
  exact hagree.beside_advanced hbeside

/-! ### The current token -/

/-- The next part depends on the token, which is not `await`. At the parenthesis it takes that, or
behaves as at the first token of the other ending. -/
theorem bind_token_ne {f g : Token → Reader β}
    (h : ∀ t, t ≠ .word "await" false → FollowsFrom e E t mb w (f t) (g t))
    (hawait : ∀ c, c.current.token = .word "await" false → ∀ b c',
      f (.word "await" false) c = some (b, c') → Leads c.spot c'.spot)
    (hend : Eats mb (f (.punct .rightParen)) ∨
      FollowsBy e E mb w (f (.punct .rightParen)) (g (.punct e.mark))) :
    FollowsBy e E mb w (token >>= f) (token >>= g) := by
  intro c d b c' hfc
  replace hfc : f c.current.token c = some (b, c') := hfc
  have hlead : Leads c.spot c'.spot := by
    by_cases hc : c.current.token = .word "await" false
    · exact hawait c hc b c' (hc ▸ hfc)
    · exact (h _ hc c c rfl b c' hfc).1
  refine ⟨hlead, fun hallows hbeside => ?_⟩
  show E ∧ g d.current.token d = none ∨ _
  rcases hbeside.cases (hallows.live.of_leads hlead) with ⟨hlast, hmark⟩ | hagree
  · have htoken : c.current.token = .punct .rightParen := hlast.1
    rw [htoken] at hfc
    rcases hend with heats | hend
    · cases hm : mb b with
      | inside => exact absurd (hlast.eq_of_leads hlead hallows.live ▸ hlast) (hallows.2 hm)
      | atEnd => exact absurd hlast (heats c b c' hfc hm hallows.live)
    · have := (hend c d b c' hfc).2 hallows hbeside
      rwa [← hmark] at this
  · have htoken : d.current.token = c.current.token := hagree.token_eq
    have hne : c.current.token ≠ .word "await" false := hagree.not_await
    have := (h _ hne c d rfl b c' hfc).2 hallows hbeside
    rwa [← htoken] at this

/-- A reader that looks at the token first. At the parenthesis it leaves that to others, or takes
the other ending for the same. -/
theorem bind_token {f g : Token → Reader β} (h : ∀ t, FollowsBy e E mb w (f t) (g t))
    (hend : Eats mb (f (.punct .rightParen)) ∨
      FollowsBy e E mb w (f (.punct .rightParen)) (g (.punct e.mark))) :
    FollowsBy e E mb w (token >>= f) (token >>= g) :=
  bind_token_ne (fun t _ => (h t).from') (fun c _ => (h _).moves c) hend

/-- The next part depends on the token that it begins at. -/
theorem bind_token_from {f g : Token → Reader β} (h : ∀ t, FollowsFrom e E t mb w (f t) (g t))
    (hend : Eats mb (f (.punct .rightParen)) ∨
      FollowsBy e E mb w (f (.punct .rightParen)) (g (.punct e.mark))) :
    FollowsBy e E mb w (token >>= f) (token >>= g) :=
  bind_token_ne (fun t _ => h t) (fun c hc b c' hb => (h _ c c hc b c' hb).1) hend

/-- The places of terms may differ. -/
theorem bind_start {f g : Nat → Reader β} (h : ∀ n n', FollowsBy e E mb w (f n) (g n')) :
    FollowsBy e E mb w (start >>= f) (start >>= g) :=
  fun c d => h c.current.start d.current.start c d

/-- A reader that looks at the whole place where it stands. -/
theorem bind_get {f g : Cursor → Reader β} (h : ∀ c d, FollowsAt e E mb w (f c) c (g d) d) :
    FollowsBy e E mb w (get >>= f) (get >>= g) :=
  fun c d => h c d

/-- A punctuator that begins no ending is told from others. -/
theorem bind_at {f g : Bool → Reader β} (p : Punct) (h : ∀ b, FollowsBy e E mb w (f b) (g b))
    (hstop : p ∉ [Punct.rightParen, .rightBrace, .question, .coalesce] ∨
      Eats mb (f (p == .rightParen))) :
    FollowsBy e E mb w (at? p >>= f) (at? p >>= g) := by
  refine bind_token (f := fun t => f (isPunct p t)) (g := fun t => g (isPunct p t))
    (fun _ => h _) (hstop.symm.imp id fun hp => ?_)
  have hother {q : Punct} (hq : q ∈ [Punct.rightParen, .rightBrace, .question, .coalesce]) :
      (p == q) = false :=
    beq_eq_false_iff_ne.mpr fun heq => hp (heq ▸ hq)
  show FollowsBy e E mb w (f (p == .rightParen)) (g (p == e.mark))
  rw [hother e.mark_mem, hother (by decide)]
  exact h false

/-- A punctuator is taken if it is the next token. -/
theorem bind_eat {f g : Bool → Reader β} (p : Punct) (htrue : FollowsBy e E mb w (f true) (g true))
    (hfalse : FollowsBy e E mb w (f false) (g false)) (hstop : p ≠ e.mark ∨ Eats mb (f false)) :
    FollowsBy e E mb w (eat p >>= f) (eat p >>= g) := by
  have htake : FollowsBy e E mb w (advance >>= fun _ => f true) (advance >>= fun _ => g true) :=
    bind_atEnd .advance fun _ _ _ => htrue
  have heat (k : Bool → Reader β) : (eat p >>= k) =
      at? p >>= fun b => if b then advance >>= fun _ => k true else k false := by
    rw [eat, bind_assoc]
    congr 1
    funext b
    cases b <;> simp
  rw [heat, heat]
  refine bind_token (f := fun t => if isPunct p t then advance >>= fun _ => f true else f false)
    (g := fun t => if isPunct p t then advance >>= fun _ => g true else g false) (fun t => ?_) ?_
  · split
    · exact htake
    · exact hfalse
  · by_cases hp : p = .rightParen
    · left
      rw [if_pos (show isPunct p (.punct .rightParen) = true from beq_iff_eq.mpr hp)]
      exact eats_advance.bind fun _ => htrue.moves
    · have hp' : ¬ isPunct p (.punct .rightParen) = true := fun h => hp (beq_iff_eq.mp h)
      rw [if_neg hp']
      refine hstop.symm.imp id fun hmark => ?_
      have hmark' : ¬ isPunct p (.punct e.mark) = true := fun h => hmark (beq_iff_eq.mp h)
      rw [if_neg hmark']
      exact hfalse

protected theorem eat (p : Punct) (hp : p ≠ e.mark) {mb : Bool → Stop} :
    FollowsBy e E mb id (eat p) (eat p) := by
  have h : FollowsBy e E mb id (eat p >>= pure) (eat p >>= pure) :=
    bind_eat p (.pure rfl) (.pure rfl) (.inl hp)
  rwa [bind_pure] at h

/-- A punctuator that is taken if it is there, before the end. -/
protected theorem eat_inside (p : Punct) : Follows e E .inside id (eat p) (eat p) := by
  have h : Follows e E .inside id (eat p >>= pure) (eat p >>= pure) :=
    bind_eat p (.pure rfl) (.pure rfl) (.inr .inside)
  rwa [bind_pure] at h

/-- A punctuator has to be taken. -/
protected theorem expect (p : Punct) {mu : Unit → Stop} :
    FollowsBy e E mu id (expect p) (expect p) :=
  bind_eat p (require_self true) .fail (.inr (by rintro c _ c' ⟨⟩))

/-- A part that is read only under a condition. -/
theorem when (b : Bool) {x x' : Reader Unit} (hx : Follows e E .atEnd id x x')
    {k k' : Unit → Reader β} (hk : FollowsBy e E mb w (k ()) (k' ())) :
    FollowsBy e E mb w (if b then x >>= k else k ()) (if b then x' >>= k' else k' ()) := by
  cases b with
  | true => exact bind_atEnd hx fun _ _ _ => hk
  | false => exact hk

/-- What only depends on the token, and is the same at the first tokens of all endings. -/
theorem read_token {G : Token → α} {ma : α → Stop} (hp : ∀ c, p c = some (G c.current.token, c))
    (hG : ∀ q ∈ [Punct.rightParen, .rightBrace, .question, .coalesce],
      G (.punct q) = G (.punct .rightParen)) : FollowsBy e E ma id p p := by
  intro c d
  refine .read hp hp fun hlive _ hbeside => ?_
  rcases hbeside.cases hlive with ⟨hlast, hmark⟩ | hagree
  · have htoken : c.current.token = .punct .rightParen := hlast.1
    rw [htoken, hmark]
    exact (hG _ e.mark_mem).symm
  · exact congrArg G hagree.token_eq.symm

protected theorem atWord (word : String) {mb : Bool → Stop} :
    FollowsBy e E mb id (atWord word) (atWord word) :=
  read_token (G := isKeyword word) (fun _ => rfl) fun _ _ => rfl

/-- Neither the parenthesis nor an ending is a word. -/
theorem bind_atWord {f g : Bool → Reader β} (word : String)
    (h : ∀ b, FollowsBy e E mb w (f b) (g b)) :
    FollowsBy e E mb w (atWord word >>= f) (atWord word >>= g) :=
  bind_atEnd (.atWord word) fun a b (hab : a = b) => hab ▸ h a

/-- A keyword is taken if it is the next token. -/
protected theorem eatWord (word : String) {mb : Bool → Stop} :
    FollowsBy e E mb id (eatWord word) (eatWord word) := by
  refine bind_atWord word fun b => ?_
  cases b with
  | true => exact bind_atEnd .advance fun _ _ _ => .pure rfl
  | false => exact .pure rfl

/-- The word `await` is not there. -/
theorem bind_eatWord_await {f g : Bool → Reader β} (htrue : Moves (f true))
    (hfalse : FollowsBy e E mb w (f false) (g false)) :
    FollowsBy e E mb w (eatWord "await" >>= f) (eatWord "await" >>= g) := by
  have heat (k : Bool → Reader β) : (eatWord "await" >>= k) = token >>= fun t =>
      if isKeyword "await" t then advance >>= fun _ => k true else k false := by
    show ((token >>= fun t => pure (isKeyword "await" t)) >>= _) >>= k = _
    rw [bind_assoc, bind_assoc]
    congr 1
    funext t
    rw [pure_bind]
    cases isKeyword "await" t <;> simp
  have hmoves : Moves (advance >>= fun _ => f true) := moves_advance.bind fun _ => htrue
  rw [heat, heat]
  refine bind_token_ne (fun t ht => from' ?_) (fun c _ => hmoves c) ?_
  · have hkeyword : ¬ isKeyword "await" t = true := by
      cases t with
      | word name escaped =>
        intro h
        obtain ⟨hname, hescaped⟩ : name = "await" ∧ escaped = false := by
          simpa [isKeyword] using h
        exact ht (by rw [hname, hescaped])
      | _ => exact Bool.false_ne_true
    rw [if_neg hkeyword, if_neg hkeyword]
    exact hfalse
  · exact .inr hfalse

/-- A word that is taken if it is there. The ending of a text never is. -/
theorem bind_eatWord {f g : Bool → Reader β} (word : String)
    (h : ∀ b, FollowsBy e E mb w (f b) (g b)) :
    FollowsBy e E mb w (eatWord word >>= f) (eatWord word >>= g) :=
  bind_atEnd (.eatWord word) fun a b (hab : a = b) => hab ▸ h a

protected theorem expectWord (word : String) {mu : Unit → Stop} :
    FollowsBy e E mu id (expectWord word) (expectWord word) :=
  bind_eatWord word fun b => .require_self b

/-- Whether a line break stands before the next token can be told inside the text. -/
protected theorem newline : Follows e E .inside id newline newline := by
  intro c d
  refine .read (G := fun c => c.current.newline) (fun _ => rfl) (fun _ => rfl)
    fun hlive hlast hbeside => ?_
  exact ((hbeside.cases hlive).resolve_left fun h => hlast rfl h.1).newline_eq.symm

/-- At the parenthesis, the next part takes that, or is the same whether a line break is there. -/
theorem bind_newline {f g : Bool → Reader β} (h : ∀ b, FollowsBy e E mb w (f b) (g b))
    (hend : (∀ b, Eats mb (f b)) ∨ ∀ c d, c.current.token = .punct .rightParen →
      d.current.token = .punct e.mark → ∀ b b', FollowsAt e E mb w (f b) c (g b') d) :
    FollowsBy e E mb w (newline >>= f) (newline >>= g) := by
  intro c d b c' hfc
  obtain ⟨hlead, hfollow⟩ := h c.current.newline c d b c' hfc
  refine ⟨hlead, fun hallows hbeside => ?_⟩
  rcases hbeside.cases (hallows.live.of_leads hlead) with ⟨hlast, hmark⟩ | hagree
  · rcases hend with heats | hend
    · cases hm : mb b with
      | inside => exact absurd (hlast.eq_of_leads hlead hallows.live ▸ hlast) (hallows.2 hm)
      | atEnd => exact absurd hlast (heats _ c b c' hfc hm hallows.live)
    · exact (hend c d hlast.1 hmark _ _ b c' hfc).2 hallows hbeside
  · have := hfollow hallows hbeside
    have hnewline : d.current.newline = c.current.newline := hagree.newline_eq
    rwa [← hnewline] at this

/-- The end of a statement before the parenthesis. -/
protected theorem endStatement : Follows e E .inside id endStatement endStatement := by
  refine bind_eat _ (.pure rfl) (bind_token (fun t => ?_) (.inl .inside)) (.inr .inside)
  split
  · exact .pure rfl
  · exact .pure rfl
  · exact .bind_id .newline fun b => .require_self b

/-! ### What is pending and what is exported -/

/-- A change that does not move the reading. -/
protected theorem modify {F G : Cursor → Cursor} {mu : Unit → Stop}
    (hspot : ∀ c, (F c).spot = c.spot) (h : ∀ c d, c.Beside e d → (F c).Beside e (G d)) :
    FollowsBy e E mu id (modify F) (modify G) := by
  intro c d _ c' hc
  cases hc
  exact ⟨by rw [hspot], fun _ hbeside => .inr ⟨(), G d, rfl, rfl, h c d hbeside⟩⟩

/-- The next part depends on something that is the same for both readings. -/
theorem bind_field {ι : Type} {G : Cursor → ι} (hG : ∀ c d, c.Beside e d → G d = G c)
    (f g : ι → Reader β) (h : ∀ x, FollowsBy e E mb w (f x) (g x)) :
    FollowsBy e E mb w (get >>= fun c => f (G c)) (get >>= fun d => g (G d)) := by
  intro c d b c' hfc
  obtain ⟨hlead, hfollow⟩ := h (G c) c d b c' hfc
  refine ⟨hlead, fun hallows hbeside => ?_⟩
  have := hfollow hallows hbeside
  rwa [← hG c d hbeside] at this

/-- What is pending is the same at both places. -/
protected theorem settle (n : Nat) {mu : Unit → Stop} :
    FollowsBy e E mu id (settle n) (settle n) :=
  .modify (fun _ => rfl) fun _ _ h => ⟨h.spot, congrArg (· - n) h.pending, h.exported⟩

protected theorem exportName (name : String) {mu : Unit → Stop} :
    FollowsBy e E mu id (exportName name) (exportName name) := by
  let read (names : List String) : Reader Unit := do
    require !(names.contains name)
    modify fun c => { c with exported := name :: c.exported }
  refine bind_field (fun _ _ h => h.exported) read read fun names => ?_
  refine bind_atEnd (.require_self _) fun _ _ _ => .modify (fun _ => rfl) fun _ _ h => ?_
  exact ⟨h.spot, h.pending, congrArg (name :: ·) h.exported⟩

protected theorem exportNames {mu : Unit → Stop} :
    (names : List String) → FollowsBy e E mu id (exportNames names) (exportNames names)
  | [] => .pure rfl
  | name :: names => bind_atEnd (.exportName name) fun _ _ _ => .exportNames names

end FollowsBy

/-! ## Loops -/

section Loops

variable {ι : Type} {step step' : α → Reader (α ⊕ β)} {i : Stop}

/-- How far a step of a loop may go if it is not the last one, and if it is. -/
def loopStop (i m : Stop) : α ⊕ β → Stop
  | .inl _ => i
  | .inr _ => m

namespace Eats

/-- A step that is not the last one. -/
theorem goes_on {f : α → β} : Eats (loopStop .inside m) (p >>= fun a => pure (Sum.inl (f a) : β ⊕ γ)) := by
  refine of_ne_atEnd fun c x c' h => ?_
  obtain ⟨a, c₁, -, ⟨⟩⟩ := bind_eq_some.mp h
  rintro ⟨⟩

/-- If the punctuator is not there, something else takes the parenthesis. -/
theorem bind_eat {f : Bool → Reader β} (p : Punct) (htrue : Moves (f true))
    (hfalse : Eats mb (f false)) : Eats mb (eat p >>= f) := by
  intro c b c' h hm hlive
  obtain ⟨found, c₁, heat, hfc⟩ := bind_eq_some.mp h
  obtain ⟨found', c₂, hat, heat⟩ := bind_eq_some.mp heat
  obtain rfl : c = c₂ := congrArg Prod.snd (Option.some.inj hat)
  cases found' with
  | false =>
    obtain ⟨rfl, rfl⟩ : false = found ∧ c = c₁ := Prod.mk.inj (Option.some.inj heat)
    exact hfalse c b c' hfc hm hlive
  | true =>
    obtain ⟨_, c₂, hadvance, hpure⟩ := bind_eq_some.mp heat
    obtain rfl := eq_advanced hadvance
    obtain ⟨rfl, rfl⟩ : true = found ∧ c.advanced = c₁ := Prod.mk.inj (Option.some.inj hpure)
    exact not_isLast_of_advanced (hlive.of_leads (htrue _ b c' hfc))

theorem expect (p : Punct) {mu : Unit → Stop} : Eats mu (expect p) :=
  bind_eat p (moves_pure ()) (by rintro c _ c' ⟨⟩)

end Eats

/-- A loop moves forward if each of its steps does. -/
theorem Moves.iterate (hstep : ∀ a, Moves (step a)) : ∀ n a, Moves (iterate step n a)
  | 0, _ => by rintro c b c' ⟨⟩
  | n + 1, a => (hstep a).bind fun x => by
    cases x with
    | inl a => exact Moves.iterate hstep n a
    | inr b => exact moves_pure b

/-- A loop eats if its last step does. -/
theorem Eats.iterate (hmoves : ∀ a, Moves (step a)) (hstep : ∀ a, Eats (loopStop .inside m) (step a))
    (n : Nat) (a : α) : Eats (fun _ => m) (iterate step n a) := by
  induction n generalizing a with
  | zero => rintro c b c' ⟨⟩
  | succ n ih =>
    intro c b c' h hm hlive hlast
    obtain ⟨x, c₁, hx, hrest⟩ := bind_eq_some.mp h
    cases x with
    | inl a' =>
      have hlive₁ := hlive.of_leads (Moves.iterate hmoves n a' c₁ b c' hrest)
      have heq := hlast.eq_of_leads (hmoves a c _ c₁ hx) hlive₁
      exact ih a' c₁ b c' hrest hm hlive (heq ▸ hlast)
    | inr b' =>
      obtain ⟨rfl, rfl⟩ : b' = b ∧ c₁ = c' := Prod.mk.inj (Option.some.inj hrest)
      exact hstep a c _ _ hx hm hlive hlast

namespace FollowsBy

/-- A step that is not the last one. -/
theorem goes_on {κ : Type} {u : δ → κ} {f g : α → δ} {w : β → ι} (hp : Follows e E .inside v p q)
    (h : ∀ a b, v a = v b → u (f a) = u (g b)) :
    FollowsBy e E (loopStop .inside m) (Sum.map u w) (p >>= fun a => pure (Sum.inl (f a)))
      (q >>= fun b => pure (Sum.inl (g b))) :=
  bind_by hp (fun a b hab => .pure (congrArg Sum.inl (h a b hab))) fun _ _ =>
    .of_ne_atEnd (by rintro c _ c' ⟨⟩ ⟨⟩)

variable (hstep : ∀ a b, v a = v b →
      FollowsBy e E (loopStop i m) (Sum.map v w) (step a) (step' b))
    (hends : i = .inside → m = .atEnd → ∀ a, Eats (loopStop .inside .atEnd) (step a))

include hstep hends

/-- The second loop may go on longer. -/
theorem iterate (n n' : Nat) (hn : n ≤ n') {a b : α} (hab : v a = v b) :
    Follows e E m w (iterate step n a) (iterate step' n' b) := by
  induction n generalizing n' a b with
  | zero => exact .fail
  | succ n ih =>
    obtain ⟨n', rfl⟩ : ∃ k, n' = k + 1 := ⟨n' - 1, by omega⟩
    refine bind_by (hstep a b hab) (fun x y hxy => ?_) fun x hx => ?_
    · cases x with
      | inl x =>
        cases y with
        | inl y => exact ih n' (by omega) (Sum.inl.inj hxy)
        | inr y => cases hxy
      | inr x =>
        cases y with
        | inl y => cases hxy
        | inr y => exact .pure (Sum.inr.inj hxy)
    · cases hm : m with
      | inside => exact .inside
      | atEnd =>
        cases x with
        | inl x => exact .iterate (fun a => (hstep a a rfl).moves) (hends hx hm) n x
        | inr x => cases hx.symm.trans hm

/-- The second reading has at least as much text before it. -/
theorem repeatFrom {a b : α} (hab : v a = v b) :
    Follows e E m w (repeatFrom a step) (repeatFrom b step') := by
  intro c d x c' h
  have hiterate (n n' : Nat) (hn : n ≤ n') := iterate hstep hends n n' hn hab
  obtain ⟨hlead, -⟩ := hiterate _ _ (Nat.le_refl _) c d x c' h
  refine ⟨hlead, fun hallows hbeside => ?_⟩
  refine (hiterate _ (d.rest.length + 3) ?_ c d x c' h).2 hallows hbeside
  refine Nat.add_le_add_right ?_ 3
  rcases hbeside.cases (hallows.live.of_leads hlead) with ⟨hlast, -⟩ | hagree
  · have hrest : c.rest = [] := hlast.2
    rw [hrest]
    exact Nat.zero_le _
  · exact hagree.length_le

end FollowsBy

namespace Follows

/-- A loop of which every step may go as far as the whole. -/
theorem repeatFrom (hstep : ∀ a b, v a = v b →
      Follows e E m (Sum.map v w) (step a) (step' b)) {a b : α} (hab : v a = v b) :
    Follows e E m w (repeatFrom a step) (repeatFrom b step') := by
  have hstop : loopStop m m = fun _ : α ⊕ β => m := by
    funext x
    cases x <;> rfl
  refine FollowsBy.repeatFrom (i := m) (fun a b hab => ?_) (fun hi hm => ?_) hab
  · rw [hstop]
    exact hstep a b hab
  · cases hi.symm.trans hm

end Follows

/-- What a step of the loop over items does behind an item. -/
def afterItem (close : Punct) (items : List α) : Reader ((List α × Bool) ⊕ (List α × Bool)) := do
  if ← eat .comma then return .inl (items, true)
  else
    expect close
    return .inr (items.reverse, false)

/-- Behind an item comes a comma or what closes the items, not the end of the text. -/
theorem eats_afterItem (close : Punct) (items : List α) :
    Eats (loopStop .inside .atEnd) (afterItem close items) :=
  .bind_eat _ (moves_pure _) ((Eats.expect _).bind fun _ => moves_pure _)

/-- After an item both texts go on with the next one, or are both closed. -/
theorem afterItem_follows (close : Punct) {xs ys : List α} (h : xs.map v = ys.map v) :
    FollowsBy e E (loopStop .inside .atEnd)
      (Sum.map (fun x => (x.1.map v, x.2)) fun x => (x.1.map v, x.2)) (afterItem close xs)
      (afterItem close ys) := by
  refine .bind_eat _ (.pure ?_) (.bind_atEnd (.expect _) fun _ _ _ => .pure ?_)
    (.inl (e.ne_mark (by decide)))
  · simp [h]
  · simp [h]

section Delimited

variable {item item' : Reader α} (close : Punct) (hitem : Follows e E .inside v item item')

include hitem

theorem eats_delimitedItem (xs : List α) : Eats (loopStop .inside .atEnd)
    (item >>= fun a => afterItem close (a :: xs)) :=
  .bind_right hitem.moves (fun _ => eats_afterItem _ _) fun _ =>
    (afterItem_follows (e := e) (E := E) (v := id) close rfl).moves

/-- One more item is read in both texts, or both are closed. -/
theorem delimitedStep_follows {x y : List α × Bool} (h : (x.1.map v, x.2) = (y.1.map v, y.2)) :
    FollowsBy e E (loopStop .inside .atEnd)
      (Sum.map (fun x => (x.1.map v, x.2)) fun x => (x.1.map v, x.2))
      (delimitedStep close item x) (delimitedStep close item' y) := by
  obtain ⟨hitems, htrailing⟩ := Prod.mk.inj h
  refine .bind_eat _ (.pure ?_) (.bind_eats hitem (fun a b hab => ?_) fun a => ?_)
    (.inr (eats_delimitedItem close hitem x.1))
  · simp [hitems, htrailing]
  · exact afterItem_follows close (by simp [hab, hitems])
  · exact eats_afterItem _ _

theorem eats_delimitedStep (x : List α × Bool) :
    Eats (loopStop .inside .atEnd) (delimitedStep close item x) :=
  .bind_eat _ (moves_pure _) (eats_delimitedItem close hitem x.1)

/-- Items up to a closing punctuator, which takes the parenthesis if need be. -/
theorem delimited_follows {m : List α × Bool → Stop} :
    FollowsBy e E m (fun x => (x.1.map v, x.2)) (delimited close item) (delimited close item') :=
  .of_atEnd (FollowsBy.repeatFrom (fun _ _ => delimitedStep_follows close hitem)
    (fun _ _ => eats_delimitedStep close hitem) rfl)

end Delimited

/-- Items of which the results are equal. -/
theorem delimited_follows_id {item item' : Reader α} (close : Punct)
    (hitem : Follows e E .inside id item item') {m : List α × Bool → Stop} :
    FollowsBy e E m id (delimited close item) (delimited close item') :=
  (delimited_follows close hitem).view fun x y h => by
    rw [List.map_id, List.map_id] at h
    exact h

end Loops

/-! ## Tokens ahead -/

/-- The tokens are seen alike, as those of both texts or of one. -/
def Peeked (e : Ending) (l l' : Lexeme) : Prop :=
  Seen e l l' ∨ l = l'

/-- A token further ahead is the same in both texts, unless the first text ends there. -/
theorem Peeked.token_eq {l l' : Lexeme} (h : Peeked e l l') :
    l'.token = l.token ∨ l.token = .punct .rightParen ∧ l'.token = .punct e.mark := by
  rcases h with (⟨htoken, -, -⟩ | hend) | rfl
  · exact .inl htoken
  · exact .inr hend
  · exact .inl rfl

/-- What is the same for all tokens that begin an ending is the same for both tokens. -/
theorem Peeked.eq {l l' : Lexeme} (h : Peeked e l l') {P : Token → Bool → δ}
    (hP : ∀ p ∈ [Punct.rightParen, .rightBrace, .question, .coalesce], ∀ b b',
      P (.punct p) b = P (.punct .rightParen) b') : P l.token l.newline = P l'.token l'.newline := by
  rcases h with (⟨htoken, hnewline, -⟩ | ⟨hparen, hmark⟩) | rfl
  · rw [htoken, hnewline]
  · rw [hparen, hmark]
    exact (hP _ e.mark_mem _ _).symm
  · rfl


namespace FollowsFrom

theorem bind_start {f g : Nat → Reader β} (h : ∀ n n', FollowsFrom e E t mb w (f n) (g n')) :
    FollowsFrom e E t mb w (start >>= f) (start >>= g) :=
  fun c d hc => h c.current.start d.current.start c d hc

theorem bind_token {f g : Token → Reader β} (ht : t ≠ .punct .rightParen)
    (h : FollowsFrom e E t mb w (f t) (g t)) :
    FollowsFrom e E t mb w (token >>= f) (token >>= g) := by
  intro c d hc b c' hfc
  replace hfc : f c.current.token c = some (b, c') := hfc
  rw [hc] at hfc
  obtain ⟨hlead, hfollow⟩ := h c d hc b c' hfc
  refine ⟨hlead, fun hallows hbeside => ?_⟩
  have hagree := (hbeside.cases (hallows.live.of_leads hlead)).resolve_left fun hlast =>
    ht (hc.symm.trans hlast.1.1)
  have htoken : d.current.token = t := hagree.token_eq.trans hc
  have := hfollow hallows hbeside
  rwa [← htoken] at this

/-- The token after the current one is seen alike in both texts. -/
theorem bind_lookahead {f g : Lexeme → Reader β} (ht : t.IsPlain)
    (h : ∀ l l', Peeked e l l' → FollowsFrom e E t mb w (f l) (g l')) :
    FollowsFrom e E t mb w (lookahead >>= f) (lookahead >>= g) := by
  intro c d hc b c' hfc
  obtain ⟨hlead, -⟩ := h (next c.current.stop c.rest).1 _ (.inr rfl) c c hc b c' hfc
  refine ⟨hlead, fun hallows hbeside => ?_⟩
  obtain ⟨hlive, hafter⟩ := hbeside.spot.after (hallows.live.of_leads hlead) (hc ▸ ht)
  exact (h _ _ (.inl (hafter.seen hlive)) c d hc b c' hfc).2 hallows hbeside

theorem bind_newline {f g : Bool → Reader β} (ht : t ≠ .punct .rightParen)
    (h : ∀ b, FollowsFrom e E t mb w (f b) (g b)) :
    FollowsFrom e E t mb w (newline >>= f) (newline >>= g) := by
  intro c d hc b c' hfc
  obtain ⟨hlead, hfollow⟩ := h c.current.newline c d hc b c' hfc
  refine ⟨hlead, fun hallows hbeside => ?_⟩
  have hagree := (hbeside.cases (hallows.live.of_leads hlead)).resolve_left fun hlast =>
    ht (hc.symm.trans hlast.1.1)
  have hnewline : d.current.newline = c.current.newline := hagree.newline_eq
  have := hfollow hallows hbeside
  rwa [← hnewline] at this

/-- The second token is seen alike if the text is not scanned anew at the first one. -/
theorem bind_ahead {f g : List Lexeme → Reader β} (ht : t.IsPlain)
    (h : ∀ k l k' l', Peeked e k k' → (k.token.IsPlain → Peeked e l l') →
      FollowsFrom e E t mb w (f [k, l]) (g [k', l'])) :
    FollowsFrom e E t mb w (ahead 2 >>= f) (ahead 2 >>= g) := by
  intro c d hc b c' hfc
  obtain ⟨hlead, -⟩ := h _ _ _ _ (.inr rfl) (fun _ => .inr rfl) c c hc b c' hfc
  refine ⟨hlead, fun hallows hbeside => ?_⟩
  obtain ⟨hlive, hafter⟩ := hbeside.spot.after (hallows.live.of_leads hlead) (hc ▸ ht)
  refine (h _ _ _ _ (.inl (hafter.seen hlive)) (fun hplain => ?_) c d hc b c' hfc).2 hallows hbeside
  obtain ⟨hlive', hafter'⟩ := hafter.after hlive hplain
  exact .inl (hafter'.seen hlive')

theorem bind {ma : α → Stop} (hp : FollowsFrom e E t ma v p q)
    (hf : ∀ a b, v a = v b → FollowsBy e E mb w (f a) (g b))
    (hstop : ∀ a, ma a = .inside → Eats mb (f a)) : FollowsFrom e E t mb w (p >>= f) (q >>= g) :=
  fun c d hc => (hp c d hc).bind hf hstop

theorem bind_atEnd (hp : FollowsFrom e E t (fun _ => .atEnd) v p q)
    (hf : ∀ a b, v a = v b → FollowsBy e E mb w (f a) (g b)) :
    FollowsFrom e E t mb w (p >>= f) (q >>= g) :=
  hp.bind hf (by rintro a ⟨⟩)

/-- A part that stays at the token. -/
theorem bind_stay (hp : FollowsFrom e E t (fun _ => .atEnd) v p q) (hstay : ∀ c, ∃ a, p c = some (a, c))
    (hf : ∀ a b, v a = v b → FollowsFrom e E t mb w (f a) (g b)) :
    FollowsFrom e E t mb w (p >>= f) (q >>= g) := by
  intro c d hc x c' h
  obtain ⟨a, hpc⟩ := hstay c
  rw [bind_of_eq_some hpc] at h
  have hlead := (hf a a rfl c c hc x c' h).1
  refine ⟨hlead, fun hallows hbeside => ?_⟩
  have hlive := hallows.live.of_leads hlead
  rcases (hp c d hc a c hpc).2 ⟨hlive, by rintro ⟨⟩⟩ hbeside with ⟨hE, hq⟩ | ⟨b, d', hq, hab, hbeside'⟩
  · exact .inl ⟨hE, bind_of_eq_none hq⟩
  · rw [bind_of_eq_some hq]
    exact (hf a b hab c d' hc x c' h).2 hallows hbeside'

end FollowsFrom

namespace FollowsBy

/-- The first reader succeeds only at the given token. -/
theorem of_from {ma : α → Stop} (hnone : ∀ c, c.current.token ≠ t → p c = none)
    (h : FollowsFrom e E t ma v p q) : FollowsBy e E ma v p q := by
  intro c d a c' hp
  by_cases hc : c.current.token = t
  · exact h c d hc a c' hp
  · cases (hnone c hc).symm.trans hp

/-- A question about a word and the two tokens after it. -/
theorem read_words {G : Token → Lexeme → Lexeme → α} {ma : α → Stop}
    (hp : ∀ c, p c = some (G c.current.token c.advanced.current c.advanced.advanced.current, c))
    {x : α} (hother : ∀ t k l, (∀ name escaped, t ≠ .word name escaped) → G t k l = x)
    (hword : ∀ name escaped k l k' l', Peeked e k k' → (k.token.IsPlain → Peeked e l l') →
      G (.word name escaped) k l = G (.word name escaped) k' l') :
    FollowsBy e E ma id p p := by
  intro c d
  refine .read hp hp fun hlive _ hbeside => ?_
  have hpunct {t : Token} {q : Punct} (ht : t = .punct q) : ∀ name escaped, t ≠ .word name escaped := by
    rintro name escaped rfl
    cases ht
  rcases hbeside.cases hlive with ⟨hlast, hmark⟩ | hagree
  · exact (hother _ _ _ (hpunct hlast.1)).trans (hother _ _ _ (hpunct hmark)).symm
  · have htoken : d.current.token = c.current.token := hagree.token_eq
    show G _ _ _ = G _ _ _
    rw [htoken]
    by_cases hc : ∃ name escaped, c.current.token = .word name escaped
    · obtain ⟨name, escaped, hc⟩ := hc
      obtain ⟨hlive', hafter⟩ := hbeside.spot.after hlive (hc ▸ Token.isPlain_word name escaped)
      rw [hc]
      refine hword _ _ _ _ _ _ (.inl (hafter.seen hlive')) fun hplain => ?_
      obtain ⟨hlive'', hafter'⟩ := hafter.after hlive' hplain
      exact .inl (hafter'.seen hlive'')
    · have hc' : ∀ name escaped, c.current.token ≠ .word name escaped :=
        fun name escaped h => hc ⟨name, escaped, h⟩
      rw [hother _ _ _ hc', hother _ _ _ hc']

theorem bind_lookahead_any {f g : Lexeme → Reader β} (h : ∀ l l', FollowsBy e E mb w (f l) (g l')) :
    FollowsBy e E mb w (lookahead >>= f) (lookahead >>= g) :=
  fun c d => h (next c.current.stop c.rest).1 (next d.current.stop d.rest).1 c d

/-- The token after a word is seen alike. -/
theorem bind_wordAhead (word : String) {f g : Bool → Lexeme → Reader β}
    (h : ∀ b l l', (b = true → Peeked e l l') → FollowsBy e E mb w (f b l) (g b l')) :
    FollowsBy e E mb w (atWord word >>= fun b => lookahead >>= f b)
      (atWord word >>= fun b => lookahead >>= g b) := by
  have hfalse : FollowsBy e E mb w (lookahead >>= f false) (lookahead >>= g false) :=
    bind_lookahead_any fun l l' => h false l l' (by rintro ⟨⟩)
  refine bind_token_from (f := fun t => lookahead >>= f (isKeyword word t))
    (g := fun t => lookahead >>= g (isKeyword word t)) (fun t => ?_) (.inr hfalse)
  cases t with
  | word name escaped =>
    exact .bind_lookahead (Token.isPlain_word name escaped) fun l l' hl => (h _ l l' fun _ => hl).from'
  | _ => exact hfalse.from'

/-- A choice by a word and the token after it is made alike in both texts. -/
theorem if_wordAhead (word : String) {P : Lexeme → Bool}
    (hP : ∀ l l', Peeked e l l' → P l = P l') {x x' y y' : Reader β}
    (htrue : FollowsBy e E mb w x x') (hfalse : FollowsBy e E mb w y y') :
    FollowsBy e E mb w (atWord word >>= fun b => lookahead >>= fun l => if b && P l then x else y)
      (atWord word >>= fun b => lookahead >>= fun l => if b && P l then x' else y') := by
  refine bind_wordAhead word fun b l l' hl => ?_
  cases b with
  | false => exact hfalse
  | true =>
    rw [hP l l' (hl rfl)]
    split
    · exact htrue
    · exact hfalse

end FollowsBy

end UiTemplate.Script
