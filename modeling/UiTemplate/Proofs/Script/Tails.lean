import Mathlib.Logic.Relation
import UiTemplate.Proofs.Script.Spans
import UiTemplate.Script.Rules

/-!
# What stands behind a text

A text is read up to a closing parenthesis at its end. Where something else stands in place of the
parenthesis, the text is read as the same tokens.

- `Ending`: what can stand there.
- `Spot.Leads`: how the reading can move from one token to another; `Spot.Live`: it can still get to
  the parenthesis.
- `Matches`: a token of the text, and the same token of the text with another ending. Both have the
  same token there unless it is the first one of the endings (`Matches.cases`).
-/

namespace UiTemplate.Script

open Text

variable {cs ds rest w : List Char}

/-! ## Spots -/

/-- A token of a text and the text after it. -/
abbrev Spot :=
  Lexeme × List Char

namespace Spot

/-- The next token. -/
def after (s : Spot) : Spot :=
  next s.1.stop s.2

/-- The reading moves to the next token, or scans the text anew. -/
inductive Step : Spot → Spot → Prop
  | after (s : Spot) : Step s s.after
  | regex {s : Spot} {lead rest : List Char} {width : Nat}
    (htoken : s.1.token = .punct .slash ∧ lead = [] ∨
      s.1.token = .punct .slashAssign ∧ lead = ['='])
    (hscan : scanRegex (lead ++ s.2) = some (width, rest)) :
    Step s (next (s.1.start + 1 + width) rest)
  | quasi {s : Spot} {q : Quasi} (htoken : s.1.token = .punct .rightBrace)
    (hscan : scanQuasi (s.2.length + 1) s.2 = some q) :
    Step s (next (s.1.stop + q.width) q.rest)

/-- The reading moves from one token to another. -/
abbrev Leads : Spot → Spot → Prop :=
  Relation.ReflTransGen Step

/-- A closing parenthesis ends the text. -/
def IsLast (s : Spot) : Prop :=
  s.1.token = .punct .rightParen ∧ s.2 = []

/-- The reading can get to the closing parenthesis at the end. -/
def Live (s : Spot) : Prop :=
  ∃ m, Leads s m ∧ m.IsLast

theorem Live.of_leads {s t : Spot} (h : Leads s t) (ht : t.Live) : s.Live := by
  obtain ⟨m, hm, hlast⟩ := ht
  exact ⟨m, h.trans hm, hlast⟩

theorem IsLast.live {s : Spot} (h : s.IsLast) : s.Live :=
  ⟨s, .refl, h⟩

/-- Nothing is behind the end of the text. -/
theorem Leads.token_eq_eof {s t : Spot} (h : Leads s t) (hs : s.1.token = .eof ∧ s.2 = []) :
    t.1.token = .eof ∧ t.2 = [] := by
  induction h with
  | refl => exact hs
  | tail _ hstep ih =>
    cases hstep with
    | after =>
      rw [Spot.after, ih.2]
      exact ⟨rfl, rfl⟩
    | regex htoken =>
      rw [ih.1] at htoken
      rcases htoken with ⟨htoken, -⟩ | ⟨htoken, -⟩ <;> cases htoken
    | quasi htoken =>
      rw [ih.1] at htoken
      cases htoken

/-- There is no parenthesis where nothing is left of the text. -/
theorem not_live_next_nil (pos : Nat) : ¬ Live (next pos []) := by
  rintro ⟨m, hm, hlast⟩
  have := (hm.token_eq_eof ⟨rfl, rfl⟩).1
  rw [hlast.1] at this
  cases this

/-- The reading does not scan anew at the end of the text. -/
theorem Step.eq_after {s t : Spot} (h : Step s t) (hs : s.2 = []) : t = s.after := by
  cases h with
  | after => rfl
  | regex htoken hscan =>
    rw [hs, List.append_nil] at hscan
    rcases htoken with ⟨-, rfl⟩ | ⟨-, rfl⟩ <;> cases hscan
  | quasi htoken hscan =>
    rw [hs] at hscan
    cases hscan

/-- Where no text is left, the closing parenthesis is the token. -/
theorem Live.isLast {s : Spot} (h : s.Live) (hs : s.2 = []) : s.IsLast := by
  obtain ⟨m, hm, hlast⟩ := h
  rcases Relation.ReflTransGen.cases_head hm with rfl | ⟨t, hstep, ht⟩
  · exact hlast
  · obtain rfl := hstep.eq_after hs
    have hnext : Live s.after := ⟨m, ht, hlast⟩
    refine absurd hnext ?_
    rw [after, hs]
    exact not_live_next_nil _

/-- The reading does not get back to the closing parenthesis. -/
theorem IsLast.eq_of_leads {s t : Spot} (hs : s.IsLast) (h : Leads s t) (ht : t.Live) : s = t := by
  rcases Relation.ReflTransGen.cases_head h with rfl | ⟨u, hstep, hu⟩
  · rfl
  · obtain rfl := hstep.eq_after hs.2
    refine absurd (ht.of_leads hu) ?_
    rw [after, hs.2]
    exact not_live_next_nil _

/-- The next token, unless the text may be scanned anew at this one. -/
theorem Live.after {s : Spot} (h : s.Live) (hlast : ¬ s.IsLast)
    (htoken : ∀ p ∈ [Punct.slash, .slashAssign, .rightBrace], s.1.token ≠ .punct p) :
    s.after.Live := by
  obtain ⟨m, hm, hend⟩ := h
  rcases Relation.ReflTransGen.cases_head hm with rfl | ⟨t, hstep, ht⟩
  · exact absurd hend hlast
  · cases hstep with
    | after => exact ⟨m, ht, hend⟩
    | regex hslash =>
      rcases hslash with ⟨hslash, -⟩ | ⟨hslash, -⟩
      · exact absurd hslash (htoken _ (by decide))
      · exact absurd hslash (htoken _ (by decide))
    | quasi hbrace => exact absurd hbrace (htoken _ (by decide))

/-- On its way to the closing parenthesis, the reading does not come to the token `await`. -/
def NoAwait (s : Spot) : Prop :=
  ∀ m, Leads s m → m.Live → m.1.token ≠ .word "await" false

theorem NoAwait.of_leads {s t : Spot} (h : s.NoAwait) (ht : Leads s t) : t.NoAwait :=
  fun m hm => h m (ht.trans hm)

end Spot

/-- However the text is cut into tokens, `await` is none of them. It may stand in a string, in a
comment or in a longer word. -/
def NoAwait (text : List Char) : Prop :=
  Spot.NoAwait (next 0 (text ++ [')']))

/-! ## Endings -/

/-- A text that can stand behind another one in place of a closing parenthesis. It ends the tokens
before it, and begins with the punctuator `mark`. -/
structure Ending where
  text : List Char
  mark : Punct
  mark_mem : mark ∈ [Punct.rightParen, .rightBrace, .question, .coalesce]
  opens : text.head?.any separates = true
  begins : ∃ b t width rest, (∀ line pos,
      skip .tokens line pos text = some (line, pos + byteLength b, t)) ∧
    scanToken t = some (.punct mark, width, rest)

/-- The text goes on alike with both endings, up to what separates tokens. -/
theorem Ending.alike (e : Ending) (w : List Char) : Alike (w ++ [')']) (w ++ e.text) := by
  refine Alike.append_left w ?_
  have hopens := e.opens
  generalize e.text = text at hopens
  cases text with
  | nil => cases hopens
  | cons c cs => exact .apart rfl hopens _ _

/-! ## Tokens anywhere -/

/-- What is skipped does not depend on the place of the text. -/
theorem skip_shift (b : Between) (line : Bool) (pos pos' : Nat) (cs : List Char) :
    (skip b line pos cs).map (fun x => (x.1, x.2.2)) =
      (skip b line pos' cs).map fun x => (x.1, x.2.2) := by
  induction b, line, pos, cs using skip.induct generalizing pos' with
  | case1 line pos cs ih => exact ih (pos' + 2)
  | case2 line pos cs ih => exact ih (pos' + 2)
  | case3 line pos c cs hline hblock hspace ih =>
    rw [skip_tokens hline hblock, skip_tokens hline hblock, if_pos hspace, if_pos hspace]
    exact ih _
  | case4 line pos c cs hline hblock hspace hend ih =>
    rw [skip_tokens hline hblock, skip_tokens hline hblock, if_neg hspace, if_neg hspace,
      if_pos hend, if_pos hend]
    exact ih _
  | case5 line pos c cs hline hblock hspace hend =>
    rw [skip_tokens hline hblock, skip_tokens hline hblock, if_neg hspace, if_neg hspace,
      if_neg hend, if_neg hend]
    rfl
  | case6 line pos c cs hend ih =>
    rw [skip, skip, if_pos hend, if_pos hend]
    exact ih _
  | case7 line pos c cs hend ih =>
    rw [skip, skip, if_neg hend, if_neg hend]
    exact ih _
  | case8 line pos cs ih => exact ih (pos' + 2)
  | case9 line pos c cs hclose ih =>
    rw [skip, skip]
    · exact ih _
    · exact hclose
    · exact hclose
  | case10 => rfl
  | case11 b line pos hb =>
    rw [skip, skip]
    · rfl
    · exact hb
    · exact hb

/-- What is read first does not depend on the place of the text. -/
theorem next_shift (pos pos' : Nat) (cs : List Char) :
    (next pos cs).1.token = (next pos' cs).1.token ∧ (next pos cs).2 = (next pos' cs).2 := by
  have hshift := skip_shift .tokens false pos pos' cs
  rw [next, next]
  cases hskip : skip .tokens false pos cs with
  | none =>
    rw [hskip] at hshift
    rw [Option.map_eq_none_iff.mp hshift.symm]
    exact ⟨rfl, rfl⟩
  | some x =>
    rw [hskip] at hshift
    obtain ⟨y, hy, hxy⟩ := Option.map_eq_some_iff.mp hshift.symm
    obtain ⟨-, hrest⟩ := Prod.mk.inj hxy
    rw [hy]
    dsimp only
    rw [hrest]
    cases scanToken x.2.2 <;> exact ⟨rfl, rfl⟩

theorem token_next (pos pos' : Nat) (cs : List Char) :
    (next pos cs).1.token = (next pos' cs).1.token :=
  (next_shift pos pos' cs).1

theorem rest_next (pos pos' : Nat) (cs : List Char) : (next pos cs).2 = (next pos' cs).2 :=
  (next_shift pos pos' cs).2

/-- A blank before a text. -/
theorem next_space (pos : Nat) (cs : List Char) : ∃ pos', next pos (' ' :: cs) = next pos' cs := by
  cases hskip : skip .tokens false (pos + 1) cs with
  | some x => exact ⟨pos + 1, by rw [next, next, skip_space, hskip]⟩
  | none =>
    have hshift := skip_shift .tokens false (pos + 1) pos cs
    rw [hskip] at hshift
    exact ⟨pos, by rw [next, next, skip_space, hskip, Option.map_eq_none_iff.mp hshift.symm]⟩

/-! ## Tokens before an ending -/

theorem skip_length_le {b : Between} {line line' : Bool} {pos start : Nat}
    (h : skip b line pos cs = some (line', start, rest)) : rest.length ≤ cs.length := by
  obtain ⟨s, rfl, -⟩ := skip_eq_some h
  rw [List.length_append]
  omega

/-- A token that begins a text also begins one that goes on alike. -/
theorem skip_stays {c : Char} {line : Bool} {pos : Nat}
    (h : skip .tokens line pos (c :: cs) = some (line, pos, c :: cs)) (hds : Alike cs ds)
    (pos' : Nat) : skip .tokens line pos' (c :: ds) = some (line, pos', c :: ds) := by
  have hshort {b : Between} {l : Bool} {p : Nat} {t : List Char} (ht : t.length ≤ cs.length)
      (h : skip b l p t = some (line, pos, c :: cs)) : False := by
    have := skip_length_le h
    rw [List.length_cons] at this
    omega
  have hline : ∀ t, c = '/' → cs = '/' :: t → False := by
    rintro t rfl rfl
    rw [skip] at h
    exact hshort (by simp) h
  have hblock : ∀ t, c = '/' → cs = '*' :: t → False := by
    rintro t rfl rfl
    rw [skip] at h
    exact hshort (by simp) h
  rw [skip_tokens hline hblock] at h
  split at h
  · exact (hshort (Nat.le_refl _) h).elim
  split at h
  · exact (hshort (Nat.le_refl _) h).elim
  rename_i hspace hend
  have hother {d : Char} (hd : separates d = false) (h : ∀ t, c = '/' → cs = d :: t → False) :
      ∀ t, c = '/' → ds = d :: t → False := by
    rintro t hc rfl
    obtain ⟨t', ht', -⟩ := hds.symm.cons_inv hd
    exact h t' hc ht'
  rw [skip_tokens (hother rfl hline) (hother rfl hblock), if_neg hspace, if_neg hend]

/-- The token of a text, unless that is invalid. -/
theorem next_eq (pos : Nat) (cs : List Char) :
    ((next pos cs).1.token = .invalid ∧ (next pos cs).2 = []) ∨
      ∃ b s token rest line, cs = b ++ (s ++ rest) ∧ (s = [] → rest = []) ∧
        (next pos cs).1.token = token ∧ (next pos cs).1.newline = line ∧ (next pos cs).2 = rest ∧
        Skips .tokens false b (s ++ rest) line ∧
        scanToken (s ++ rest) = some (token, byteLength s, rest) ∧
        ∀ r, Alike rest r → s ≠ [] → ∀ pos',
          (next pos' (b ++ (s ++ r))).1.token = token ∧
            (next pos' (b ++ (s ++ r))).1.newline = line ∧ (next pos' (b ++ (s ++ r))).2 = r := by
  cases hskip : skip .tokens false pos cs with
  | none =>
    left
    rw [next, hskip]
    exact ⟨rfl, rfl⟩
  | some x =>
    obtain ⟨line, start, t⟩ := x
    obtain ⟨b, rfl, rfl, hb⟩ := skip_eq_some hskip
    cases htoken : scanToken t with
    | none =>
      left
      rw [next, hskip]
      dsimp only
      rw [htoken]
      exact ⟨rfl, rfl⟩
    | some x =>
      obtain ⟨token, width, rest⟩ := x
      have hnext : next pos (b ++ t) =
          (⟨token, pos + byteLength b, pos + byteLength b + width, line⟩, rest) := by
        rw [next, hskip]
        dsimp only
        rw [htoken]
      obtain ⟨s, rfl, rfl, hnil, hread⟩ := scanToken_eq_some htoken
      refine .inr ⟨b, s, token, rest, line, rfl, fun h => (hnil h).2, by rw [hnext], by rw [hnext],
        by rw [hnext], hb, htoken, fun r hr hs pos' => ?_⟩
      obtain ⟨c, s, rfl⟩ := List.exists_cons_of_ne_nil hs
      have hstop : skip .tokens line (pos + byteLength b) (c :: (s ++ rest)) =
          some (line, pos + byteLength b, c :: (s ++ rest)) := by
        rw [← List.cons_append, ← hb _ (.refl _) pos, hskip]
      have hstays := skip_stays hstop (hr.append_left s) (pos' + byteLength b)
      rw [next, hb _ (hr.append_left _) pos', List.cons_append, hstays]
      dsimp only
      rw [← List.cons_append, hread r hr]
      exact ⟨rfl, rfl, rfl⟩

/-! ## The token `await` -/

theorem eq_append_of_append_singleton {x y z : List Char} {c : Char} (h : x ++ [c] = y ++ z)
    (hz : z ≠ []) : ∃ z', z = z' ++ [c] ∧ x = y ++ z' := by
  obtain ⟨z', d, rfl⟩ := (List.eq_nil_or_concat z).resolve_left hz
  rw [List.concat_eq_append, ← List.append_assoc] at h
  obtain ⟨rfl, hcd⟩ := List.append_inj' h rfl
  cases hcd
  exact ⟨z', List.concat_eq_append, rfl⟩

/-- From the same token with the same text behind it, the reading comes to the same tokens. -/
theorem leads_shift {s t m : Spot} (h : s.Leads m) (htoken : t.1.token = s.1.token)
    (hrest : t.2 = s.2) : ∃ m', t.Leads m' ∧ m'.1.token = m.1.token ∧ m'.2 = m.2 := by
  induction h with
  | refl => exact ⟨t, .refl, htoken, hrest⟩
  | tail _ hstep ih =>
    obtain ⟨u, hu, hutoken, hurest⟩ := ih
    cases hstep with
    | after =>
      refine ⟨u.after, hu.tail (.after u), ?_, ?_⟩
      · rw [Spot.after, Spot.after, hurest]
        exact token_next _ _ _
      · rw [Spot.after, Spot.after, hurest]
        exact rest_next _ _ _
    | regex hslash hscan =>
      rw [← hutoken] at hslash
      rw [← hurest] at hscan
      exact ⟨_, hu.tail (.regex hslash hscan), token_next _ _ _, rest_next _ _ _⟩
    | quasi hbrace hscan =>
      rw [← hutoken] at hbrace
      rw [← hurest] at hscan
      exact ⟨_, hu.tail (.quasi hbrace hscan), token_next _ _ _, rest_next _ _ _⟩

/-- The token does not come, wherever the text begins. -/
theorem Spot.NoAwait.shift {pos : Nat} (h : Spot.NoAwait (next pos cs)) (pos' : Nat) :
    Spot.NoAwait (next pos' cs) := by
  intro m hm ⟨z, hz, hlast⟩
  obtain ⟨m', hm', htoken, hrest⟩ := leads_shift hm (token_next pos pos' cs) (rest_next pos pos' cs)
  obtain ⟨z', hz', hztoken, hzrest⟩ := leads_shift hz htoken hrest
  rw [← htoken]
  exact h m' hm' ⟨z', hz', hztoken.trans hlast.1, hzrest.trans hlast.2⟩

/-- The text with the parenthesis begins the first spot, and the text with the other ending begins
the second one. -/
def Matches (e : Ending) (s t : Spot) : Prop :=
  s.NoAwait ∧ ∃ w pos pos', s = next pos (w ++ [')']) ∧ t = next pos' (w ++ e.text)

/-- The same token stands at both spots, and behind it the texts go on alike. -/
structure Agree (e : Ending) (s t : Spot) : Prop where
  not_last : ¬ s.IsLast
  token_eq : t.1.token = s.1.token
  newline_eq : t.1.newline = s.1.newline
  not_await : s.1.token ≠ .word "await" false
  noAwait : s.NoAwait
  rest_eq : ∃ w, s.2 = w ++ [')'] ∧ t.2 = w ++ e.text

variable {e : Ending} {s t : Spot}

/-- At the closing parenthesis the other text goes on with its ending. -/
theorem Matches.ends (h : Matches e s t) (hlast : s.IsLast) :
    t.1.token = .punct e.mark ∧ t.2 = (next 0 e.text).2 := by
  obtain ⟨-, w, pos, pos', rfl, rfl⟩ := h
  rcases next_eq pos (w ++ [')']) with ⟨hinvalid, -⟩ |
    ⟨b, x, token, rest, line, hcs, -, htoken, -, hrest, hb, hscan, -⟩
  · rw [hlast.1] at hinvalid
    cases hinvalid
  obtain rfl : rest = [] := hrest.symm.trans hlast.2
  obtain rfl : token = .punct .rightParen := htoken.symm.trans hlast.1
  -- The parenthesis is all of the token, and the text before it is blank.
  have hx : x = [')'] := by
    have hpunct := scanToken_punct hscan
    rw [List.append_nil] at hpunct
    unfold scanPunct at hpunct
    split at hpunct
    · split at hpunct <;> cases hpunct
    · obtain ⟨p, hp, hpunct⟩ := Option.map_eq_some_iff.mp hpunct
      obtain ⟨hpunct, -, hdrop⟩ : p.2 = .rightParen ∧ p.1.length = byteLength x ∧
          x.drop p.1.length = [] := by
        simpa using hpunct
      have hspelling : ∀ p ∈ Punct.spellings, p.2 = .rightParen → p.1 = [')'] := by decide
      have hone := hspelling p (List.mem_of_find?_eq_some hp) hpunct
      have hprefix : p.1 <+: x := by simpa using List.find?_some hp
      rw [hone] at hprefix hdrop
      obtain ⟨z, rfl⟩ := hprefix
      have hz : z = [] := by simpa using hdrop
      rw [hz, List.append_nil]
  subst hx
  rw [List.append_nil] at hcs hb
  obtain ⟨rfl, -⟩ := List.append_inj' hcs rfl
  obtain ⟨b', t, width, r, hskip, hmark⟩ := e.begins
  have hfirst : (next 0 e.text).2 = r := by
    rw [next, hskip]
    dsimp only
    rw [hmark]
  rw [hfirst, next, hb _ (by simpa using e.alike []) pos', hskip]
  dsimp only
  rw [hmark]
  exact ⟨rfl, rfl⟩

/-- At the same place of both texts stand the parenthesis and the other ending, or the same token
with the same text behind it. -/
theorem Matches.cases (h : Matches e s t) (hlive : s.Live) :
    s.IsLast ∧ t.1.token = .punct e.mark ∨ Agree e s t := by
  by_cases hlast : s.IsLast
  · exact .inl ⟨hlast, (h.ends hlast).1⟩
  obtain ⟨hawait, w, pos, pos', rfl, rfl⟩ := h
  rcases next_eq pos (w ++ [')']) with ⟨-, hrest⟩ |
    ⟨b, x, token, rest, line, hcs, hnil, htoken, hnewline, hrest, hb, hscan, hread⟩
  · exact absurd (hlive.isLast hrest) hlast
  right
  have hne : rest ≠ [] := fun hnil => hlast (hlive.isLast (hrest.trans hnil))
  have hx : x ≠ [] := fun hx => hne (hnil hx)
  rw [← List.append_assoc] at hcs
  obtain ⟨w', rfl, rfl⟩ := eq_append_of_append_singleton hcs hne
  obtain ⟨htoken', hnewline', hrest'⟩ := hread _ (e.alike w') hx pos'
  rw [← List.append_assoc b, ← List.append_assoc (b ++ x)] at htoken' hnewline' hrest'
  exact ⟨hlast, htoken'.trans htoken.symm, hnewline'.trans hnewline.symm, hawait _ .refl hlive,
    hawait, w', hrest, hrest'⟩

/-! ## Moving on -/

/-- Behind the same token is the same place again. -/
theorem Agree.after (h : Agree e s t) : Matches e s.after t.after := by
  obtain ⟨w, hs, ht⟩ := h.rest_eq
  exact ⟨h.noAwait.of_leads (.single (.after s)), w, _, _, by rw [Spot.after, hs],
    by rw [Spot.after, ht]⟩

/-- A part of the text is taken off the same way if the parenthesis is not in it. -/
theorem Agree.split (h : Agree e s t) {x : List Char} (hs : s.2 = x ++ rest) {pos : Nat}
    (hleads : s.Leads (next pos rest)) (hlive : Spot.Live (next pos rest)) :
    ∃ r, t.2 = x ++ r ∧ Alike rest r ∧ ∀ pos', Matches e (next pos rest) (next pos' r) := by
  have hrest : rest ≠ [] := by
    rintro rfl
    exact Spot.not_live_next_nil _ hlive
  obtain ⟨w, hs', ht⟩ := h.rest_eq
  obtain ⟨w', rfl, rfl⟩ := eq_append_of_append_singleton (hs'.symm.trans hs) hrest
  refine ⟨w' ++ e.text, by rw [ht, List.append_assoc], e.alike w', fun pos' => ?_⟩
  exact ⟨h.noAwait.of_leads hleads, w', pos, pos', rfl, rfl⟩

/-- A regular expression behind its slash, of which `lead` was taken for a part of the token. -/
theorem Agree.regex (h : Agree e s t) {lead : List Char} (hlead : lead.length ≤ 1) {width : Nat}
    (hscan : scanRegex (lead ++ s.2) = some (width, rest)) {pos : Nat}
    (hleads : s.Leads (next pos rest)) (hlive : Spot.Live (next pos rest)) :
    ∃ r, scanRegex (lead ++ t.2) = some (width, r) ∧
      ∀ pos', Matches e (next pos rest) (next pos' r) := by
  obtain ⟨x, hx, -, hne, hread⟩ := scanRegex_eq_some hscan
  obtain ⟨x, rfl⟩ : ∃ x', x = lead ++ x' := by
    rcases List.append_eq_append_iff.mp hx with ⟨z, rfl, -⟩ | ⟨z, rfl, -⟩
    · exact ⟨z, rfl⟩
    · have hpos := List.length_pos_of_ne_nil hne
      rw [List.length_append] at hlead
      obtain rfl := List.eq_nil_of_length_eq_zero (show z.length = 0 by omega)
      exact ⟨[], by rw [List.append_nil, List.append_nil]⟩
  rw [List.append_assoc] at hx
  obtain ⟨r, hr, halike, hmatches⟩ := h.split (List.append_cancel_left hx) hleads hlive
  refine ⟨r, ?_, hmatches⟩
  rw [hr, ← List.append_assoc]
  exact hread r halike.meets

/-- A chunk of a template literal after the closing brace of a placeholder. -/
theorem Agree.quasi (h : Agree e s t) {q : Quasi}
    (hscan : scanQuasi (s.2.length + 1) s.2 = some q) {pos : Nat}
    (hleads : s.Leads (next pos q.rest)) (hlive : Spot.Live (next pos q.rest)) :
    ∃ q', scanQuasi (t.2.length + 1) t.2 = some q' ∧ q'.token = q.token ∧
      ∀ pos', Matches e (next pos q.rest) (next pos' q'.rest) := by
  obtain ⟨x, hx, hspans⟩ := scanQuasi_eq_some hscan
  obtain ⟨r, hr, -, hmatches⟩ := h.split hx hleads hlive
  refine ⟨q.before r, ?_, rfl, hmatches⟩
  rw [hr]
  exact hspans.scan r _ (by rw [List.length_append]; omega)

/-! ## What can be seen of the next token -/

/-- The next token is the same in both texts, or it begins the endings. -/
def Seen (e : Ending) (l m : Lexeme) : Prop :=
  m.token = l.token ∧ m.newline = l.newline ∧ l.token ≠ .word "await" false ∨
    l.token = .punct .rightParen ∧ m.token = .punct e.mark

/-- The text is not scanned anew at the token, and neither does it end a text. -/
def Token.IsPlain (t : Token) : Prop :=
  ∀ p ∈ [Punct.slash, .slashAssign, .rightBrace, .rightParen], t ≠ .punct p

theorem Token.isPlain_word (name : String) (escaped : Bool) : (Token.word name escaped).IsPlain := by
  rintro p - ⟨⟩

/-- What can be seen of the token is the same. -/
theorem Matches.seen (h : Matches e s t) (hlive : s.Live) : Seen e s.1 t.1 := by
  rcases h.cases hlive with ⟨hlast, hmark⟩ | hagree
  · exact .inr ⟨hlast.1, hmark⟩
  · exact .inl ⟨hagree.token_eq, hagree.newline_eq, hagree.not_await⟩

/-- The token after a plain one. -/
theorem Matches.after (h : Matches e s t) (hlive : s.Live) (hplain : s.1.token.IsPlain) :
    s.after.Live ∧ Matches e s.after t.after := by
  rcases h.cases hlive with ⟨hlast, -⟩ | hagree
  · exact absurd hlast.1 (hplain _ (by decide))
  · refine ⟨hlive.after hagree.not_last fun p hp => hplain p ?_, hagree.after⟩
    simp only [List.mem_cons, List.not_mem_nil, or_false] at hp ⊢
    tauto

end UiTemplate.Script
