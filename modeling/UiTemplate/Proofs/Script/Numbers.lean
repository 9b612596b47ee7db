import UiTemplate.Proofs.Script.Escapes

/-!
# Where numbers end

A number is cut off a text behind its last character, and of what follows only the first character
matters (`scanNumber_cuts`).
-/

namespace UiTemplate.Script

open Text

variable {cs ds rest s r : List Char}

/-! ## Cuts -/

/-- Texts are cut behind a first part, and only the character behind it matters. The width that the
scanner gives is that of the first part and `n` more. -/
def Cuts {α : Type} (n : Nat) (f : List Char → Option (α × Nat × List Char)) : Prop :=
  ∀ cs a width rest, f cs = some (a, width, rest) →
    ∃ s, cs = s ++ rest ∧ width = n + byteLength s ∧
      ∀ r, Meets rest r → f (s ++ r) = some (a, width, r)

namespace Cuts

variable {α β : Type} {n : Nat}

theorem nothing (a : α) : Cuts n fun cs => some (a, n, cs) := by
  rintro cs _ _ _ ⟨⟩
  exact ⟨[], rfl, rfl, fun r _ => rfl⟩

theorem fails : Cuts n fun _ => (none : Option (α × Nat × List Char)) := by
  intro cs a width rest h
  cases h

theorem bind {f : List Char → Option (α × Nat × List Char)}
    {g : α → Nat → List Char → Option (β × Nat × List Char)} (hf : Cuts 0 f)
    (hg : ∀ a width, Cuts (n + width) (g a width)) :
    Cuts n fun cs => (f cs).bind fun x => g x.1 x.2.1 x.2.2 := by
  intro cs b width rest h
  obtain ⟨⟨a, w, tail⟩, hfirst, hsecond⟩ := Option.bind_eq_some_iff.mp h
  obtain ⟨s, rfl, rfl, hread⟩ := hf _ _ _ _ hfirst
  obtain ⟨s', rfl, rfl, hread'⟩ := hg _ _ _ _ _ _ hsecond
  refine ⟨s ++ s', (List.append_assoc ..).symm, ?_, fun r hr => ?_⟩
  · rw [byteLength_append, Nat.zero_add, Nat.add_assoc]
  · dsimp only
    rw [List.append_assoc, hread _ (hr.append_left)]
    exact hread' r hr

/-- A scanner that fails by the character at which the text begins. -/
theorem failing {f : List Char → Option (α × Nat × List Char)} (hf : Cuts n f) {p : Char → Bool}
    (hp : ∀ c, separates c = true → p c = false) :
    Cuts n fun cs => if cs.head?.any p then none else f cs := by
  intro cs a width rest h
  dsimp only at h
  split at h
  · cases h
  · rename_i hfirst
    obtain ⟨s, rfl, hwidth, hread⟩ := hf _ _ _ _ h
    refine ⟨s, rfl, hwidth, fun r hr => ?_⟩
    dsimp only
    rw [← hr.append_left.any_head? hp, if_neg hfirst]
    exact hread r hr

/-- A scanner for the text behind some character, which takes nothing off a text without it. -/
theorem optional {f : List Char → Option (α × Nat × List Char)}
    {g : Char → List Char → Option (α × Nat × List Char)} (p : Char → Bool)
    (hp : ∀ c, separates c = true → p c = false)
    (hf : ∀ c cs, p c = true → f (c :: cs) = g c cs)
    (hg : ∀ c, p c = true → Cuts (n + c.utf8Size) (g c)) {a : α}
    (hother : ∀ cs, cs.head?.any p = false → f cs = some (a, n, cs)) : Cuts n f := by
  intro cs b width rest h
  cases hc : cs.head?.any p with
  | true =>
    cases cs with
    | nil => cases hc
    | cons d cs =>
      rw [hf d cs hc] at h
      obtain ⟨s, rfl, rfl, hread⟩ := hg d hc _ _ _ _ h
      refine ⟨d :: s, rfl, by rw [byteLength, Nat.add_assoc], fun r hr => ?_⟩
      rw [List.cons_append, hf d _ hc, hread r hr]
  | false =>
    rw [hother cs hc] at h
    cases h
    exact ⟨[], rfl, rfl, fun r hr => hother r (hr.any_head? hp ▸ hc)⟩

end Cuts

/-! ## Digits -/

/-- The characters take one byte each. -/
theorem byteLength_of_ascii {p : Char → Bool} (hp : ∀ c, p c = true → c.toNat < 128)
    (hs : ∀ c ∈ s, p c = true) : byteLength s = s.length := by
  induction s with
  | nil => rfl
  | cons c s ih =>
    obtain ⟨hc, hs⟩ := List.forall_mem_cons.mp hs
    rw [byteLength, utf8Size_of_lt (hp c hc), ih hs, List.length_cons, Nat.add_comm]

/-- A run of characters that take one byte each. -/
theorem takeWhile_cuts {p : Char → Bool} (hp : ∀ c, p c = true → c.toNat < 128)
    (hother : ∀ c, separates c = true → p c = false) :
    Cuts 0 fun cs => some (cs.takeWhile p, (cs.takeWhile p).length,
      cs.drop (cs.takeWhile p).length) := by
  intro cs a width rest h
  obtain ⟨hcs, hall, hend⟩ := takeWhile_run p cs
  cases h
  refine ⟨cs.takeWhile p, hcs, by rw [byteLength_of_ascii hp hall, Nat.zero_add], fun r hr => ?_⟩
  dsimp only
  rw [takeWhile_eq_run hall (hr.any_head? hother ▸ hend), List.drop_left]

theorem digitRun_cuts {isDigit : Char → Bool} (hp : ∀ c, isDigit c = true → c.toNat < 128)
    (hother : ∀ c, separates c = true → isDigit c = false) : Cuts 0 (digitRun isDigit) := by
  have hrun : ∀ c, (isDigit c || c == '_') = true → c.toNat < 128 := by
    intro c hc
    rw [Bool.or_eq_true, beq_iff_eq] at hc
    rcases hc with hc | rfl
    · exact hp c hc
    · decide
  have hother' : ∀ c, separates c = true → (isDigit c || c == '_') = false :=
    eq_false_of_separates (by rw [hother _ rfl]; rfl) (by rw [hother _ rfl]; rfl)
  have h := (takeWhile_cuts hrun hother').bind (n := 0) (g := fun run width rest =>
    (separated run).map fun digits => (digits, width, rest)) fun run width => by
      rw [Nat.zero_add]
      cases separated run with
      | none => exact .fails
      | some digits => exact .nothing digits
  exact h

theorem withSuffix_cuts (token : Token) (width : Nat) :
    Cuts width fun cs => some (withSuffix token width cs) := by
  refine .optional (· == 'n') (eq_false_of_separates rfl rfl) (g := fun _ cs => some (.bigint, width + 1, cs)) (a := token) ?_ ?_ ?_
  · intro c cs hc
    rw [beq_iff_eq] at hc
    subst hc
    rfl
  · intro c hc
    rw [beq_iff_eq] at hc
    subst hc
    exact .nothing _
  · intro cs hcs
    unfold withSuffix
    split
    · cases hcs
    · rfl

theorem basedNumber_cuts (base : Nat) : Cuts 2 (basedNumber base) := by
  have hdigit (c : Char) (hc : (hexDigit? c).any (· < base) = true) : c.toNat < 128 :=
    toNat_lt_of_hexDigit? (by cases h : hexDigit? c <;> simp_all)
  have hother : ∀ c, separates c = true → (hexDigit? c).any (· < base) = false :=
    eq_false_of_separates rfl rfl
  refine (digitRun_cuts hdigit hother).bind (g := fun digits width rest =>
    if digits.isEmpty then none
    else
      let value := basedValue base width (digits.filterMap hexDigit?)
      some (withSuffix (.number value) (width + 2) rest)) fun digits width => ?_
  cases digits.isEmpty with
  | true => exact .fails
  | false =>
    rw [Nat.add_comm]
    exact withSuffix_cuts _ _

/-! ## Decimals -/

/-- The sign of an exponent at the start of a text, and whether it is negative. -/
def exponentSign : List Char → Option (Bool × Nat × List Char)
  | '-' :: rest => some (true, 1, rest)
  | '+' :: rest => some (false, 1, rest)
  | rest => some (false, 0, rest)

theorem exponentSign_cuts : Cuts 0 exponentSign := by
  refine .optional (fun c => c == '-' || c == '+') (eq_false_of_separates rfl rfl)
    (g := fun c cs => some (c == '-', 1, cs))
    (a := false) ?_ ?_ ?_
  · intro c cs hc
    rw [Bool.or_eq_true, beq_iff_eq, beq_iff_eq] at hc
    rcases hc with rfl | rfl <;> rfl
  · intro c hc
    rw [Bool.or_eq_true, beq_iff_eq, beq_iff_eq] at hc
    rcases hc with rfl | rfl <;> exact .nothing _
  · intro cs hcs
    unfold exponentSign
    split
    · cases hcs
    · cases hcs
    · rfl

/-- An exponent behind its mark. -/
def exponentDigits (cs : List Char) : Option (Int × Nat × List Char) :=
  (exponentSign cs).bind fun x =>
    (digitRun Char.isDigit x.2.2).bind fun y =>
      if y.1.isEmpty then none
      else
        let n : Int := Decimal.ofDigits 10 (y.1.filterMap Decimal.digit?)
        some (if x.1 then -n else n, 1 + x.2.1 + y.2.1, y.2.2)

theorem exponentDigits_cuts : Cuts 1 exponentDigits := by
  refine exponentSign_cuts.bind (g := fun negative signWidth cs =>
    (digitRun Char.isDigit cs).bind fun y =>
      if y.1.isEmpty then none
      else
        let n : Int := Decimal.ofDigits 10 (y.1.filterMap Decimal.digit?)
        some (if negative then -n else n, 1 + signWidth + y.2.1, y.2.2)) fun negative signWidth => ?_
  refine (digitRun_cuts (fun _ => toNat_lt_of_isDigit) (eq_false_of_separates rfl rfl)).bind (g := fun digits width cs =>
    if digits.isEmpty then none
    else
      let n : Int := Decimal.ofDigits 10 (digits.filterMap Decimal.digit?)
      some (if negative then -n else n, 1 + signWidth + width, cs)) fun digits width => ?_
  cases digits.isEmpty with
  | true => exact .fails
  | false => exact .nothing _

theorem exponentPart_cuts : Cuts 0 exponentPart := by
  refine .optional (fun c => c == 'e' || c == 'E') (eq_false_of_separates rfl rfl)
    (g := fun _ => exponentDigits) (a := 0) ?_ ?_ ?_
  · intro c cs hc
    rw [exponentPart.eq_def]
    dsimp only
    rw [if_pos hc]
    unfold exponentDigits
    split
    · rfl
    · rfl
    · rename_i hminus hplus
      rw [exponentSign]
      · rfl
      · exact hminus
      · exact hplus
  · intro c hc
    rw [Bool.or_eq_true, beq_iff_eq, beq_iff_eq] at hc
    rcases hc with rfl | rfl <;> exact exponentDigits_cuts
  · intro cs hcs
    cases cs with
    | nil => rfl
    | cons c cs => exact if_neg (by simpa using hcs)

/-- The fraction of a decimal at the start of a text; it is empty and has no width if there is no
point. -/
def fractionPart : List Char → Option (List Char × Nat × List Char)
  | '.' :: rest => (digitRun Char.isDigit rest).bind fun x => some (x.1, x.2.1 + 1, x.2.2)
  | rest => some ([], 0, rest)

theorem fractionPart_cuts : Cuts 0 fractionPart := by
  refine .optional (· == '.') (eq_false_of_separates rfl rfl) (g := fun _ cs => (digitRun Char.isDigit cs).bind fun x =>
    some (x.1, x.2.1 + 1, x.2.2)) (a := []) ?_ ?_ ?_
  · intro c cs hc
    rw [beq_iff_eq] at hc
    subst hc
    rfl
  · intro c hc
    rw [beq_iff_eq] at hc
    subst hc
    refine (digitRun_cuts (fun _ => toNat_lt_of_isDigit) (eq_false_of_separates rfl rfl)).bind (g := fun digits width cs =>
      some (digits, width + 1, cs)) fun digits width => ?_
    rw [show 0 + '.'.utf8Size + width = width + 1 from Nat.add_comm ..]
    exact .nothing _
  · intro cs hcs
    unfold fractionPart
    split
    · cases hcs
    · rfl

theorem decimalTail_eq (whole : List Char) (width : Nat) (cs : List Char) :
    decimalTail whole width cs = (fractionPart cs).bind fun x =>
      (exponentPart x.2.2).bind fun y =>
        let token : Token := .number (decimalValue whole x.1 y.1)
        some (if x.2.1 == 0 && y.2.1 == 0 then withSuffix token width y.2.2
          else (token, width + x.2.1 + y.2.1, y.2.2)) := by
  unfold decimalTail
  split
  · rename_i r
    rw [fractionPart]
    cases digitRun Char.isDigit r <;> rfl
  · rename_i hpoint
    rw [fractionPart]
    · rfl
    · exact hpoint

theorem decimalTail_cuts (whole : List Char) (width : Nat) :
    Cuts width (decimalTail whole width) := by
  have h := fractionPart_cuts.bind (n := width) (g := fun part partWidth cs =>
      (exponentPart cs).bind fun y =>
        let token : Token := .number (decimalValue whole part y.1)
        some (if partWidth == 0 && y.2.1 == 0 then withSuffix token width y.2.2
          else (token, width + partWidth + y.2.1, y.2.2))) fun part partWidth =>
    exponentPart_cuts.bind (g := fun e expWidth cs =>
      let token : Token := .number (decimalValue whole part e)
      some (if partWidth == 0 && expWidth == 0 then withSuffix token width cs
        else (token, width + partWidth + expWidth, cs))) fun e expWidth => by
      cases hwidths : partWidth == 0 && expWidth == 0 with
      | true =>
        rw [Bool.and_eq_true, beq_iff_eq, beq_iff_eq] at hwidths
        rw [hwidths.1, hwidths.2]
        exact withSuffix_cuts _ width
      | false => exact .nothing _
  intro cs a w rest hcs
  rw [decimalTail_eq] at hcs
  obtain ⟨s, hs, hw, hread⟩ := h cs a w rest hcs
  exact ⟨s, hs, hw, fun r hr => (decimalTail_eq ..).trans (hread r hr)⟩

/-! ## All numbers -/

/-- Integers with a zero before their first digit. -/
theorem zeroLed_cuts {c : Char} (hc : c.isDigit = true) :
    Cuts 2 fun cs => zeroLed ('0' :: c :: cs) := by
  have hzero : Char.isDigit '0' = true := rfl
  have hdigits : Cuts 0 fun cs => some (cs.takeWhile Char.isDigit,
      (cs.takeWhile Char.isDigit).length, cs.drop (cs.takeWhile Char.isDigit).length) :=
    takeWhile_cuts (fun _ => toNat_lt_of_isDigit) (eq_false_of_separates rfl rfl)
  have h := hdigits.bind (n := 2)
    (g := fun run width rest =>
      if rest.head?.any fun d => d == 'n' || d == '_' then none
      else if ('0' :: c :: run).all (· ≤ '7') then
        let value := basedValue 8 (2 + width - 1) ((c :: run).filterMap Decimal.digit?)
        some (.number value, 2 + width, rest)
      else if rest.head?.any (· == 'E') then none
      else decimalTail ('0' :: c :: run) (2 + width) rest) fun run width => by
    refine Cuts.failing ?_ (eq_false_of_separates rfl rfl)
    cases ('0' :: c :: run).all (· ≤ '7') with
    | true => exact .nothing _
    | false => exact (decimalTail_cuts _ _).failing (eq_false_of_separates rfl rfl)
  have hmark (o : Option Char) : (o == some 'n' || o == some '_') =
      o.any fun d => d == 'n' || d == '_' := by cases o <;> rfl
  have hexponent (o : Option Char) : (o == some 'E') = o.any (· == 'E') := by cases o <;> rfl
  refine (congrArg (Cuts 2) (funext fun cs => ?_)).mp h
  rw [zeroLed, List.takeWhile_cons_of_pos hzero, List.takeWhile_cons_of_pos hc,
    List.length_cons, List.length_cons, List.drop_succ_cons, List.drop_succ_cons,
    Nat.add_assoc, Nat.add_comm _ (1 + 1)]
  dsimp only
  rw [hmark, hexponent]
  rfl

/-- A number, whatever follows it. -/
def numberBody (cs : List Char) : Option (Token × Nat × List Char) :=
  match cs with
  | '0' :: c :: r =>
    if c == 'x' || c == 'X' then basedNumber 16 r
    else if c == 'o' || c == 'O' then basedNumber 8 r
    else if c == 'b' || c == 'B' then basedNumber 2 r
    else if c == '_' then none
    else if c.isDigit then zeroLed cs
    else decimalTail ['0'] 1 (c :: r)
  | '.' :: _ => decimalTail [] 0 cs
  | _ => (digitRun Char.isDigit cs).bind fun x => decimalTail x.1 x.2.1 x.2.2

/-- A character right behind a number that makes it none. -/
def spoilsNumber (c : Char) : Bool :=
  c.isDigit || isIdentStart c || c == '\\'

theorem scanNumber_eq (cs : List Char) :
    scanNumber cs = (numberBody cs).bind fun x =>
      if x.2.2.head?.any spoilsNumber then none else some x := by
  unfold scanNumber
  split
  · rename_i c r
    rw [numberBody]
    split
    · rfl
    split
    · rfl
    split
    · rfl
    split
    · rfl
    split
    · rfl
    · rfl
  · rename_i r
    rw [numberBody]
    rfl
  · rename_i hzero hpoint
    rw [numberBody]
    · cases digitRun Char.isDigit cs <;> rfl
    · exact hzero
    · exact hpoint

/-- A scanner behind two characters of one byte each. -/
theorem Cuts.behind {α : Type} {f g : List Char → Option (α × Nat × List Char)} {c d : Char}
    (hc : c.utf8Size = 1) (hd : d.utf8Size = 1) (hf : Cuts 2 f)
    (hg : ∀ cs, g (c :: d :: cs) = f cs) {a : α} {width : Nat}
    (h : f cs = some (a, width, rest)) :
    ∃ s, c :: d :: cs = s ++ rest ∧ width = 0 + byteLength s ∧
      ∀ r, Meets rest r → g (s ++ r) = some (a, width, r) := by
  obtain ⟨s, rfl, rfl, hread⟩ := hf _ _ _ _ h
  refine ⟨c :: d :: s, rfl, ?_, fun r hr => (hg _).trans (hread r hr)⟩
  rw [byteLength, byteLength, hc, hd]
  omega

theorem numberBody_cuts : Cuts 0 numberBody := by
  intro cs a width rest h
  unfold numberBody at h
  split at h
  · rename_i c cs
    have hmark {d : Char} (hd : d.utf8Size = 1) (hc : (c == d || c == d.toUpper) = true)
        (hupper : d.toUpper.utf8Size = 1) : c.utf8Size = 1 := by
      rw [Bool.or_eq_true, beq_iff_eq, beq_iff_eq] at hc
      rcases hc with rfl | rfl <;> assumption
    split at h
    · rename_i hx
      exact (basedNumber_cuts 16).behind rfl (hmark rfl hx rfl)
        (fun cs => by rw [numberBody, if_pos hx]) h
    rename_i hx
    split at h
    · rename_i ho
      exact (basedNumber_cuts 8).behind rfl (hmark rfl ho rfl)
        (fun cs => by rw [numberBody, if_neg hx, if_pos ho]) h
    rename_i ho
    split at h
    · rename_i hb
      exact (basedNumber_cuts 2).behind rfl (hmark rfl hb rfl)
        (fun cs => by rw [numberBody, if_neg hx, if_neg ho, if_pos hb]) h
    rename_i hb
    split at h
    · cases h
    rename_i hunderscore
    split at h
    · rename_i hc
      exact (zeroLed_cuts hc).behind rfl (utf8Size_of_lt (toNat_lt_of_isDigit hc))
        (fun cs => by
          rw [numberBody, if_neg hx, if_neg ho, if_neg hb, if_neg hunderscore, if_pos hc]) h
    · -- The character behind the zero may be left for what follows.
      rename_i hc
      obtain ⟨s, hs, rfl, hread⟩ := decimalTail_cuts _ _ _ _ _ _ h
      refine ⟨'0' :: s, by rw [hs]; rfl, by rw [byteLength, Nat.zero_add]; rfl, fun r hr => ?_⟩
      have hmeets : Meets (c :: cs) (s ++ r) := hs ▸ hr.append_left
      have hread := hread r hr
      rw [List.cons_append]
      generalize s ++ r = t at hmeets hread
      cases t with
      | nil => cases hmeets.symm.nil_left
      | cons d t =>
        have hfirst (p : Char → Bool) (hspace : p ' ' = false) (hparen : p ')' = false)
            (hcp : ¬ p c = true) : ¬ p d = true := by
          have hboth : p c = p d := hmeets.any_head? (eq_false_of_separates hspace hparen)
          rwa [← hboth]
        rw [numberBody, if_neg (hfirst (fun c => c == 'x' || c == 'X') rfl rfl hx),
          if_neg (hfirst (fun c => c == 'o' || c == 'O') rfl rfl ho),
          if_neg (hfirst (fun c => c == 'b' || c == 'B') rfl rfl hb),
          if_neg (hfirst (· == '_') rfl rfl hunderscore), if_neg (hfirst Char.isDigit rfl rfl hc),
          hread]
  · rename_i cs
    obtain ⟨s, hs, rfl, hread⟩ := decimalTail_cuts _ _ _ _ _ _ h
    refine ⟨s, hs, rfl, fun r hr => ?_⟩
    have hmeets : Meets ('.' :: cs) (s ++ r) := hs ▸ hr.append_left
    have hread := hread r hr
    obtain ⟨t, ht⟩ := hmeets.cons_left rfl
    rw [ht] at hread ⊢
    rw [numberBody, hread]
  · rename_i hzero hpoint
    have hbody : Cuts 0 fun cs =>
        (digitRun Char.isDigit cs).bind fun x => decimalTail x.1 x.2.1 x.2.2 :=
      (digitRun_cuts (fun _ => toNat_lt_of_isDigit) (eq_false_of_separates rfl rfl)).bind (g := decimalTail) fun whole width => by
        rw [Nat.zero_add]
        exact decimalTail_cuts whole width
    obtain ⟨s, hs, hwidth, hread⟩ := hbody _ _ _ _ h
    refine ⟨s, hs, hwidth, fun r hr => ?_⟩
    have hmeets : Meets cs (s ++ r) := hs ▸ hr.append_left
    have hpoint' : ∀ t, s ++ r = '.' :: t → False := by
      intro t ht
      obtain ⟨t', rfl⟩ := (ht ▸ hmeets).symm.cons_left rfl
      exact hpoint t' rfl
    have halone : ∀ c t, s ++ r = '0' :: c :: t → False := by
      intro c t ht
      obtain rfl : cs = ['0'] := by
        obtain ⟨t', rfl⟩ := (ht ▸ hmeets).symm.cons_left rfl
        cases t' with
        | nil => rfl
        | cons c cs => exact (hzero c cs rfl).elim
      obtain ⟨token, htoken⟩ : ∃ token, (digitRun Char.isDigit ['0']).bind
          (fun x => decimalTail x.1 x.2.1 x.2.2) = some (token, 1, []) := ⟨_, rfl⟩
      rw [htoken] at h
      cases h
      obtain rfl := hr.nil_left
      rw [← hs] at ht
      cases ht
    rw [numberBody]
    · exact hread r hr
    · exact halone
    · exact hpoint'

/-- A number is cut off before the first character that could not follow it at once. -/
theorem scanNumber_cuts : Cuts 0 scanNumber := by
  have h := numberBody_cuts.bind (n := 0) (g := fun token width rest =>
    if rest.head?.any spoilsNumber then none else some (token, width, rest)) fun token width =>
      Cuts.failing (by rw [Nat.zero_add]; exact .nothing token)
        (eq_false_of_separates (by decide +kernel) (by decide +kernel))
  exact (congrArg (Cuts 0) (funext fun cs => scanNumber_eq cs)).mpr h

/-- No word begins right behind a number. -/
theorem scanNumber_ends {token : Token} {width : Nat}
    (h : scanNumber cs = some (token, width, rest)) :
    rest.head?.any spoilsNumber = false := by
  rw [scanNumber_eq] at h
  obtain ⟨⟨t, w, r⟩, -, h⟩ := Option.bind_eq_some_iff.mp h
  split at h
  · cases h
  · rename_i hends
    cases h
    exact Bool.eq_false_iff.mpr hends

/-- A number that begins with a point takes the point. -/
theorem scanNumber_point {token : Token} {width : Nat}
    (h : scanNumber ('.' :: cs) = some (token, width, rest)) : 0 < width := by
  rw [scanNumber_eq] at h
  obtain ⟨⟨t, w, r⟩, hbody, h⟩ := Option.bind_eq_some_iff.mp h
  split at h
  · cases h
  · cases h
    rw [numberBody, decimalTail_eq, fractionPart, Option.bind_assoc] at hbody
    obtain ⟨⟨part, partWidth, tail⟩, -, hbody⟩ := Option.bind_eq_some_iff.mp hbody
    rw [Option.bind_some] at hbody
    obtain ⟨⟨e, expWidth, tail'⟩, -, hbody⟩ := Option.bind_eq_some_iff.mp hbody
    cases hbody
    show 0 < 0 + (partWidth + 1) + expWidth
    omega

end UiTemplate.Script
