import UiTemplate.Proofs.Script.Spelling
import UiTemplate.Text.Bytes

/-!
# Where escapes end

What a scanner takes off a text does not depend on what is far behind it. Two relations say how far
two texts agree:

- `Alike`: up to a blank or a closing parenthesis in both.
- `Near`: up to a quote, a backtick or a dollar sign, with which no escape goes on.

An escape at the beginning of a text (`BeginsEscaped`) is taken off near texts alike
(`escape?_eq_some`, `Near.escape?_isNone`).
-/

namespace UiTemplate.Script

open Text

/-! ## Texts that are alike -/

/-- A blank or a closing parenthesis: a character with which no token goes on. -/
def separates (c : Char) : Bool :=
  c == ' ' || c == ')'

/-- The texts begin with the same character, or both with one that separates. -/
def Meets (cs ds : List Char) : Prop :=
  cs.head? = ds.head? ∨ cs.head?.any separates = true ∧ ds.head?.any separates = true

/-- Two texts that are equal, or equal up to characters that separate. -/
inductive Alike : List Char → List Char → Prop
  | refl (cs : List Char) : Alike cs cs
  | cons (c : Char) {cs ds : List Char} (h : Alike cs ds) : Alike (c :: cs) (c :: ds)
  | apart {c d : Char} (hc : separates c = true) (hd : separates d = true) (cs ds : List Char) :
    Alike (c :: cs) (d :: ds)

variable {cs ds rest s r : List Char}

/-- Whatever stands before two texts that meet leaves them meeting. -/
theorem Meets.append_left (h : Meets cs ds) : Meets (s ++ cs) (s ++ ds) := by
  cases s with
  | nil => exact h
  | cons => exact .inl rfl

/-- A test of the first character that fails for those that separate. -/
theorem Meets.any_head? (h : Meets cs ds) {p : Char → Bool}
    (hp : ∀ c, separates c = true → p c = false) : cs.head?.any p = ds.head?.any p := by
  have hfalse {cs : List Char} (hcs : cs.head?.any separates = true) : cs.head?.any p = false := by
    cases cs with
    | nil => rfl
    | cons c cs => exact hp c hcs
  rcases h with h | ⟨hcs, hds⟩
  · rw [h]
  · rw [hfalse hcs, hfalse hds]

/-- Only the empty text meets the empty one. -/
theorem Meets.nil_left (h : Meets [] ds) : ds = [] := by
  cases ds with
  | nil => rfl
  | cons => rcases h with h | ⟨h, -⟩ <;> cases h

/-- A first character that does not separate. -/
theorem Meets.cons_left {c : Char} (h : Meets (c :: cs) ds) (hc : separates c = false) :
    ∃ t, ds = c :: t := by
  rcases h with h | ⟨h, -⟩
  · cases ds with
    | nil => cases h
    | cons d ds =>
      cases h
      exact ⟨ds, rfl⟩
  · exact absurd h (by simp [hc])

theorem Meets.symm (h : Meets cs ds) : Meets ds cs :=
  h.imp Eq.symm And.symm

theorem Alike.meets (h : Alike cs ds) : Meets cs ds := by
  cases h with
  | refl => exact .inl rfl
  | cons => exact .inl rfl
  | apart hc hd => exact .inr ⟨hc, hd⟩

theorem Alike.symm (h : Alike cs ds) : Alike ds cs := by
  induction h with
  | refl cs => exact .refl cs
  | cons c _ ih => exact .cons c ih
  | apart hc hd cs ds => exact .apart hd hc ds cs

/-- Texts that are alike stay so behind the same text. -/
theorem Alike.append_left (s : List Char) (h : Alike cs ds) : Alike (s ++ cs) (s ++ ds) := by
  induction s with
  | nil => exact h
  | cons c s ih => exact .cons c ih

/-- Only the empty text is like the empty one. -/
theorem Alike.eq_nil (h : Alike [] ds) : ds = [] :=
  h.meets.nil_left

/-- A character that does not separate stands in both texts. -/
theorem Alike.cons_inv {c : Char} (h : Alike (c :: cs) ds) (hc : separates c = false) :
    ∃ t, ds = c :: t ∧ Alike cs t := by
  cases h with
  | refl => exact ⟨cs, rfl, .refl cs⟩
  | cons _ h => exact ⟨_, rfl, h⟩
  | apart hc' => simp [hc] at hc'

/-- A test that fails for both characters that separate. -/
theorem eq_false_of_separates {p : Char → Bool} (hspace : p ' ' = false) (hparen : p ')' = false)
    (c : Char) (h : separates c = true) : p c = false := by
  simp only [separates, Bool.or_eq_true, beq_iff_eq] at h
  rcases h with rfl | rfl
  · exact hspace
  · exact hparen

/-! ## Runs -/

/-- The longest run of characters that pass a test, and what is behind it. -/
theorem takeWhile_run (p : Char → Bool) (cs : List Char) :
    cs = cs.takeWhile p ++ cs.drop (cs.takeWhile p).length ∧
      (∀ c ∈ cs.takeWhile p, p c = true) ∧
      (cs.drop (cs.takeWhile p).length).head?.any p = false := by
  induction cs with
  | nil => exact ⟨rfl, fun c hc => absurd hc List.not_mem_nil, rfl⟩
  | cons c cs ih =>
    obtain ⟨hcs, hall, hend⟩ := ih
    cases hc : p c with
    | true =>
      rw [List.takeWhile_cons_of_pos hc]
      exact ⟨congrArg (c :: ·) hcs, List.forall_mem_cons.mpr ⟨hc, hall⟩, hend⟩
    | false =>
      rw [List.takeWhile_cons_of_neg (by simp [hc])]
      exact ⟨rfl, fun c hc => absurd hc List.not_mem_nil, hc⟩

/-- A run is taken as it stands, if what is behind it does not go on with it. -/
theorem takeWhile_eq_run {p : Char → Bool} (hs : ∀ c ∈ s, p c = true)
    (hr : r.head?.any p = false) : (s ++ r).takeWhile p = s := by
  induction s with
  | nil =>
    cases r with
    | nil => rfl
    | cons c r => exact List.takeWhile_cons_of_neg (by simpa using hr)
  | cons c s ih =>
    obtain ⟨hc, hs⟩ := List.forall_mem_cons.mp hs
    rw [List.cons_append, List.takeWhile_cons_of_pos hc, ih hs]

theorem ne_cons_of_head? {c : Char} (h : ∀ t, cs = c :: t → False) (hds : cs.head? = ds.head?) :
    ∀ t, ds = c :: t → False := by
  rintro t rfl
  cases cs with
  | nil => cases hds
  | cons d cs =>
    cases hds
    exact h cs rfl

/-! ## Escapes -/

/-- The characters that close a string or a chunk of a template literal. No escape goes on with one
of them. -/
def barriers : List Char :=
  ['"', '\'', '\x60', '$']

/-- Two texts that are equal, or equal up to some barrier. -/
inductive Near : List Char → List Char → Prop
  | refl (cs : List Char) : Near cs cs
  | cons (c : Char) {cs ds : List Char} (h : Near cs ds) : Near (c :: cs) (c :: ds)
  | barrier {c : Char} (hc : c ∈ barriers) (cs ds : List Char) : Near (c :: cs) (c :: ds)

/-- Texts are near each other as soon as the same barrier stands in both. -/
theorem Near.of_mem {c : Char} (hc : c ∈ barriers) (hs : c ∈ s) (r rest : List Char) :
    Near (s ++ r) (s ++ rest) := by
  induction s with
  | nil => exact absurd hs List.not_mem_nil
  | cons d s ih =>
    rcases List.mem_cons.mp hs with rfl | hs
    · exact .barrier hc _ _
    · exact .cons d (ih hs)

theorem Near.symm (h : Near cs ds) : Near ds cs := by
  induction h with
  | refl cs => exact .refl cs
  | cons c _ ih => exact .cons c ih
  | barrier hc cs ds => exact .barrier hc ds cs

theorem Near.append_left (s : List Char) (h : Near cs ds) : Near (s ++ cs) (s ++ ds) := by
  induction s with
  | nil => exact h
  | cons c s ih => exact .cons c ih

/-- Texts that are near each other begin with the same character. -/
theorem Near.head?_eq (h : Near cs ds) : cs.head? = ds.head? := by
  cases h <;> rfl

/-- No barrier is among the characters. -/
def Open (s : List Char) : Prop :=
  ∀ c ∈ s, c ∉ barriers

theorem isOpen_of_all (h : s.all (fun c => !barriers.contains c) = true) : Open s := by
  intro c hc hb
  have hother := List.all_eq_true.mp h c hc
  rw [List.contains_iff_mem.mpr hb] at hother
  cases hother

/-- What no barrier is in stands in both texts. -/
theorem Near.split (h : Near (s ++ rest) ds) (hs : Open s) : ∃ r, ds = s ++ r ∧ Near rest r := by
  induction s generalizing ds with
  | nil => exact ⟨ds, rfl, h⟩
  | cons c s ih =>
    obtain ⟨hc, hs⟩ := List.forall_mem_cons.mp hs
    cases h with
    | refl => exact ⟨rest, rfl, .refl rest⟩
    | cons _ h =>
      obtain ⟨r, rfl, hr⟩ := ih h hs
      exact ⟨r, rfl, hr⟩
    | barrier hb => exact absurd hb hc

/-- A character of ASCII takes one byte. -/
theorem utf8Size_of_lt {c : Char} (h : c.toNat < 128) : c.utf8Size = 1 := by
  have : c.val ≤ 0x7F := by
    rw [UInt32.le_iff_toNat_le]
    exact Nat.le_of_lt_succ h
  simp [Char.utf8Size, this]

theorem toNat_lt_of_isDigit {c : Char} (h : c.isDigit = true) : c.toNat < 128 := by
  simp only [Char.isDigit, Bool.and_eq_true, decide_eq_true_eq] at h
  exact Nat.lt_of_le_of_lt (UInt32.le_iff_toNat_le.mp h.2) (by decide)

/-- The characters are hexadecimal digits. -/
def AreHex (s : List Char) : Prop :=
  ∀ c ∈ s, (hexDigit? c).isSome = true

theorem toNat_lt_of_hexDigit? {c : Char} (h : (hexDigit? c).isSome = true) : c.toNat < 128 := by
  have hle {a b : Char} (hab : a ≤ b) : a.toNat ≤ b.toNat := hab
  unfold hexDigit? at h
  simp only [Bool.and_eq_true, decide_eq_true_eq] at h
  split at h
  · exact Nat.lt_of_le_of_lt (hle (‹_ ∧ _›).2) (by decide)
  split at h
  · exact Nat.lt_of_le_of_lt (hle (‹_ ∧ _›).2) (by decide)
  split at h
  · exact Nat.lt_of_le_of_lt (hle (‹_ ∧ _›).2) (by decide)
  · cases h

/-- Hexadecimal digits take one byte each. -/
theorem AreHex.byteLength (h : AreHex s) : byteLength s = s.length := by
  induction s with
  | nil => rfl
  | cons c s ih =>
    obtain ⟨hc, hs⟩ := List.forall_mem_cons.mp h
    rw [Text.byteLength, utf8Size_of_lt (toNat_lt_of_hexDigit? hc), ih hs, List.length_cons,
      Nat.add_comm]

/-- There is no barrier among them. -/
theorem AreHex.isOpen (h : AreHex s) : Open s := by
  intro c hc hb
  have hnone : (barriers.all fun c => (hexDigit? c).isNone) = true := by decide
  have hdigit := List.all_eq_true.mp hnone c hb
  rw [Option.isNone_iff_eq_none] at hdigit
  exact absurd (h c hc) (by rw [hdigit]; decide)

/-- A code of four digits takes these. -/
theorem fourDigits?_eq_some {n : Nat} (h : fourDigits? cs = some (n, rest)) :
    ∃ s, cs = s ++ rest ∧ s.length = 4 ∧ AreHex s ∧ ∀ r, fourDigits? (s ++ r) = some (n, r) := by
  unfold fourDigits? at h
  split at h
  · rename_i a b c d tail
    simp only [Option.bind_eq_bind, Option.bind_eq_some_iff] at h
    obtain ⟨i, hi, j, hj, k, hk, l, hl, h⟩ := h
    cases h
    refine ⟨[a, b, c, d], rfl, rfl, ?_, fun r => ?_⟩
    · simp [AreHex, hi, hj, hk, hl]
    · simp [fourDigits?, hi, hj, hk, hl]
  · cases h

/-- A pair of surrogates is ten bytes, read alike whatever is behind them. -/
theorem pairEscape?_eq_some {n : Nat} (h : pairEscape? cs = some (n, rest)) :
    ∃ s, cs = s ++ rest ∧ byteLength s = 10 ∧ Open s ∧
      ∀ r, pairEscape? (s ++ r) = some (n, r) := by
  obtain ⟨⟨high, tail⟩, hhigh, hrest⟩ := Option.bind_eq_some_iff.mp h
  obtain ⟨s, rfl, hs, hhex, hread⟩ := fourDigits?_eq_some hhigh
  clear h hhigh
  dsimp only at hrest
  split at hrest
  · obtain ⟨⟨low, tail⟩, hlow, hjoin⟩ := Option.bind_eq_some_iff.mp hrest
    obtain ⟨s', rfl, hs', hhex', hread'⟩ := fourDigits?_eq_some hlow
    clear hrest
    split at hjoin
    · rename_i hpair
      simp only [Option.some.injEq, Prod.mk.injEq] at hjoin
      obtain ⟨rfl, rfl⟩ := hjoin
      refine ⟨s ++ '\\' :: 'u' :: s', by simp, ?_, ?_, fun r => ?_⟩
      · simp only [byteLength_append, byteLength, hhex.byteLength, hhex'.byteLength, hs, hs']
        rfl
      · intro c hc
        have hmark : '\\' ∉ barriers ∧ 'u' ∉ barriers := by decide
        simp only [List.mem_append, List.mem_cons] at hc
        rcases hc with hc | rfl | rfl | hc
        · exact hhex.isOpen c hc
        · exact hmark.1
        · exact hmark.2
        · exact hhex'.isOpen c hc
      · rw [List.append_assoc, pairEscape?, hread, List.cons_append, List.cons_append]
        simp only [Option.bind_eq_bind, Option.bind_some, hread', hpair, if_true]
    · cases hjoin
  · cases hrest

/-- The escape of a code is read alike whatever is behind it. -/
theorem codeEscape?_eq_some {n width : Nat} (h : codeEscape? cs = some (n, width, rest)) :
    ∃ s, cs = s ++ rest ∧ width = byteLength s ∧ Open s ∧
      ∀ r, codeEscape? (s ++ r) = some (n, width, r) := by
  unfold codeEscape? at h
  split at h
  · rename_i cs
    obtain ⟨hcs, hhex, -⟩ := takeWhile_run (fun c => (hexDigit? c).isSome) cs
    dsimp only at h
    generalize cs.takeWhile (fun c => (hexDigit? c).isSome) = digits at h hcs hhex
    split at h
    · rename_i tail htail
      split at h
      · cases h
      · rename_i hcode
        cases h
        rw [htail] at hcs
        subst hcs
        refine ⟨'\x7b' :: (digits ++ ['\x7d']), by simp, ?_, ?_, fun r => ?_⟩
        · have hbrace : '\x7b'.utf8Size = 1 ∧ '\x7d'.utf8Size = 1 := by decide
          have hdigits : byteLength digits = digits.length := AreHex.byteLength hhex
          simp only [byteLength, byteLength_append, hdigits, hbrace]
          omega
        · intro c hc
          have hmark : '\x7b' ∉ barriers ∧ '\x7d' ∉ barriers := by decide
          simp only [List.mem_append, List.mem_cons, List.not_mem_nil, or_false] at hc
          rcases hc with rfl | hc | rfl
          · exact hmark.1
          · exact AreHex.isOpen hhex c hc
          · exact hmark.2
        -- The digits end at the brace, whatever comes after it.
        · have hrun : (digits ++ '\x7d' :: r).takeWhile (fun c => (hexDigit? c).isSome) = digits :=
            takeWhile_eq_run hhex rfl
          rw [List.cons_append, List.append_assoc, List.singleton_append, codeEscape?]
          simp only [hrun, List.drop_left, hcode]
          rfl
    · cases h
  · rename_i hbrace
    obtain ⟨⟨code, tail⟩, hcode, h⟩ := Option.map_eq_some_iff.mp h
    cases h
    obtain ⟨s, rfl, hs, hhex, hread⟩ := fourDigits?_eq_some hcode
    refine ⟨s, rfl, by rw [hhex.byteLength, hs], hhex.isOpen, fun r => ?_⟩
    obtain ⟨c, s, rfl⟩ :=
      List.exists_cons_of_ne_nil (List.ne_nil_of_length_pos (by omega : 0 < s.length))
    rw [List.cons_append, codeEscape?, ← List.cons_append, hread]
    · rfl
    · rintro t ht
      cases ht
      exact absurd (hhex _ List.mem_cons_self) (by decide)

/-- No pair of surrogates appears where a text is exchanged for one near it. -/
theorem Near.pairEscape?_isNone (h : Near cs ds) (hcs : pairEscape? cs = none) :
    pairEscape? ds = none := by
  rw [Option.eq_none_iff_forall_ne_some]
  rintro ⟨n, rest⟩ hds
  obtain ⟨s, rfl, -, hs, hread⟩ := pairEscape?_eq_some hds
  obtain ⟨r, rfl, -⟩ := h.symm.split hs
  rw [hread] at hcs
  cases hcs

/-- The letters of the escapes that have a meaning of their own. -/
def escapeLetters : List Char :=
  ['n', 't', 'r', 'b', 'f', 'v', 'x', 'u']

/-- An escape with none of these letters. -/
theorem escape?_other {c : Char} (hc : c ∉ escapeLetters)
    (hline : ¬ (c = '\r' ∧ cs.head? = some '\n')) (octal : Bool) :
    escape? octal (c :: cs) =
      if c.isDigit then
        if octal then
          let digits := octalRun (if c ≤ '3' then 3 else 2) (c :: cs)
          if digits.isEmpty then some ([.bare c], 1, cs)
          else
            some ([.ofCode (Decimal.ofDigits 8 digits)], digits.length,
              (c :: cs).drop digits.length)
        else if c == '0' && !(cs.head?.any Char.isDigit) then some ([.ofCode 0], 1, cs)
        else none
      else if isLineEnd c then some ([], c.utf8Size, cs)
      else some ([.bare c], c.utf8Size, cs) := by
  simp only [escapeLetters, List.mem_cons, List.not_mem_nil, or_false, not_or] at hc
  rw [escape?]
  · rintro t rfl rfl
    exact hline ⟨rfl, rfl⟩
  all_goals
    intros
    simp_all

/-- The octal digits of an escape are decided by the character behind them. -/
theorem octalRun_eq (n : Nat) (cs : List Char) :
    ∃ s rest, cs = s ++ rest ∧ s.length = (octalRun n cs).length ∧ AreHex s ∧
      ∀ r, rest.head? = r.head? → octalRun n (s ++ r) = octalRun n cs := by
  induction n generalizing cs with
  | zero => exact ⟨[], cs, rfl, rfl, fun _ hc => absurd hc List.not_mem_nil, fun _ _ => rfl⟩
  | succ n ih =>
    cases cs with
    | nil =>
      refine ⟨[], [], rfl, rfl, fun _ hc => absurd hc List.not_mem_nil, fun r hr => ?_⟩
      cases r with
      | nil => rfl
      | cons d r => cases hr
    | cons c cs =>
      by_cases hc : ('0' ≤ c && c ≤ '7') = true
      · obtain ⟨s, rest, rfl, hlength, hhex, hread⟩ := ih cs
        have hdigit : (hexDigit? c).isSome = true := by
          have hle : c ≤ '9' := by
            simp only [Bool.and_eq_true, decide_eq_true_eq] at hc
            exact Nat.le_trans (show c.toNat ≤ '7'.toNat from hc.2) (by decide)
          simp only [Bool.and_eq_true, decide_eq_true_eq] at hc
          simp [hexDigit?, hc.1, hle]
        refine ⟨c :: s, rest, rfl, ?_, List.forall_mem_cons.mpr ⟨hdigit, hhex⟩, fun r hr => ?_⟩
        · simp [octalRun, hc, hlength]
        · rw [List.cons_append, octalRun, octalRun, hread r hr]
      · refine ⟨[], c :: cs, rfl, ?_, fun _ hc => absurd hc List.not_mem_nil, fun r hr => ?_⟩
        · simp [octalRun, hc]
        · cases r with
          | nil => cases hr
          | cons d r =>
            cases hr
            simp [octalRun, hc]

/-- The text begins with an escape, which stands for the units and takes the given width, and goes
on with `rest`. It takes nothing of that, and no more than the beginning of it matters. -/
def BeginsEscaped (octal : Bool) (cs : List Char) (units : List TextUnit) (width : Nat)
    (rest : List Char) : Prop :=
  ∃ s, cs = s ++ rest ∧ width = byteLength s ∧ (Open s ∨ ∃ b ∈ barriers, s = [b]) ∧
    ∀ r, Near rest r → escape? octal (s ++ r) = some (units, width, r)

section Branches

variable {octal : Bool} {units : List TextUnit} {width : Nat} {c : Char}

/-- Two digits. -/
theorem beginsEscaped_byte (h : escape? octal ('x' :: cs) = some (units, width, rest)) :
    BeginsEscaped octal ('x' :: cs) units width rest := by
  rcases cs with _ | ⟨a, _ | ⟨b, cs⟩⟩
  · cases h
  · cases h
  · simp only [escape?, Option.bind_eq_bind, Option.bind_eq_some_iff] at h
    obtain ⟨i, hi, j, hj, h⟩ := h
    cases h
    have hhex : AreHex [a, b] := by simp [AreHex, hi, hj]
    refine ⟨'x' :: [a, b], rfl, ?_, .inl ?_, fun r _ => ?_⟩
    · rw [byteLength, hhex.byteLength]
      rfl
    · exact List.forall_mem_cons.mpr ⟨by decide, hhex.isOpen⟩
    · simp [escape?, hi, hj]

/-- A code, which may be half of a pair. -/
theorem beginsEscaped_code (h : escape? octal ('u' :: cs) = some (units, width, rest)) :
    BeginsEscaped octal ('u' :: cs) units width rest := by
  rw [escape?] at h
  cases hpair : pairEscape? cs with
  | some p =>
    obtain ⟨n, tail⟩ := p
    rw [hpair] at h
    cases h
    obtain ⟨s, rfl, hs, hopen, hread⟩ := pairEscape?_eq_some hpair
    refine ⟨'u' :: s, rfl, ?_, .inl ?_, fun r _ => ?_⟩
    · rw [byteLength, hs]
      rfl
    · exact List.forall_mem_cons.mpr ⟨by decide, hopen⟩
    · rw [List.cons_append, escape?, hread]
  | none =>
    rw [hpair] at h
    obtain ⟨⟨n, w, tail⟩, hcode, h⟩ := Option.map_eq_some_iff.mp h
    cases h
    obtain ⟨s, rfl, rfl, hopen, hread⟩ := codeEscape?_eq_some hcode
    refine ⟨'u' :: s, rfl, ?_, .inl ?_, fun r hr => ?_⟩
    · rw [byteLength, Nat.add_comm]
      rfl
    · exact List.forall_mem_cons.mpr ⟨by decide, hopen⟩
    · rw [List.cons_append, escape?, (hr.append_left s).pairEscape?_isNone hpair, hread]
      rfl

/-- A character is a barrier or none. -/
theorem open_or_barrier (c : Char) : Open [c] ∨ ∃ b ∈ barriers, [c] = [b] := by
  by_cases hb : c ∈ barriers
  · exact .inr ⟨c, hb, rfl⟩
  · exact .inl (by simpa [Open] using hb)

/-- A digit in a string: an octal code, or the digit itself. -/
theorem beginsEscaped_octal (hc : c ∉ escapeLetters) (hdigit : c.isDigit = true)
    (h : escape? true (c :: cs) = some (units, width, rest)) :
    BeginsEscaped true (c :: cs) units width rest := by
  have hline {cs : List Char} : ¬ (c = '\r' ∧ cs.head? = some '\n') := by
    rintro ⟨rfl, -⟩
    exact absurd hdigit (by decide)
  obtain ⟨n, hn⟩ : ∃ n, (if c ≤ '3' then 3 else 2) = n := ⟨_, rfl⟩
  obtain ⟨s, tail, hcs, hlength, hhex, hread⟩ := octalRun_eq n (c :: cs)
  rw [escape?_other hc hline, if_pos hdigit, if_pos rfl, hn] at h
  dsimp only at h
  split at h
  · rename_i hempty
    cases h
    obtain rfl : s = [] := by
      rw [List.isEmpty_iff] at hempty
      exact List.eq_nil_of_length_eq_zero (by rw [hlength, hempty]; rfl)
    subst hcs
    refine ⟨[c], rfl, by rw [byteLength, utf8Size_of_lt (toNat_lt_of_isDigit hdigit)]; rfl,
      open_or_barrier c, fun r hr => ?_⟩
    have hrun := hread (c :: r) rfl
    rw [List.nil_append] at hrun
    rw [List.singleton_append, escape?_other hc hline]
    simp only [hdigit, hn, hrun, hempty, if_true]
  · rename_i hsome
    cases h
    rw [← hlength, hcs, List.drop_left, ← hcs]
    refine ⟨s, hcs, hhex.byteLength.symm, .inl hhex.isOpen, fun r hr => ?_⟩
    have hrun := hread r hr.head?_eq
    cases s with
    | nil => exact absurd (List.isEmpty_iff_length_eq_zero.mpr hlength.symm) hsome
    | cons d s =>
      cases hcs
      rw [List.cons_append, escape?_other hc hline]
      simp only [hdigit, hn, if_true]
      rw [← List.cons_append, hrun, if_neg hsome, ← hlength, List.drop_left]

/-- A character that stands for itself or for nothing, or a zero. -/
theorem beginsEscaped_single (hc : c ∉ escapeLetters)
    (hline : ¬ (c = '\r' ∧ cs.head? = some '\n')) (hoctal : c.isDigit = true → octal = false)
    (h : escape? octal (c :: cs) = some (units, width, rest)) :
    BeginsEscaped octal (c :: cs) units width rest := by
  have hsame {r : List Char} (hr : Near cs r) : ¬ (c = '\r' ∧ r.head? = some '\n') :=
    hr.head?_eq ▸ hline
  rw [escape?_other hc hline] at h
  split at h
  · rename_i hdigit
    obtain rfl := hoctal hdigit
    rw [if_neg Bool.false_ne_true] at h
    split at h
    · rename_i hzero
      cases h
      refine ⟨[c], rfl, by rw [byteLength, utf8Size_of_lt (toNat_lt_of_isDigit hdigit)]; rfl,
        open_or_barrier c, fun r hr => ?_⟩
      rw [List.singleton_append, escape?_other hc (hsame hr), ← hr.head?_eq]
      simp only [hdigit, hzero, if_true]
      rfl
    · cases h
  · rename_i hdigit
    split at h
    · rename_i hend
      cases h
      refine ⟨[c], rfl, rfl, open_or_barrier c, fun r hr => ?_⟩
      rw [List.singleton_append, escape?_other hc (hsame hr), if_neg hdigit, if_pos hend]
    · rename_i hend
      cases h
      refine ⟨[c], rfl, rfl, open_or_barrier c, fun r hr => ?_⟩
      rw [List.singleton_append, escape?_other hc (hsame hr), if_neg hdigit, if_neg hend]

end Branches

/-- An escape takes nothing of what is behind it, and no more than the beginning of that matters. -/
theorem escape?_eq_some {octal : Bool} {units : List TextUnit} {width : Nat}
    (h : escape? octal cs = some (units, width, rest)) :
    BeginsEscaped octal cs units width rest := by
  cases cs with
  | nil => cases h
  | cons c cs =>
    by_cases hc : c ∈ escapeLetters
    · simp only [escapeLetters, List.mem_cons, List.not_mem_nil, or_false] at hc
      rcases hc with rfl | rfl | rfl | rfl | rfl | rfl | rfl | rfl
      iterate 6
        · cases h
          exact ⟨[_], rfl, rfl, .inl (isOpen_of_all (by decide)), fun _ _ => rfl⟩
      · exact beginsEscaped_byte h
      · exact beginsEscaped_code h
    · by_cases hline : c = '\r' ∧ cs.head? = some '\n'
      · obtain ⟨rfl, hfeed⟩ := hline
        cases cs with
        | nil => cases hfeed
        | cons d cs =>
          cases hfeed
          cases h
          exact ⟨['\r', '\n'], rfl, rfl, .inl (isOpen_of_all (by decide)), fun _ _ => rfl⟩
      · by_cases hoctal : c.isDigit = true ∧ octal = true
        · obtain ⟨hdigit, rfl⟩ := hoctal
          exact beginsEscaped_octal hc hdigit h
        · refine beginsEscaped_single hc hline (fun hdigit => ?_) h
          exact Bool.eq_false_iff.mpr fun htrue => hoctal ⟨hdigit, htrue⟩

/-- No escape appears either. -/
theorem Near.escape?_isNone {octal : Bool} (h : Near cs ds) (hcs : escape? octal cs = none) :
    escape? octal ds = none := by
  rw [Option.eq_none_iff_forall_ne_some]
  rintro ⟨units, width, rest⟩ hds
  obtain ⟨s, rfl, -, hs, hread⟩ := escape?_eq_some hds
  obtain hopen | ⟨b, hb, rfl⟩ := hs
  · obtain ⟨r, rfl, hr⟩ := h.symm.split hopen
    rw [hread r hr] at hcs
    cases hcs
  · cases cs with
    | nil => cases h.head?_eq
    | cons c cs =>
      obtain rfl : c = b := Option.some.inj h.head?_eq
      have hbare : ∀ b ∈ barriers, ∀ r, escape? octal (b :: r) = some ([.bare b], 1, r) := by
        simp only [barriers, List.forall_mem_cons]
        exact ⟨fun _ => rfl, fun _ => rfl, fun _ => rfl, fun _ => rfl, fun _ h => by cases h⟩
      rw [hbare c hb] at hcs
      cases hcs

end UiTemplate.Script
