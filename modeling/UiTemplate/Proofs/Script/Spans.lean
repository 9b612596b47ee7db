import UiTemplate.Proofs.Script.Literals
import UiTemplate.Proofs.Script.Numbers
import UiTemplate.Proofs.Script.Words

/-!
# Where tokens end

A token is cut off a text together with the blanks before it. The token stays the same if the text
behind it is exchanged for one that is alike.

- `Skips`: the blanks before a token, and how they are skipped.
- `BeginsWith`: a token at the beginning of a text. Every token that is scanned is one
  (`scanToken_eq_some`), and so is every token that is read after blanks (`next_eq`).
-/

namespace UiTemplate.Script

open Text

variable {cs ds rest s r : List Char}

/-! ## Punctuators -/

theorem not_separates_of_isDigit {c : Char} (h : c.isDigit = true) : separates c = false := by
  rw [Bool.eq_false_iff]
  intro hc
  rw [eq_false_of_separates (p := Char.isDigit) rfl rfl c hc] at h
  cases h

/-- No punctuator has a character that separates, but for the closing parenthesis. -/
theorem spelling_not_separates :
    ∀ p ∈ Punct.spellings, p.1 = [')'] ∨ ∀ c ∈ p.1, separates c = false := by
  have hall : (Punct.spellings.all fun p => p.1 == [')'] || p.1.all fun c => !separates c) =
      true := by
    decide +kernel
  intro p hp
  have hpunct := List.all_eq_true.mp hall p hp
  rw [Bool.or_eq_true, beq_iff_eq] at hpunct
  refine hpunct.imp_right fun h c hc => ?_
  simpa using List.all_eq_true.mp h c hc

theorem Alike.isPrefixOf (h : Alike cs ds) {p : List Char} (hp : ∀ c ∈ p, separates c = false) :
    p.isPrefixOf cs = p.isPrefixOf ds := by
  induction p generalizing cs ds with
  | nil => rfl
  | cons c p ih =>
    obtain ⟨hc, hp⟩ := List.forall_mem_cons.mp hp
    cases h with
    | refl => rfl
    | cons d h => rw [List.isPrefixOf, List.isPrefixOf, ih h hp]
    | apart hd he =>
      have hne {d : Char} (hd : separates d = true) : (c == d) = false := by
        rw [beq_eq_false_iff_ne]
        rintro rfl
        rw [hc] at hd
        cases hd
      rw [List.isPrefixOf, List.isPrefixOf, hne hd, hne he]
      rfl

/-- The first of the punctuators at the beginning of texts that begin with the same character. -/
theorem find?_isPrefixOf_congr (h : Alike cs ds) (hhead : cs.head? = ds.head?) :
    Punct.spellings.find? (fun p => p.1.isPrefixOf cs) =
      Punct.spellings.find? fun p => p.1.isPrefixOf ds := by
  have hone {c : Char} : [c].isPrefixOf cs = [c].isPrefixOf ds := by
    cases cs with
    | nil => rw [h.eq_nil]
    | cons d cs =>
      cases ds with
      | nil => cases hhead
      | cons e ds =>
        cases hhead
        simp [List.isPrefixOf]
  have heach : ∀ p ∈ Punct.spellings, p.1.isPrefixOf cs = p.1.isPrefixOf ds := by
    intro p hp
    rcases spelling_not_separates p hp with hparen | hother
    · rw [hparen, hone]
    · exact h.isPrefixOf hother
  generalize Punct.spellings = ps at heach
  induction ps with
  | nil => rfl
  | cons p ps ih =>
    obtain ⟨hp, hps⟩ := List.forall_mem_cons.mp heach
    rw [List.find?_cons, List.find?_cons, hp, ih hps]

/-- The spellings take one byte for each character. -/
theorem byteLength_spelling : ∀ p ∈ Punct.spellings, byteLength p.1 = p.1.length := by
  decide +kernel

theorem scanPunct_other {cs : List Char} (h : ∀ c t, cs = '?' :: '.' :: c :: t → False) :
    scanPunct cs = (Punct.spellings.find? fun p => p.1.isPrefixOf cs).map fun p =>
      (.punct p.2, p.1.length, cs.drop p.1.length) := by
  unfold scanPunct
  split
  · exact (h _ _ rfl).elim
  · rfl

theorem scanPunct_eq_some {token : Token} {width : Nat}
    (h : scanPunct cs = some (token, width, rest)) :
    ∃ s, cs = s ++ rest ∧ width = byteLength s ∧ s ≠ [] ∧
      ∀ r, Alike rest r → scanPunct (s ++ r) = some (token, width, r) := by
  unfold scanPunct at h
  split at h
  · rename_i c cs
    split at h
    · rename_i hc
      cases h
      refine ⟨['?'], rfl, rfl, by simp, fun r hr => ?_⟩
      obtain ⟨t, rfl, ht⟩ := hr.cons_inv (by decide +kernel)
      obtain ⟨t, rfl, -⟩ := ht.cons_inv (not_separates_of_isDigit hc)
      rw [List.singleton_append, scanPunct, if_pos hc]
    · rename_i hc
      cases h
      refine ⟨['?', '.'], rfl, rfl, by simp, fun r hr => ?_⟩
      cases r with
      | nil => cases hr.symm.eq_nil
      | cons d r =>
        have hd : ¬ d.isDigit = true := by
          have hboth : c.isDigit = d.isDigit :=
            hr.meets.any_head? (p := Char.isDigit) (eq_false_of_separates rfl rfl)
          rwa [← hboth]
        rw [List.cons_append, List.singleton_append, scanPunct, if_neg hd]
  · rename_i hquestion
    obtain ⟨p, hp, h⟩ := Option.map_eq_some_iff.mp h
    cases h
    have hmem := List.mem_of_find?_eq_some hp
    have hprefix : p.1.isPrefixOf cs = true := by simpa using List.find?_some hp
    obtain ⟨tail, rfl⟩ := List.isPrefixOf_iff_prefix.mp hprefix
    have hnonempty : ∀ p ∈ Punct.spellings, p.1 ≠ [] := by decide
    rw [List.drop_left]
    refine ⟨p.1, rfl, (byteLength_spelling p hmem).symm, hnonempty p hmem, fun r hr => ?_⟩
    · have halike : Alike (p.1 ++ tail) (p.1 ++ r) := hr.append_left p.1
      have hhead : (p.1 ++ tail).head? = (p.1 ++ r).head? := by
        rw [List.head?_append_of_ne_nil _ (hnonempty p hmem),
          List.head?_append_of_ne_nil _ (hnonempty p hmem)]
      rw [scanPunct_other, ← find?_isPrefixOf_congr halike hhead, hp, Option.map_some,
        List.drop_left]
      -- The case of `?.` is not reached with another text behind the punctuator, either.
      intro c t ht
      rw [ht] at halike
      obtain ⟨t', ht', hrest⟩ := halike.symm.cons_inv (by decide +kernel)
      obtain ⟨t'', rfl, hrest'⟩ := hrest.cons_inv (by decide +kernel)
      cases t'' with
      | nil => cases hrest'.symm.eq_nil
      | cons d t'' => exact hquestion d t'' ht'

/-! ## Blanks -/

theorem skip_tokens {c : Char} (hline : ∀ t, c = '/' → cs = '/' :: t → False)
    (hblock : ∀ t, c = '/' → cs = '*' :: t → False) (line : Bool) (pos : Nat) :
    skip .tokens line pos (c :: cs) =
      if isSpace c then skip .tokens line (pos + c.utf8Size) cs
      else if isLineEnd c then skip .tokens true (pos + c.utf8Size) cs
      else some (line, pos, c :: cs) := by
  rw [skip]
  · rintro t rfl rfl
    exact hline t rfl rfl
  · rintro t rfl rfl
    exact hblock t rfl rfl

/-- The text `s` is blank where `skip` stands so. The skipping goes on behind it, also where `rest`
is exchanged for a text that is alike. -/
def Skips (b : Between) (line : Bool) (s rest : List Char) (line' : Bool) : Prop :=
  ∀ r, Alike rest r → ∀ pos,
    skip b line pos (s ++ r) = skip .tokens line' (pos + byteLength s) r

theorem Skips.append {b b' : Between} {line l line' : Bool} {e : List Char}
    (h : Skips b' l s rest line')
    (hskip : ∀ r, Alike (s ++ rest) r → ∀ pos,
      skip b line pos (e ++ r) = skip b' l (pos + byteLength e) r) :
    Skips b line (e ++ s) rest line' := by
  intro r hr pos
  rw [List.append_assoc, hskip _ (hr.append_left s), h r hr, byteLength_append, Nat.add_assoc]

theorem skips_nil (line : Bool) (rest : List Char) : Skips .tokens line [] rest line :=
  fun _ _ _ => rfl

theorem ne_slash_of_blank {c : Char} (h : isSpace c = true ∨ isLineEnd c = true) : c ≠ '/' := by
  rintro rfl
  exact absurd h (by decide)

/-- The blanks before a token. -/
theorem skip_eq_some {b : Between} {line line' : Bool} {pos start : Nat}
    (h : skip b line pos cs = some (line', start, rest)) :
    ∃ s, cs = s ++ rest ∧ start = pos + byteLength s ∧ Skips b line s rest line' := by
  induction b, line, pos, cs using skip.induct with
  | case1 line pos cs ih =>
    obtain ⟨s, rfl, rfl, hs⟩ := ih h
    exact ⟨['/', '/'] ++ s, rfl, by rw [byteLength_append, ← Nat.add_assoc]; rfl,
      hs.append fun _ _ _ => rfl⟩
  | case2 line pos cs ih =>
    obtain ⟨s, rfl, rfl, hs⟩ := ih h
    exact ⟨['/', '*'] ++ s, rfl, by rw [byteLength_append, ← Nat.add_assoc]; rfl,
      hs.append fun _ _ _ => rfl⟩
  | case3 line pos c cs hline hblock hspace ih =>
    rw [skip_tokens hline hblock, if_pos hspace] at h
    obtain ⟨s, rfl, rfl, hs⟩ := ih h
    refine ⟨[c] ++ s, rfl, Nat.add_assoc .., hs.append fun r _ pos => ?_⟩
    have hslash := ne_slash_of_blank (.inl hspace)
    rw [List.singleton_append, skip_cons hslash, if_pos hspace]
    rfl
  | case4 line pos c cs hline hblock hspace hend ih =>
    rw [skip_tokens hline hblock, if_neg hspace, if_pos hend] at h
    obtain ⟨s, rfl, rfl, hs⟩ := ih h
    refine ⟨[c] ++ s, rfl, Nat.add_assoc .., hs.append fun r _ pos => ?_⟩
    have hslash := ne_slash_of_blank (.inr hend)
    rw [List.singleton_append, skip_cons hslash, if_neg hspace, if_pos hend]
    rfl
  | case5 line pos c cs hline hblock hspace hend =>
    rw [skip_tokens hline hblock, if_neg hspace, if_neg hend] at h
    cases h
    exact ⟨[], rfl, rfl, skips_nil line' _⟩
  | case6 line pos c cs hend ih =>
    rw [skip, if_pos hend] at h
    obtain ⟨s, rfl, rfl, hs⟩ := ih h
    refine ⟨[c] ++ s, rfl, Nat.add_assoc .., hs.append fun r _ pos => ?_⟩
    rw [List.singleton_append, skip, if_pos hend]
    rfl
  | case7 line pos c cs hend ih =>
    rw [skip, if_neg hend] at h
    obtain ⟨s, rfl, rfl, hs⟩ := ih h
    refine ⟨[c] ++ s, rfl, Nat.add_assoc .., hs.append fun r _ pos => ?_⟩
    rw [List.singleton_append, skip, if_neg hend]
    rfl
  | case8 line pos cs ih =>
    obtain ⟨s, rfl, rfl, hs⟩ := ih h
    exact ⟨['*', '/'] ++ s, rfl, by rw [byteLength_append, ← Nat.add_assoc]; rfl,
      hs.append fun _ _ _ => rfl⟩
  -- A star inside a comment closes it only with the slash behind it. What follows starts with no
  -- other character than it did.
  | case9 line pos c cs hclose ih =>
    rw [skip] at h
    · obtain ⟨s, rfl, rfl, hs⟩ := ih h
      refine ⟨[c] ++ s, rfl, Nat.add_assoc .., hs.append fun r hr pos => ?_⟩
      rw [List.singleton_append, skip]
      · rfl
      · rintro t rfl rfl
        obtain ⟨t', ht', -⟩ := hr.symm.cons_inv (by decide +kernel)
        exact hclose t' rfl ht'
    · exact hclose
  | case10 => cases h
  | case11 b line pos hb =>
    rw [skip] at h
    · cases h
      refine ⟨[], rfl, rfl, fun r hr pos => ?_⟩
      obtain rfl := hr.eq_nil
      rw [List.nil_append, skip]
      · rw [skip]
        · rfl
        · rintro ⟨⟩
      · exact hb
    · exact hb

/-! ## Tokens -/

theorem isIdentStart_of_isDigit {c : Char} (h : c.isDigit = true) : isIdentStart c = false := by
  have hdigits : ∀ n < 10, isIdentStart (Char.ofNat (48 + n)) = false := by decide +kernel
  simp only [Char.isDigit, Bool.and_eq_true, decide_eq_true_eq, UInt32.le_iff_toNat_le] at h
  have hn : c.toNat - 48 < 10 ∧ 48 + (c.toNat - 48) = c.toNat := by
    have hl : 48 ≤ c.toNat := h.1
    have hr : c.toNat ≤ 57 := h.2
    omega
  have := hdigits _ hn.1
  rwa [hn.2, Char.ofNat_toNat] at this

theorem scanWord_ne_nil {c : Char} (hc : (c == '\\' || isIdentStart c) = true) {fuel : Nat} {w : Word}
    (h : scanWord true fuel (c :: cs) = some w) : w.name ≠ [] ∧ w.rest.length ≤ cs.length := by
  cases fuel with
  | zero => cases h
  | succ fuel =>
    unfold scanWord at h
    extract_lets allowed at h
    split at h
    · rename_i cs' hcs
      cases hcs
      obtain ⟨⟨code, width, tail⟩, hcode, h⟩ := Option.bind_eq_some_iff.mp h
      dsimp only at h
      split at h
      · cases h
      · obtain ⟨w', hw', rfl⟩ := Option.map_eq_some_iff.mp h
        obtain ⟨s, rfl, -⟩ := scanWord_eq_some hw'
        obtain ⟨e, rfl, -⟩ := codeEscape?_eq_some hcode
        refine ⟨List.cons_ne_nil _ _, ?_⟩
        simp only [Word.cons, List.length_cons, List.length_append]
        omega
    · cases h
    · rename_i d tail _ hslash hcs
      cases hcs
      split at h
      · obtain ⟨w', hw', rfl⟩ := Option.map_eq_some_iff.mp h
        obtain ⟨s, rfl, -⟩ := scanWord_eq_some hw'
        refine ⟨List.cons_ne_nil _ _, ?_⟩
        simp only [Word.cons, List.length_append]
        omega
      · rename_i hstart
        rw [Bool.or_eq_true, beq_iff_eq] at hc
        exact absurd (hc.resolve_left hslash) hstart
    · rename_i hcs
      cases hcs

/-- The text begins with the token, which takes the given width, and goes on with `rest`. It is read
again before every text that begins alike. -/
def BeginsWith (cs : List Char) (token : Token) (width : Nat) (rest : List Char) : Prop :=
  ∃ s, cs = s ++ rest ∧ width = byteLength s ∧ (s = [] → token = .eof ∧ rest = []) ∧
    ∀ r, Alike rest r → scanToken (s ++ r) = some (token, width, r)

section Branches

variable {c : Char} {token : Token} {width : Nat}

theorem beginsWith_string (hquote : (c == '"' || c == '\'') = true) {units : List TextUnit}
    (hscan : scanString c (cs.length + 1) cs = some (units, width, rest)) :
    BeginsWith (c :: cs) (.str (String.ofList (textOfUnits units))) (width + 1) rest := by
  have hc : c = '"' ∨ c = '\'' := by simpa using hquote
  have hbarrier : c ∈ barriers := by rcases hc with rfl | rfl <;> decide
  have hsize : c.utf8Size = 1 := by rcases hc with rfl | rfl <;> rfl
  obtain ⟨s, rfl, rfl, -, hread⟩ := scanString_eq_some hbarrier hscan
  refine ⟨c :: s, rfl, by rw [byteLength, hsize, Nat.add_comm], (absurd · (List.cons_ne_nil _ _)),
    fun r _ => ?_⟩
  rw [List.cons_append, scanToken, if_pos hquote, hread r _ (by rw [List.length_append]; omega)]
  rfl

theorem beginsWith_template {q : Quasi} (hscan : scanQuasi (cs.length + 1) cs = some q) :
    BeginsWith ('\x60' :: cs) q.token (q.width + 1) q.rest := by
  obtain ⟨s, hs, hspans⟩ := scanQuasi_eq_some hscan
  refine ⟨'\x60' :: s, by rw [hs]; rfl, ?_, (absurd · (List.cons_ne_nil _ _)), fun r _ => ?_⟩
  · rw [byteLength, hspans.width_eq, Nat.add_comm]
    rfl
  · rw [List.cons_append, scanToken, if_neg (by decide), if_pos (beq_self_eq_true _),
      hspans.scan r _ (by rw [List.length_append]; omega)]
    rfl

/-- A number is told by its first character, or by a point and the digit after it. -/
theorem beginsWith_number (hquote : ¬ (c == '"' || c == '\'') = true)
    (htick : ¬ (c == '\x60') = true)
    (hnumber : (c.isDigit || (c == '.' && cs.head?.any Char.isDigit)) = true)
    (hscan : scanNumber (c :: cs) = some (token, width, rest)) :
    BeginsWith (c :: cs) token width rest := by
  obtain ⟨s, hs, hwidth, hread⟩ := scanNumber_cuts _ _ _ _ hscan
  have hends := scanNumber_ends hscan
  refine ⟨s, hs, by rw [hwidth, Nat.zero_add], ?_, fun r hr => ?_⟩
  · rintro rfl
    rw [List.nil_append] at hs
    subst hs
    simp only [List.head?_cons, Option.any_some, spoilsNumber, Bool.or_eq_false_iff] at hends
    simp only [hends.1.1, Bool.false_or, Bool.and_eq_true, beq_iff_eq] at hnumber
    obtain ⟨rfl, -⟩ := hnumber
    have hpos := scanNumber_point hscan
    rw [hwidth] at hpos
    exact absurd hpos (Nat.lt_irrefl 0)
  · have halike : Alike (c :: cs) (s ++ r) := hs ▸ hr.append_left s
    have hc : separates c = false := by
      rw [Bool.or_eq_true, Bool.and_eq_true, beq_iff_eq] at hnumber
      rcases hnumber with hdigit | ⟨rfl, -⟩
      · exact not_separates_of_isDigit hdigit
      · rfl
    obtain ⟨t, ht, htail⟩ := halike.cons_inv hc
    rw [htail.meets.any_head? (p := Char.isDigit) (eq_false_of_separates rfl rfl)] at hnumber
    rw [ht, scanToken, if_neg hquote, if_neg htick, if_pos hnumber, ← ht]
    exact hread r hr.meets

theorem beginsWith_privateName {w : Word} (hscan : scanWord true (cs.length + 1) cs = some w)
    (hname : ¬ w.name.isEmpty = true) :
    BeginsWith ('#' :: cs) (.privateName (String.ofList w.name)) (w.width + 1) w.rest := by
  obtain ⟨s, hs, hspans⟩ := scanWord_eq_some hscan
  refine ⟨'#' :: s, by rw [hs]; rfl, ?_, (absurd · (List.cons_ne_nil _ _)), fun r hr => ?_⟩
  · rw [byteLength, hspans.width_eq, Nat.add_comm]
    rfl
  · have hnumber : ¬ ('#'.isDigit || ('#' == '.' && (s ++ r).head?.any Char.isDigit)) = true :=
      Bool.false_ne_true
    rw [List.cons_append, scanToken, if_neg (by decide), if_neg (by decide), if_neg hnumber,
      if_pos (beq_self_eq_true _), hspans.scan r _ hr.meets (by rw [List.length_append]; omega)]
    exact if_neg hname

theorem beginsWith_word (hquote : ¬ (c == '"' || c == '\'') = true)
    (htick : ¬ (c == '\x60') = true) (hhash : ¬ (c == '#') = true)
    (hword : (c == '\\' || isIdentStart c) = true) {w : Word}
    (hscan : scanWord true ((c :: cs).length + 1) (c :: cs) = some w) :
    BeginsWith (c :: cs) (.word (String.ofList w.name) w.escaped) w.width w.rest := by
  obtain ⟨hname, hshort⟩ := scanWord_ne_nil hword hscan
  obtain ⟨s, hs, hspans⟩ := scanWord_eq_some hscan
  cases s with
  | nil =>
    have := congrArg List.length hs
    rw [List.nil_append, List.length_cons] at this
    omega
  | cons d s =>
    refine ⟨d :: s, hs, hspans.width_eq, (absurd · (List.cons_ne_nil _ _)), fun r hr => ?_⟩
    cases hs
    have hnumber : ¬ (c.isDigit || (c == '.' && (s ++ r).head?.any Char.isDigit)) = true := by
      rw [Bool.or_eq_true, beq_iff_eq] at hword
      have hdot : c ≠ '.' := by
        rintro rfl
        exact absurd hword (by decide +kernel)
      have hdigit : ¬ c.isDigit = true := fun h => by
        rcases hword with rfl | hstart
        · cases h
        · rw [isIdentStart_of_isDigit h] at hstart
          cases hstart
      simp [hdot, hdigit]
    rw [List.cons_append, scanToken, if_neg hquote, if_neg htick, if_neg hnumber, if_neg hhash,
      if_pos hword, ← List.cons_append,
      hspans.scan r _ hr.meets (by rw [List.length_append]; omega)]
    rfl

theorem beginsWith_punct (hquote : ¬ (c == '"' || c == '\'') = true)
    (htick : ¬ (c == '\x60') = true)
    (hnumber : ¬ (c.isDigit || (c == '.' && cs.head?.any Char.isDigit)) = true)
    (hhash : ¬ (c == '#') = true) (hword : ¬ (c == '\\' || isIdentStart c) = true)
    (hscan : scanPunct (c :: cs) = some (token, width, rest)) :
    BeginsWith (c :: cs) token width rest := by
  obtain ⟨s, hs, hwidth, hne, hread⟩ := scanPunct_eq_some hscan
  refine ⟨s, hs, hwidth, fun h => absurd h hne, fun r hr => ?_⟩
  cases s with
  | nil => exact absurd rfl hne
  | cons d s =>
    cases hs
    have halike : Alike (s ++ rest) (s ++ r) := hr.append_left s
    have hnumber' : ¬ (c.isDigit || (c == '.' && (s ++ r).head?.any Char.isDigit)) = true := by
      rw [← halike.meets.any_head? (p := Char.isDigit) (eq_false_of_separates rfl rfl)]
      exact hnumber
    rw [List.cons_append, scanToken, if_neg hquote, if_neg htick, if_neg hnumber', if_neg hhash,
      if_neg hword, ← List.cons_append]
    exact hread r hr

end Branches

/-- A token is read again before every text that begins alike. -/
theorem scanToken_eq_some {token : Token} {width : Nat}
    (h : scanToken cs = some (token, width, rest)) : BeginsWith cs token width rest := by
  unfold scanToken at h
  split at h
  · cases h
    refine ⟨[], rfl, rfl, fun _ => ⟨rfl, rfl⟩, fun r hr => ?_⟩
    obtain rfl := hr.eq_nil
    rfl
  split at h
  · rename_i hquote
    obtain ⟨⟨units, w, tail⟩, hscan, h⟩ := Option.bind_eq_some_iff.mp h
    cases h
    exact beginsWith_string hquote hscan
  split at h
  · rename_i htick
    obtain ⟨q, hscan, h⟩ := Option.bind_eq_some_iff.mp h
    cases h
    obtain rfl := eq_of_beq htick
    exact beginsWith_template hscan
  split at h
  · exact beginsWith_number ‹_› ‹_› ‹_› h
  split at h
  · rename_i hhash
    obtain ⟨w, hscan, h⟩ := Option.bind_eq_some_iff.mp h
    obtain rfl := eq_of_beq hhash
    split at h
    · cases h
    · cases h
      exact beginsWith_privateName hscan ‹_›
  split at h
  · obtain ⟨w, hscan, h⟩ := Option.bind_eq_some_iff.mp h
    cases h
    exact beginsWith_word ‹_› ‹_› ‹_› ‹_› hscan
  · exact beginsWith_punct ‹_› ‹_› ‹_› ‹_› ‹_› h

/-- A punctuator is the longest one that the text begins with. -/
theorem scanToken_punct {p : Punct} {width : Nat}
    (h : scanToken cs = some (.punct p, width, rest)) :
    scanPunct cs = some (.punct p, width, rest) := by
  unfold scanToken at h
  split at h
  · cases h
  · rename_i c cs
    split at h
    · obtain ⟨_, -, h⟩ := Option.bind_eq_some_iff.mp h
      cases h
    split at h
    · obtain ⟨_, -, h⟩ := Option.bind_eq_some_iff.mp h
      cases h
    split at h
    · cases scanNumber_isNumeral h
    split at h
    · obtain ⟨w, -, h⟩ := Option.bind_eq_some_iff.mp h
      split at h <;> cases h
    split at h
    · obtain ⟨w, -, h⟩ := Option.bind_eq_some_iff.mp h
      cases h
    · exact h

end UiTemplate.Script
