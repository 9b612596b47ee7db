import UiTemplate.Proofs.Script.Takes

/-!
# Spelling tokens

How a text begins with a token, for the kinds of tokens that emitted code has: a word
(`spells_word`), a string in quotes (`spells_str`), a dot (`spells_dot`), and the other punctuators,
which are computed.
-/

namespace UiTemplate.Script

open Text

variable {cs rest tail : List Char} {us : List Token}

/-- A token at the start of a text. -/
theorem spells_token {t : Token} {width : Nat}
    (hnext : ∀ pos, next pos cs = (⟨t, pos, pos + width, false⟩, rest))
    (hshort : rest.length < cs.length) (h : Spells rest us tail) : Spells cs (t :: us) tail :=
  .cons (fun pos => ⟨_, _, _, hnext pos, fun _ => rfl⟩) (.inr hshort) h

/-- A token of one character. -/
theorem spells_char {c : Char} {t : Token} (hnext : ∀ pos, next pos (c :: cs) =
    (⟨t, pos, pos + 1, false⟩, cs)) (h : Spells cs us tail) : Spells (c :: cs) (t :: us) tail :=
  spells_token hnext (Nat.lt_succ_self _) h

/-- A character that does not begin a comment. -/
theorem skip_cons {c : Char} (hc : c ≠ '/') (line : Bool) (pos : Nat) (cs : List Char) :
    skip .tokens line pos (c :: cs) =
      if isSpace c then skip .tokens line (pos + c.utf8Size) cs
      else if isLineEnd c then skip .tokens true (pos + c.utf8Size) cs
      else some (line, pos, c :: cs) := by
  rw [skip.eq_def]
  split
  · rename_i h
    cases h
    exact absurd rfl hc
  · rename_i h
    cases h
    exact absurd rfl hc
  · rename_i h
    cases h
    rfl
  all_goals
    rename_i h _
    cases h

theorem skip_space (line : Bool) (pos : Nat) (cs : List Char) :
    skip .tokens line pos (' ' :: cs) = skip .tokens line (pos + 1) cs :=
  skip_cons (by decide) line pos cs

/-! ## Words -/

/-- The text goes on with nothing that a word goes on with. -/
def EndsWord (cs : List Char) : Prop :=
  ∀ c rest, cs = c :: rest → isIdentPart c = false ∧ c ≠ '\\'

theorem endsWord_cons {c : Char} (hpart : isIdentPart c = false) (hc : c ≠ '\\') :
    EndsWord (c :: cs) := by
  intro d rest h
  cases h
  exact ⟨hpart, hc⟩

theorem scanWord_cons {c : Char} (hc : c ≠ '\\') (first : Bool) (fuel : Nat) (rest : List Char) :
    scanWord first (fuel + 1) (c :: rest) =
      if (if first then isIdentStart c else isIdentPart c) then
        (scanWord false fuel rest).map (Word.cons c c.utf8Size false)
      else some ⟨[], 0, false, c :: rest⟩ := by
  rw [scanWord]
  · exact fun _ h => absurd h hc
  · exact hc

theorem scanWord_append (hcs : cs.all isIdentPart = true) (hrest : EndsWord rest) {fuel : Nat}
    (hfuel : cs.length < fuel) :
    ∃ width, scanWord false fuel (cs ++ rest) = some ⟨cs, width, false, rest⟩ := by
  induction cs generalizing fuel with
  | nil =>
    obtain ⟨fuel, rfl⟩ := Nat.exists_eq_add_of_lt hfuel
    refine ⟨0, ?_⟩
    cases rest with
    | nil => rfl
    | cons c rest =>
      obtain ⟨hpart, hslash⟩ := hrest c rest rfl
      rw [List.nil_append, scanWord_cons hslash]
      simp [hpart]
  | cons c cs ih =>
    rw [List.all_cons, Bool.and_eq_true] at hcs
    rw [List.length_cons] at hfuel
    obtain ⟨fuel, rfl⟩ : ∃ k, fuel = k + 1 := ⟨fuel - 1, by omega⟩
    obtain ⟨width, hscan⟩ := ih hcs.2 (show cs.length < fuel by omega)
    have hslash : c ≠ '\\' := by
      rintro rfl
      exact absurd hcs.1 (by decide)
    refine ⟨c.utf8Size + width, ?_⟩
    rw [List.cons_append, scanWord_cons hslash, hscan]
    simp [hcs.1, Word.cons]

/-- The characters of a word. -/
def isWordText : List Char → Bool
  | [] => false
  | c :: cs => isIdentStart c && !c.isDigit && !isSpace c && !isLineEnd c && cs.all isIdentPart

/-- A token that no blank stands before. -/
theorem next_of_scanToken {c : Char} {t : Token} {width : Nat}
    (hblank : c ≠ '/' ∧ isSpace c = false ∧ isLineEnd c = false)
    (h : scanToken (c :: cs) = some (t, width, rest)) (pos : Nat) :
    next pos (c :: cs) = (⟨t, pos, pos + width, false⟩, rest) := by
  have hskip : skip .tokens false pos (c :: cs) = some (false, pos, c :: cs) := by
    rw [skip_cons hblank.1]
    simp [hblank.2]
  rw [next, hskip]
  simp only [h]

theorem isWordText_blank {c : Char} (h : isWordText (c :: cs) = true) :
    c ≠ '/' ∧ isSpace c = false ∧ isLineEnd c = false := by
  simp only [isWordText, Bool.and_eq_true, Bool.not_eq_true'] at h
  obtain ⟨⟨⟨⟨hstart, -⟩, hspace⟩, hline⟩, -⟩ := h
  refine ⟨?_, hspace, hline⟩
  rintro rfl
  exact absurd hstart (by decide +kernel)

/-- A word that no word character follows. -/
theorem scanToken_append (hcs : isWordText cs = true) (hrest : EndsWord rest) :
    ∃ width, scanToken (cs ++ rest) = some (.word (String.ofList cs) false, width, rest) := by
  cases cs with
  | nil => exact nomatch hcs
  | cons c cs =>
    simp only [isWordText, Bool.and_eq_true, Bool.not_eq_true'] at hcs
    obtain ⟨⟨⟨⟨hstart, hdigit⟩, -⟩, -⟩, hparts⟩ := hcs
    have hne {d : Char} (hd : isIdentStart d = false) : c ≠ d := by
      rintro rfl
      rw [hstart] at hd
      exact nomatch hd
    obtain ⟨width, hscan⟩ := scanWord_append hparts hrest
      (show cs.length < (cs ++ rest).length + 1 by rw [List.length_append]; omega)
    have hword : scanWord true ((c :: (cs ++ rest)).length + 1) (c :: (cs ++ rest)) =
        some ⟨c :: cs, c.utf8Size + width, false, rest⟩ := by
      rw [scanWord_cons (hne (by decide)), List.length_cons, hscan, hstart]
      simp [Word.cons]
    have hquote : (c == '"' || c == '\'') = false := by
      simp [hne (d := '"') (by decide), hne (d := '\'') (by decide)]
    have htick : (c == '\x60') = false := by simp [hne (d := '\x60') (by decide)]
    have hdot : (c == '.') = false := by simp [hne (d := '.') (by decide)]
    have hhash : (c == '#') = false := by simp [hne (d := '#') (by decide)]
    refine ⟨c.utf8Size + width, ?_⟩
    rw [List.cons_append, scanToken]
    simp only [hquote, htick, hdot, hhash, hdigit, hstart, hword, Bool.false_and, Bool.or_false,
      Bool.or_true, Bool.false_eq_true, if_false, if_true]
    rfl

theorem spells_word (hcs : isWordText cs = true) (hrest : EndsWord rest) (h : Spells rest us tail) :
    Spells (cs ++ rest) (.word (String.ofList cs) false :: us) tail := by
  obtain ⟨width, htoken⟩ := scanToken_append hcs hrest
  cases cs with
  | nil => exact nomatch hcs
  | cons c cs =>
    refine spells_token (next_of_scanToken (isWordText_blank hcs) htoken) ?_ h
    rw [List.cons_append, List.length_cons, List.length_append]
    omega

/-! ## Dots -/

/-- A dot before what is neither a digit nor a dot. -/
theorem scanToken_dot {c : Char} (hdigit : c.isDigit = false) (hdot : c ≠ '.') (cs : List Char) :
    scanToken ('.' :: c :: cs) = some (.punct .dot, 1, c :: cs) := by
  have hpunct : scanPunct ('.' :: c :: cs) = some (.punct .dot, 1, c :: cs) := by
    simp [scanPunct, Punct.spellings, List.isPrefixOf, hdot.symm]
  have hnumber : ('.'.isDigit || ('.' == '.' && (c :: cs).head?.any Char.isDigit)) = false := by
    simp [hdigit]
  have hword : ('.' == '\\' || isIdentStart '.') = false := by decide +kernel
  rw [scanToken]
  simp only [hnumber, hword, hpunct]
  rfl

theorem spells_dot {c : Char} (hdigit : c.isDigit = false) (hdot : c ≠ '.')
    (h : Spells (c :: cs) us tail) : Spells ('.' :: c :: cs) (.punct .dot :: us) tail :=
  spells_char (next_of_scanToken (by decide) (scanToken_dot hdigit hdot cs)) h

/-! ## Strings -/

/-- A character that stands for itself in quotes. -/
def isBare (quote c : Char) : Bool :=
  c != quote && c != '\\' && c != '\n' && c != '\r'

variable {quote : Char}

theorem scanString_append (hcs : cs.all (isBare quote) = true) (rest : List Char) {fuel : Nat}
    (hfuel : cs.length < fuel) :
    ∃ width, scanString quote fuel (cs ++ quote :: rest) = some (cs.map .char, width, rest) := by
  induction cs generalizing fuel with
  | nil =>
    obtain ⟨fuel, rfl⟩ := Nat.exists_eq_add_of_lt hfuel
    exact ⟨1, by rw [List.nil_append, scanString, beq_self_eq_true, if_pos rfl]; rfl⟩
  | cons c cs ih =>
    rw [List.all_cons, Bool.and_eq_true] at hcs
    rw [List.length_cons] at hfuel
    obtain ⟨fuel, rfl⟩ : ∃ k, fuel = k + 1 := ⟨fuel - 1, by omega⟩
    obtain ⟨width, hscan⟩ := ih hcs.2 (show cs.length < fuel by omega)
    obtain ⟨⟨⟨hquote, hslash⟩, hfeed⟩, hreturn⟩ :
        ((c ≠ quote ∧ c ≠ '\\') ∧ c ≠ '\n') ∧ c ≠ '\r' := by
      simpa [isBare] using hcs.1
    refine ⟨c.utf8Size + width, ?_⟩
    rw [List.cons_append, scanString, hscan]
    simp [hquote, hslash, hfeed, hreturn]

/-- A string in quotes, by the units between them. -/
theorem spells_scanned (hquote : quote = '"' ∨ quote = '\'') {units : List TextUnit} {width : Nat}
    (hscan : scanString quote (cs.length + 1) cs = some (units, width, rest))
    (hshort : rest.length < cs.length) (h : Spells rest us tail) :
    Spells (quote :: cs) (.str (String.ofList (textOfUnits units)) :: us) tail := by
  have htoken : scanToken (quote :: cs) =
      some (.str (String.ofList (textOfUnits units)), width + 1, rest) := by
    have htest : (quote == '"' || quote == '\'') = true := by
      rcases hquote with rfl | rfl <;> rfl
    rw [scanToken]
    simp only [htest, if_true, hscan]
    rfl
  have hskip (pos : Nat) :
      skip .tokens false pos (quote :: cs) = some (false, pos, quote :: cs) := by
    rcases hquote with rfl | rfl <;> exact skip_cons (by decide) false pos cs
  have hnext (pos : Nat) : next pos (quote :: cs) =
      (⟨.str (String.ofList (textOfUnits units)), pos, pos + (width + 1), false⟩, rest) := by
    rw [next, hskip]
    simp only [htoken]
  exact spells_token hnext (Nat.lt_succ_of_lt hshort) h

/-- A string of characters that stand for themselves. -/
theorem spells_str (hquote : quote = '"' ∨ quote = '\'') (hcs : cs.all (isBare quote) = true)
    (h : Spells rest us tail) :
    Spells (quote :: (cs ++ quote :: rest)) (.str (String.ofList cs) :: us) tail := by
  have hlength : (cs ++ quote :: rest).length = cs.length + (rest.length + 1) := List.length_append
  obtain ⟨width, hscan⟩ := scanString_append hcs rest
    (show cs.length < (cs ++ quote :: rest).length + 1 by omega)
  have hspells := spells_scanned hquote hscan (by omega) h
  rwa [textOfUnits_map_char] at hspells

/-! ## Quoted texts -/

theorem hexDigit?_hexDigit : ∀ d < 16, hexDigit? (Json.hexDigit d) = some d := by
  decide

/-- The escape of a control character stands for it. -/
theorem escape?_unicodeEscape {n : Nat} (hn : n < 32) (after : List Char) :
    escape? true ((Json.unicodeEscape n).tail ++ after) = some ([.char (Char.ofNat n)], 5, after) := by
  have hescape : (Json.unicodeEscape n).tail =
      ['u', '0', '0', Json.hexDigit (n / 16 % 16), Json.hexDigit (n % 16)] := by
    have hhigh : n / 4096 % 16 = 0 ∧ n / 256 % 16 = 0 := by omega
    rw [Json.unicodeEscape, hhigh.1, hhigh.2]
    rfl
  have hd (m : Nat) : hexDigit? (Json.hexDigit (m % 16)) = some (m % 16) :=
    hexDigit?_hexDigit _ (Nat.mod_lt m (by decide))
  have hzero : hexDigit? '0' = some 0 := rfl
  have hfour : fourDigits? ('0' :: '0' :: Json.hexDigit (n / 16 % 16) ::
      Json.hexDigit (n % 16) :: after) = some (n, after) := by
    have hvalue : n / 16 % 16 * 16 + n % 16 = n := by omega
    simp [fourDigits?, hzero, hd, hvalue]
  have hhigh : isHighSurrogate n = false := by
    simp only [isHighSurrogate, Bool.and_eq_false_iff, decide_eq_false_iff_not]
    omega
  have hlow : isLowSurrogate n = false := by
    simp only [isLowSurrogate, Bool.and_eq_false_iff, decide_eq_false_iff_not]
    omega
  have hpair : pairEscape? ('0' :: '0' :: Json.hexDigit (n / 16 % 16) ::
      Json.hexDigit (n % 16) :: after) = none := by
    rw [pairEscape?, hfour, Option.bind_eq_bind, Option.bind_some]
    dsimp only
    split
    · rw [Option.bind_eq_none_iff]
      intro low _
      rw [hhigh]
      rfl
    · rfl
  have hcode : codeEscape? ('0' :: '0' :: Json.hexDigit (n / 16 % 16) ::
      Json.hexDigit (n % 16) :: after) = some (n, 4, after) := by
    rw [codeEscape?, hfour]
    · rfl
    · exact fun _ h => nomatch h
  have hunit : TextUnit.ofCode n = .char (Char.ofNat n) := by
    rw [TextUnit.ofCode, isSurrogate, hhigh, hlow]
    rfl
  rw [hescape, ← hunit]
  simp only [List.cons_append, List.nil_append, escape?, hpair, hcode, Option.map_some]

/-- A character is written as it is, or as an escape that stands for it. -/
theorem escapeChar_reads (c : Char) :
    (isBare '"' c = true ∧ Json.escapeChar c = [c]) ∨
      ∃ escape u width, Json.escapeChar c = '\\' :: escape ∧ (u = .char c ∨ u = .bare c) ∧
        ∀ after, escape? true (escape ++ after) = some ([u], width, after) := by
  have hc : Char.ofNat c.toNat = c := Char.ofNat_toNat c
  unfold Json.escapeChar
  split
  · exact .inr ⟨['"'], .bare '"', 1, rfl, .inr (by rw [‹c = '"'›]), fun _ => rfl⟩
  split
  · exact .inr ⟨['\\'], .bare '\\', 1, rfl, .inr (by rw [‹c = '\\'›]), fun _ => rfl⟩
  split
  · exact .inr ⟨['n'], .char '\n', 1, rfl, .inl (by rw [‹c = '\n'›]), fun _ => rfl⟩
  split
  · exact .inr ⟨['r'], .char '\r', 1, rfl, .inl (by rw [‹c = '\r'›]), fun _ => rfl⟩
  split
  · exact .inr ⟨['t'], .char '\t', 1, rfl, .inl (by rw [‹c = '\t'›]), fun _ => rfl⟩
  split
  · exact .inr ⟨['b'], .char '\x08', 1, rfl, .inl (by rw [← hc, ‹c.toNat = 8›]), fun _ => rfl⟩
  split
  · exact .inr ⟨['f'], .char '\x0c', 1, rfl, .inl (by rw [← hc, ‹c.toNat = 12›]), fun _ => rfl⟩
  split
  · rename_i hcontrol
    refine .inr ⟨(Json.unicodeEscape c.toNat).tail, .char c, 5, rfl, .inl rfl, fun after => ?_⟩
    rw [escape?_unicodeEscape hcontrol, hc]
  · rename_i hquote hslash hfeed hreturn _ _ _ _
    exact .inl ⟨by simp [isBare, hquote, hslash, hfeed, hreturn], rfl⟩

/-- A quoted text is scanned as the text. -/
theorem scanString_quoted (s rest : List Char) {fuel : Nat}
    (hfuel : (s.flatMap Json.escapeChar).length < fuel) :
    ∃ units width, scanString '"' fuel (s.flatMap Json.escapeChar ++ '"' :: rest) =
      some (units, width, rest) ∧ textOfUnits units = s := by
  suffices h : ∃ units width, scanString '"' fuel (s.flatMap Json.escapeChar ++ '"' :: rest) =
      some (units, width, rest) ∧ units.any TextUnit.isSurrogate = false ∧
        plainText units = s by
    obtain ⟨units, width, hscan, hplain, htext⟩ := h
    exact ⟨units, width, hscan, by rw [textOfUnits, hplain, if_neg (by decide), htext]⟩
  induction s generalizing fuel with
  | nil =>
    obtain ⟨fuel, rfl⟩ := Nat.exists_eq_add_of_lt hfuel
    exact ⟨[], 1, rfl, rfl, rfl⟩
  | cons c s ih =>
    obtain ⟨fuel, rfl⟩ : ∃ k, fuel = k + 1 := ⟨fuel - 1, by omega⟩
    rw [List.flatMap_cons, List.length_append] at hfuel
    rw [List.flatMap_cons, List.append_assoc]
    obtain ⟨hbare, he⟩ | ⟨escape, u, width, he, hu, hread⟩ := escapeChar_reads c
    · rw [he, List.length_singleton] at hfuel
      obtain ⟨units, w, hscan, hplain, htext⟩ := ih (show _ < fuel by omega)
      obtain ⟨⟨⟨hquote, hslash⟩, hfeed⟩, hreturn⟩ :
          ((c ≠ '"' ∧ c ≠ '\\') ∧ c ≠ '\n') ∧ c ≠ '\r' := by
        simpa [isBare] using hbare
      refine ⟨.char c :: units, c.utf8Size + w, ?_, hplain, by rw [plainText, htext]⟩
      rw [he, List.singleton_append, scanString, hscan]
      simp [hquote, hslash, hfeed, hreturn]
    · rw [he, List.length_cons] at hfuel
      obtain ⟨units, w, hscan, hplain, htext⟩ := ih (show _ < fuel by omega)
      refine ⟨u :: units, 1 + width + w, ?_, ?_, ?_⟩
      · rw [he, List.cons_append, scanString, hread, Option.bind_eq_bind, Option.bind_some]
        dsimp only
        rw [hscan]
        rfl
      · rw [List.any_cons, hplain, Bool.or_false]
        rcases hu with rfl | rfl <;> rfl
      · rcases hu with rfl | rfl <;> rw [plainText, htext]

/-- A quoted text is a string of the text. -/
theorem spells_quoted (s : String) (h : Spells rest us tail) :
    Spells ('"' :: (s.toList.flatMap Json.escapeChar ++ '"' :: rest)) (.str s :: us) tail := by
  have hlength : (s.toList.flatMap Json.escapeChar ++ '"' :: rest).length =
      (s.toList.flatMap Json.escapeChar).length + (rest.length + 1) := List.length_append
  obtain ⟨units, width, hscan, htext⟩ := scanString_quoted s.toList rest
    (show (s.toList.flatMap Json.escapeChar).length <
      (s.toList.flatMap Json.escapeChar ++ '"' :: rest).length + 1 by omega)
  have hspells := spells_scanned (.inl rfl) hscan (by omega) h
  rwa [htext, String.ofList_toList] at hspells

end UiTemplate.Script
