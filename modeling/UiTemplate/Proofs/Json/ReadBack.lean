import Mathlib.Data.List.Basic
import Mathlib.Data.List.TakeWhile
import UiTemplate.Json.Fields
import UiTemplate.Json.Printer
import UiTemplate.Json.Reader

/-!
# Printed JSON read again

- `Decimal.spanDigits_append`: digits are taken up to the first other character.
- `Json.readString_quoted`: a quoted text is read as the text.
- `Json.readNumber_natText`: a number of 64 bits is read as the number.
- `Json.read?_compact`: the compact text of a value whose numbers are of this kind is read as the
  value.
- `Json.areVisible_compact`: there is no control character in the text of a value without numbers.
-/

namespace UiTemplate

/-! ## Digits -/

namespace Decimal

theorem digit?_eq (c : Char) :
    digit? c = if c.isDigit = true then some (c.toNat - '0'.toNat) else none := by
  have hiff : ('0' ≤ c && c ≤ '9') = c.isDigit := by
    simp only [Char.isDigit, Char.le_def, ge_iff_le]
  rw [digit?, hiff]

theorem isSome_digit? (c : Char) : (digit? c).isSome = c.isDigit := by
  rw [digit?_eq]
  by_cases h : c.isDigit = true <;> simp [h]

/-- Digits are taken up to the first character that is none. -/
theorem spanDigits_append {cs after : List Char} (h : ∀ c ∈ cs, c.isDigit = true)
    (hafter : ∀ c ∈ after.head?, c.isDigit = false) :
    spanDigits (cs ++ after) = (cs.map fun c => c.toNat - '0'.toNat, after) := by
  have hrun : (cs ++ after).takeWhile Char.isDigit = cs := by
    rw [List.takeWhile_append_of_pos h]
    cases after with
    | nil => exact List.append_nil cs
    | cons c after =>
      rw [List.takeWhile_cons_of_neg (by simp [hafter c rfl]), List.append_nil]
  simp only [spanDigits, isSome_digit?, hrun, List.drop_left, Prod.mk.injEq, and_true]
  rw [← List.filterMap_eq_map]
  refine List.filterMap_congr fun c hc => ?_
  rw [digit?_eq, if_pos (h c hc)]
  rfl

/-- The number that digits spell. -/
theorem ofDigits_map (cs : List Char) :
    ofDigits 10 (cs.map fun c => c.toNat - '0'.toNat) = Nat.ofDigitChars 10 cs 0 := by
  rw [ofDigits, List.foldl_map, Nat.ofDigitChars_eq_foldl]
  simp only [Nat.mul_comm]

theorem exists_digitChar {c : Char} (h : c.isDigit = true) : ∃ d < 10, c = d.digitChar := by
  simp only [Char.isDigit, Bool.and_eq_true, decide_eq_true_eq, UInt32.le_iff_toNat_le] at h
  change 48 ≤ c.toNat ∧ c.toNat ≤ 57 at h
  have hlt : c.toNat - 48 < 10 := by omega
  refine ⟨c.toNat - 48, hlt, Char.toNat_inj.mp ?_⟩
  rw [Nat.toNat_digitChar_of_lt_ten hlt]
  omega

/-- A number of several digits does not begin with a zero. -/
theorem head?_toDigits {n : Nat} (h : 10 ≤ n) : (Nat.toDigits 10 n).head? ≠ some '0' := by
  induction n using Nat.strongRecOn with
  | _ n ih =>
    have hne : Nat.toDigits 10 (n / 10) ≠ [] := Nat.toDigits_ne_nil
    rw [Nat.toDigits_of_base_le (by decide) h, List.head?_append,
      List.head?_eq_some_head hne, Option.some_or, ← List.head?_eq_some_head hne]
    by_cases hlt : n / 10 < 10
    · have hpos : n / 10 ≠ 0 := by omega
      rw [Nat.toDigits_of_lt_base hlt]
      simpa using hpos
    · exact ih (n / 10) (by omega) (by omega)

end Decimal

namespace Json

open Decimal

/-! ## Strings -/

/-- No control character is among the characters. -/
def AreVisible (cs : List Char) : Prop :=
  ∀ c ∈ cs, 32 ≤ c.toNat

theorem AreVisible.append {cs ds : List Char} (h : AreVisible cs) (h' : AreVisible ds) :
    AreVisible (cs ++ ds) :=
  List.forall_mem_append.mpr ⟨h, h'⟩

theorem AreVisible.cons {c : Char} {cs : List Char} (hc : 32 ≤ c.toNat) (h : AreVisible cs) :
    AreVisible (c :: cs) :=
  List.forall_mem_cons.mpr ⟨hc, h⟩

theorem AreVisible.singleton {c : Char} (hc : 32 ≤ c.toNat) : AreVisible [c] :=
  List.forall_mem_singleton.mpr hc

theorem AreVisible.of_all {cs : List Char} (h : cs.all (fun c => 32 ≤ c.toNat) = true) :
    AreVisible cs :=
  fun c hc => of_decide_eq_true (List.all_eq_true.mp h c hc)

theorem toNat_hexDigit : ∀ d < 16, 32 ≤ (hexDigit d).toNat := by
  decide

/-- An escape is written in visible characters. -/
theorem areVisible_unicodeEscape (code : Nat) : AreVisible (unicodeEscape code) := by
  have hd (n : Nat) : 32 ≤ (hexDigit (n % 16)).toNat := toNat_hexDigit _ (Nat.mod_lt n (by decide))
  exact .cons (by decide) (.cons (by decide)
    (.cons (hd _) (.cons (hd _) (.cons (hd _) (.singleton (hd _))))))

/-- A hexadecimal digit is read as its value. -/
theorem hexValue?_hexDigit : ∀ d < 16, hexValue? (hexDigit d) = some d := by
  decide

/-- The four digits of an escape are read as its code. -/
theorem readHex4_unicodeEscape {code : Nat} (h : code < 0x10000) (after : List Char) :
    readHex4 ((unicodeEscape code).drop 2 ++ after) = some (code, after) := by
  have hd (n : Nat) : hexValue? (hexDigit (n % 16)) = some (n % 16) :=
    hexValue?_hexDigit _ (Nat.mod_lt n (by decide))
  have hcode : code / 4096 % 16 * 4096 + code / 256 % 16 * 256 + code / 16 % 16 * 16 + code % 16 =
      code := by omega
  simp [unicodeEscape, readHex4, hd, hcode]

/-- A character that stands for itself between quotes. -/
def IsPlainChar (c : Char) : Prop :=
  c ≠ '"' ∧ c ≠ '\\' ∧ 32 ≤ c.toNat

/-- A character is written as it is, or as an escape that stands for it. -/
theorem escapeChar_cases (c : Char) :
    (IsPlainChar c ∧ escapeChar c = [c]) ∨
      ∃ escape, escapeChar c = '\\' :: escape ∧ AreVisible escape ∧
        ∀ after, readEscape (escape ++ after) = some (c, after) := by
  have hc : Char.ofNat c.toNat = c := Char.ofNat_toNat c
  unfold escapeChar
  split
  · exact .inr ⟨['"'], rfl, .singleton (by decide), fun after => by rw [‹c = '"'›]; rfl⟩
  split
  · exact .inr ⟨['\\'], rfl, .singleton (by decide), fun after => by rw [‹c = '\\'›]; rfl⟩
  split
  · exact .inr ⟨['n'], rfl, .singleton (by decide), fun after => by rw [‹c = '\n'›]; rfl⟩
  split
  · exact .inr ⟨['r'], rfl, .singleton (by decide), fun after => by rw [‹c = '\r'›]; rfl⟩
  split
  · exact .inr ⟨['t'], rfl, .singleton (by decide), fun after => by rw [‹c = '\t'›]; rfl⟩
  split
  · exact .inr ⟨['b'], rfl, .singleton (by decide), fun after => by rw [← hc, ‹c.toNat = 8›]; rfl⟩
  split
  · exact .inr ⟨['f'], rfl, .singleton (by decide), fun after => by rw [← hc, ‹c.toNat = 12›]; rfl⟩
  split
  · rename_i hcontrol
    have hvisible := (List.forall_mem_cons.mp (areVisible_unicodeEscape c.toNat)).2
    refine .inr ⟨'u' :: (unicodeEscape c.toNat).drop 2, rfl, hvisible, fun after => ?_⟩
    have hbasic : c.toNat < 0xD800 := by omega
    show (readHex4 ((unicodeEscape c.toNat).drop 2 ++ after) >>= _) = _
    rw [readHex4_unicodeEscape (by omega)]
    simp [hbasic, hc]
  · rename_i hquote hslash _ _ _ _ _ hcontrol
    exact .inl ⟨⟨hquote, hslash, by omega⟩, rfl⟩

theorem areVisible_escapeChar (c : Char) : AreVisible (escapeChar c) := by
  obtain ⟨hplain, he⟩ | ⟨escape, he, hvisible, -⟩ := escapeChar_cases c
  · rw [he]
    exact .singleton hplain.2.2
  · rw [he]
    exact .cons (by decide) hvisible

/-- A quoted text is read as the text. -/
theorem readString_quoted (s after : List Char) {fuel : Nat}
    (hf : (s.flatMap escapeChar).length < fuel) :
    readString fuel (s.flatMap escapeChar ++ '"' :: after) = some (s, after) := by
  induction s generalizing fuel with
  | nil =>
    obtain ⟨fuel, rfl⟩ := Nat.exists_eq_add_of_lt hf
    simp [readString]
  | cons c s ih =>
    obtain ⟨fuel, rfl⟩ : ∃ n, fuel = n + 1 := ⟨fuel - 1, by omega⟩
    rw [List.flatMap_cons, List.length_append] at hf
    rw [List.flatMap_cons, List.append_assoc]
    obtain ⟨⟨hquote, hslash, hcontrol⟩, he⟩ | ⟨escape, he, -, hread⟩ := escapeChar_cases c
    · rw [he, List.length_singleton] at hf
      rw [he, List.singleton_append, readString, if_neg hquote, if_neg hslash,
        if_neg (Nat.not_lt.mpr hcontrol), ih (by omega)]
      rfl
    · rw [he, List.length_cons] at hf
      rw [he, List.cons_append, readString, if_neg (by decide), if_pos rfl, hread]
      show (readString fuel _ >>= _) = _
      rw [ih (by omega)]
      rfl

/-! ## Values -/

mutual

/-- No number occurs in the value. -/
def IsNumberless : Json → Prop
  | .int _ => False
  | .float _ => False
  | .arr items => AreNumberless items
  | .obj entries => HaveNumberless entries
  | _ => True

/-- No number occurs in the items. -/
def AreNumberless : List Json → Prop
  | [] => True
  | v :: rest => v.IsNumberless ∧ AreNumberless rest

/-- No number occurs in the values of the entries. -/
def HaveNumberless : List (String × Json) → Prop
  | [] => True
  | (_, v) :: rest => v.IsNumberless ∧ HaveNumberless rest

end

mutual

/-- Every number in the value is a natural number of 64 bits. -/
def HasWords : Json → Prop
  | .int n => 0 ≤ n ∧ n ≤ word
  | .float _ => False
  | .arr items => HaveWords items
  | .obj entries => FieldsHaveWords entries
  | _ => True

/-- So is every number in the items. -/
def HaveWords : List Json → Prop
  | [] => True
  | v :: rest => v.HasWords ∧ HaveWords rest

/-- So is every number in the values of the entries. -/
def FieldsHaveWords : List (String × Json) → Prop
  | [] => True
  | (_, v) :: rest => v.HasWords ∧ FieldsHaveWords rest

end

mutual

/-- A value without numbers has no others. -/
theorem IsNumberless.hasWords (v : Json) (h : v.IsNumberless) : v.HasWords := by
  match v with
  | .null | .bool _ | .str _ => trivial
  | .int _ => exact h.elim
  | .float _ => exact h.elim
  | .arr items => exact AreNumberless.haveWords items h
  | .obj entries => exact HaveNumberless.fieldsHaveWords entries h

theorem AreNumberless.haveWords (items : List Json) (h : AreNumberless items) :
    HaveWords items := by
  match items with
  | [] => trivial
  | v :: rest => exact ⟨IsNumberless.hasWords v h.1, AreNumberless.haveWords rest h.2⟩

theorem HaveNumberless.fieldsHaveWords (entries : List (String × Json))
    (h : HaveNumberless entries) : FieldsHaveWords entries := by
  match entries with
  | [] => trivial
  | (_, v) :: rest => exact ⟨IsNumberless.hasWords v h.1, HaveNumberless.fieldsHaveWords rest h.2⟩

end

/-! ## Values that are put together -/

theorem fieldsHaveWords_insert {key : String} {v : Json} {entries : List (String × Json)}
    (hv : v.HasWords) (h : FieldsHaveWords entries) : FieldsHaveWords (insert key v entries) := by
  induction entries with
  | nil => exact ⟨hv, trivial⟩
  | cons entry entries ih =>
    obtain ⟨k, u⟩ := entry
    rw [insert]
    split
    · exact ⟨hv, h⟩
    · split
      · exact ⟨hv, h.2⟩
      · exact ⟨h.1, ih h.2⟩

/-- An object has words if its fields do. -/
theorem hasWords_ofFields {fields : List (String × Json)} (h : FieldsHaveWords fields) :
    (ofFields fields).HasWords := by
  have hfold (entries : List (String × Json)) (hentries : FieldsHaveWords entries) :
      FieldsHaveWords (fields.foldl (fun es f => insert f.1 f.2 es) entries) := by
    induction fields generalizing entries with
    | nil => exact hentries
    | cons f fields ih => exact ih h.2 _ (fieldsHaveWords_insert h.1 hentries)
  exact hfold [] trivial

/-- Items have words if each of them does. -/
theorem haveWords_iff {items : List Json} : HaveWords items ↔ ∀ v ∈ items, v.HasWords := by
  induction items with
  | nil => exact iff_of_true trivial nofun
  | cons v items ih => rw [HaveWords, ih, List.forall_mem_cons]

theorem hasWords_ofList {α : Type} {encode : α → Json} {as : List α}
    (h : ∀ a ∈ as, (encode a).HasWords) : (ofList encode as).HasWords :=
  haveWords_iff.mpr (List.forall_mem_map.mpr h)

theorem hasWords_ofOption {α : Type} {encode : α → Json} {o : Option α}
    (h : ∀ a ∈ o, (encode a).HasWords) : (ofOption encode o).HasWords := by
  cases o with
  | none => trivial
  | some a => exact h a rfl

theorem hasWords_ofOption_str (o : Option String) : (ofOption .str o).HasWords :=
  hasWords_ofOption fun _ _ => trivial

theorem hasWords_nat {n : Nat} (h : n ≤ word) : (Json.nat n).HasWords :=
  ⟨Int.natCast_nonneg n, Int.ofNat_le.mpr h⟩

/-! ## Steps of the reader -/

section Steps

variable {fuel : Nat} {rest after : List Char}

theorem skipBlanks_cons {c : Char} (h : ¬(c == ' ' || c == '\t' || c == '\n' || c == '\r'))
    (cs : List Char) : skipBlanks (c :: cs) = c :: cs :=
  List.dropWhile_cons_of_neg h

/-- What a quote opens is a string. -/
theorem readValue_quote {s : List Char} (h : readString (rest.length + 1) rest = some (s, after)) :
    readValue (fuel + 1) ('"' :: rest) = some (.str (String.ofList s), after) := by
  rw [readValue]
  show (readString (rest.length + 1) rest >>= _) = _
  rw [h]
  rfl

/-- What a bracket opens is an array, unless it is closed at once. -/
theorem readValue_bracket {items : List Json} (hskip : skipBlanks rest = rest)
    (hopen : ∀ cs, rest ≠ ']' :: cs) (h : readItems fuel rest = some (items, after)) :
    readValue (fuel + 1) ('[' :: rest) = some (.arr items, after) := by
  conv => lhs; whnf
  rw [hskip]
  split
  · exact absurd rfl (hopen _)
  · rw [h]
    rfl

/-- What a brace opens is an object, unless it is closed at once. -/
theorem readValue_brace {entries : List (String × Json)} (hskip : skipBlanks rest = rest)
    (hopen : ∀ cs, rest ≠ '\x7d' :: cs) (h : readEntries fuel rest = some (entries, after)) :
    readValue (fuel + 1) ('\x7b' :: rest) = some (.obj entries, after) := by
  conv => lhs; whnf
  rw [hskip]
  split
  · exact absurd rfl (hopen _)
  · rw [h]
    rfl

/-- An item before the closing bracket is the last one. -/
theorem readItems_last {v : Json} (h : readValue fuel rest = some (v, ']' :: after)) :
    readItems (fuel + 1) rest = some ([v], after) := by
  rw [readItems, h]
  rfl

/-- Items go on behind a comma. -/
theorem readItems_more {v : Json} {vs : List Json} {rest' : List Char}
    (h : readValue fuel rest = some (v, ',' :: rest'))
    (h' : readItems fuel rest' = some (vs, after)) :
    readItems (fuel + 1) rest = some (v :: vs, after) := by
  rw [readItems, h]
  show (readItems fuel rest' >>= _) = _
  rw [h']
  rfl

/-- An entry starts with its key and a colon. -/
theorem readEntries_key {key rest' : List Char}
    (hkey : readString (rest.length + 1) rest = some (key, ':' :: rest')) :
    readEntries (fuel + 1) ('"' :: rest) = (do
      let (v, rest) ← readValue fuel rest'
      match skipBlanks rest with
      | ',' :: rest => do
        let (es, rest) ← readEntries fuel rest
        some ((String.ofList key, v) :: es, rest)
      | '\x7d' :: rest => some ([(String.ofList key, v)], rest)
      | _ => none) := by
  rw [readEntries]
  show (readString (rest.length + 1) rest >>= _) = _
  rw [hkey]
  rfl

/-- An entry before the closing brace is the last one. -/
theorem readEntries_last {key rest' : List Char} {v : Json}
    (hkey : readString (rest.length + 1) rest = some (key, ':' :: rest'))
    (h : readValue fuel rest' = some (v, '\x7d' :: after)) :
    readEntries (fuel + 1) ('"' :: rest) = some ([(String.ofList key, v)], after) := by
  rw [readEntries_key hkey, h]
  rfl

/-- Entries go on behind a comma. -/
theorem readEntries_more {key rest' rest'' : List Char} {v : Json} {es : List (String × Json)}
    (hkey : readString (rest.length + 1) rest = some (key, ':' :: rest'))
    (h : readValue fuel rest' = some (v, ',' :: rest''))
    (h' : readEntries fuel rest'' = some (es, after)) :
    readEntries (fuel + 1) ('"' :: rest) = some ((String.ofList key, v) :: es, after) := by
  rw [readEntries_key hkey, h]
  show (readEntries fuel rest'' >>= _) = _
  rw [h']
  rfl

end Steps

/-! ## Numbers -/

/-- What may stand behind a value: the end of the text, or what goes on or closes. -/
def EndsValue (after : List Char) : Prop :=
  ∀ c ∈ after.head?, c = ',' ∨ c = ']' ∨ c = '\x7d'

theorem EndsValue.nil : EndsValue [] :=
  nofun

theorem EndsValue.cons {c : Char} (h : c = ',' ∨ c = ']' ∨ c = '\x7d') (cs : List Char) :
    EndsValue (c :: cs) := by
  rintro d ⟨⟩
  exact h

/-- No value goes on with what ends one. -/
theorem EndsValue.any_eq_false {after : List Char} (h : EndsValue after) {p : Char → Bool}
    (hp : [',', ']', '\x7d'].all (fun c => !p c) = true) : ∀ c ∈ after.head?, p c = false := by
  intro c hc
  have hall := List.all_eq_true.mp hp c
  rcases h c hc with rfl | rfl | rfl <;> simpa using hall (by decide)

/-- The text of a number of 64 bits is read as the number. -/
theorem readNumber_natText {n : Nat} (hn : n ≤ word) {after : List Char} (h : EndsValue after) :
    readNumber ((natText n).toList ++ after) = some (.int n, after) := by
  have hdigits : ∀ c ∈ Nat.toDigits 10 n, c.isDigit = true := fun c hc =>
    Nat.isDigit_of_mem_toDigits (by decide) (by decide) hc
  have hspan := spanDigits_append hdigits (h.any_eq_false (by decide))
  obtain ⟨c, cs, hc⟩ := List.exists_cons_of_ne_nil (Nat.toDigits_ne_nil (n := n) (b := 10))
  have hminus : ∀ rest, Nat.toDigits 10 n ++ after ≠ '-' :: rest := by
    rintro rest heq
    rw [hc, List.cons_append] at heq
    have hfirst := hdigits c (hc ▸ List.mem_cons_self)
    rw [(List.cons.inj heq).1] at hfirst
    exact absurd hfirst (by decide)
  have hvalue : ofDigits 10 ((Nat.toDigits 10 n).map fun c => c.toNat - '0'.toNat) = n := by
    rw [ofDigits_map, Nat.ofDigitChars_ten_toDigits]
  have hwhole : wholeNumber false ((Nat.toDigits 10 n).map fun c => c.toNat - '0'.toNat) =
      some (.int n) := by
    rw [wholeNumber, hvalue]
    simp [hn]
  -- Of the numbers with more than one digit none starts with a zero.
  have hzero : (decide (((Nat.toDigits 10 n).map fun c => c.toNat - '0'.toNat).length > 1) &&
      ((Nat.toDigits 10 n).map fun c => c.toNat - '0'.toNat).head? == some 0) = false := by
    by_contra htrue
    rw [Bool.not_eq_false, Bool.and_eq_true, decide_eq_true_eq, beq_iff_eq, List.length_map] at htrue
    obtain ⟨hlength, hhead⟩ := htrue
    have hten : 10 ≤ n := by
      by_contra hlt
      rw [Nat.toDigits_of_lt_base (by omega), List.length_singleton] at hlength
      omega
    refine head?_toDigits hten ?_
    obtain ⟨d, hd, rfl⟩ := exists_digitChar (hdigits c (hc ▸ List.mem_cons_self))
    rw [hc, List.map_cons, List.head?_cons, Nat.toNat_digitChar_of_lt_ten hd,
      Option.some.injEq] at hhead
    obtain rfl : d = 0 := by
      have hcode : '0'.toNat = 48 := rfl
      omega
    rw [hc]
    rfl
  have hdone : ((wholeNumber false ((Nat.toDigits 10 n).map fun c => c.toNat - '0'.toNat)).map
      fun v => (v, after)) = some (.int n, after) := by
    rw [hwhole]
    rfl
  rw [natText, String.toList_ofList]
  unfold readNumber
  split
  rename_i hsign
  split at hsign
  · exact absurd ‹_› (hminus _)
  cases hsign
  rw [hspan]
  dsimp only
  rw [hzero, if_neg (by simp [hc])]
  rcases after with - | ⟨d, after⟩
  · exact hdone
  · rcases h d rfl with rfl | rfl | rfl <;> exact hdone

/-- The text of a number starts with a digit. -/
theorem natText_starts (n : Nat) :
    ∃ c cs, (natText n).toList = c :: cs ∧ c.isDigit = true := by
  obtain ⟨c, cs, hc⟩ := List.exists_cons_of_ne_nil (Nat.toDigits_ne_nil (n := n) (b := 10))
  refine ⟨c, cs, String.toList_ofList.trans hc, ?_⟩
  exact Nat.isDigit_of_mem_toDigits (by decide) (by decide) (hc ▸ List.mem_cons_self)

theorem skipBlanks_digit {c : Char} (h : c.isDigit = true) (cs : List Char) :
    skipBlanks (c :: cs) = c :: cs := by
  obtain ⟨d, hd, rfl⟩ := exists_digitChar h
  refine skipBlanks_cons ?_ cs
  revert d
  decide

/-- A number is read as a value. -/
theorem readValue_natText {fuel n : Nat} (hn : n ≤ word) {after : List Char}
    (h : EndsValue after) :
    readValue (fuel + 1) ((natText n).toList ++ after) = some (.int n, after) := by
  have hread := readNumber_natText hn h
  obtain ⟨c, cs, hc, hdigit⟩ := natText_starts n
  rw [hc, List.cons_append] at hread ⊢
  rw [readValue, skipBlanks_digit hdigit]
  have hother {d : Char} {rest : List Char} (heq : c :: (cs ++ after) = d :: rest) :
      d.isDigit = true := (List.cons.inj heq).1 ▸ hdigit
  split
  · exact absurd (hother ‹_›) (by decide)
  · exact absurd (hother ‹_›) (by decide)
  · exact absurd (hother ‹_›) (by decide)
  · exact absurd (hother ‹_›) (by decide)
  · exact absurd (hother ‹_›) (by decide)
  · exact absurd (hother ‹_›) (by decide)
  · exact hread
/-! ## Printed values -/

theorem toList_quoted (s : String) :
    (quoted s).toList = '"' :: (s.toList.flatMap escapeChar ++ ['"']) :=
  String.toList_ofList

theorem readString_toList (s : String) (after : List Char) :
    readString ((s.toList.flatMap escapeChar ++ '"' :: after).length + 1)
      (s.toList.flatMap escapeChar ++ '"' :: after) = some (s.toList, after) := by
  refine readString_quoted s.toList after ?_
  rw [List.length_append]
  omega

theorem toList_compact_arr (items : List Json) :
    (Json.arr items).compact.toList = '[' :: ((compactItems quoted items).toList ++ [']']) := by
  simp [compact, compactWith]

theorem toList_compact_obj (entries : List (String × Json)) :
    (Json.obj entries).compact.toList =
      '\x7b' :: ((compactEntries quoted entries).toList ++ ['\x7d']) := by
  simp [compact, compactWith]

/-- A value starts with a character that is no white space and ends nothing. -/
theorem compact_starts {v : Json} (hv : v.HasWords) :
    ∃ c cs, v.compact.toList = c :: cs ∧ c ≠ ']' ∧ ∀ cs, skipBlanks (c :: cs) = c :: cs := by
  have starts (c : Char) (cs : List Char) (h : v.compact.toList = c :: cs) (hc : c ≠ ']')
      (hb : ¬(c == ' ' || c == '\t' || c == '\n' || c == '\r')) :
      ∃ c cs, v.compact.toList = c :: cs ∧ c ≠ ']' ∧ ∀ cs, skipBlanks (c :: cs) = c :: cs :=
    ⟨c, cs, h, hc, skipBlanks_cons hb⟩
  cases v with
  | null => exact starts 'n' _ rfl (by decide) (by decide)
  | bool b => cases b with
    | true => exact starts 't' _ rfl (by decide) (by decide)
    | false => exact starts 'f' _ rfl (by decide) (by decide)
  | int n =>
    obtain ⟨k, rfl⟩ := Int.eq_ofNat_of_zero_le hv.1
    obtain ⟨c, cs, hc, hdigit⟩ := natText_starts k
    exact ⟨c, cs, hc, fun he => absurd (he ▸ hdigit) (by decide), skipBlanks_digit hdigit⟩
  | float x => exact hv.elim
  | str s => exact starts '"' _ (toList_quoted s) (by decide) (by decide)
  | arr items => exact starts '[' _ (toList_compact_arr items) (by decide) (by decide)
  | obj entries => exact starts '\x7b' _ (toList_compact_obj entries) (by decide) (by decide)

theorem toList_compactItems_singleton (v : Json) :
    (compactItems quoted [v]).toList = v.compact.toList :=
  rfl

theorem toList_compactItems (v w : Json) (rest : List Json) :
    (compactItems quoted (v :: w :: rest)).toList =
      v.compact.toList ++ ',' :: (compactItems quoted (w :: rest)).toList := by
  simp [compactItems, compact]

theorem toList_compactEntries_singleton (k : String) (v : Json) :
    (compactEntries quoted [(k, v)]).toList =
      '"' :: (k.toList.flatMap escapeChar ++ '"' :: ':' :: v.compact.toList) := by
  simp [compactEntries, compact, toList_quoted]

theorem toList_compactEntries (k : String) (v : Json) (e : String × Json)
    (rest : List (String × Json)) :
    (compactEntries quoted ((k, v) :: e :: rest)).toList =
      '"' :: (k.toList.flatMap escapeChar ++ '"' :: ':' :: (v.compact.toList ++
        ',' :: (compactEntries quoted (e :: rest)).toList)) := by
  simp [compactEntries, compact, toList_quoted]

/-- The first item of an array does not close it. -/
theorem compactItems_starts {v : Json} (hv : v.HasWords) (rest : List Json) :
    ∃ c cs, (compactItems quoted (v :: rest)).toList = c :: cs ∧ c ≠ ']' ∧
      ∀ cs, skipBlanks (c :: cs) = c :: cs := by
  obtain ⟨c, cs, hc, hopen, hskip⟩ := compact_starts hv
  cases rest with
  | nil => exact ⟨c, cs, hc, hopen, hskip⟩
  | cons w rest => exact ⟨c, _, by rw [toList_compactItems, hc, List.cons_append], hopen, hskip⟩

/-- Entries start with the quote of a key. -/
theorem compactEntries_starts (e : String × Json) (rest : List (String × Json)) :
    ∃ cs, (compactEntries quoted (e :: rest)).toList = '"' :: cs := by
  cases rest with
  | nil => exact ⟨_, toList_compactEntries_singleton e.1 e.2⟩
  | cons e' rest => exact ⟨_, toList_compactEntries e.1 e.2 e' rest⟩

mutual

/-- The text of a value is read as the value, if what stands behind it ends it. -/
theorem readValue_compact (v : Json) (hv : v.HasWords) {fuel : Nat}
    (hf : v.compact.toList.length < fuel) {after : List Char} (hafter : EndsValue after) :
    readValue fuel (v.compact.toList ++ after) = some (v, after) := by
  obtain ⟨fuel, rfl⟩ : ∃ n, fuel = n + 1 := ⟨fuel - 1, by omega⟩
  cases v with
  | null => rfl
  | bool b => cases b <;> rfl
  | int n =>
    obtain ⟨k, rfl⟩ := Int.eq_ofNat_of_zero_le hv.1
    exact readValue_natText (Int.ofNat_le.mp hv.2) hafter
  | float x => exact hv.elim
  | str s =>
    have htext : (Json.str s).compact.toList ++ after =
        '"' :: (s.toList.flatMap escapeChar ++ '"' :: after) := by
      simp [compact, compactWith, toList_quoted]
    rw [htext, readValue_quote (readString_toList s after), String.ofList_toList]
  | arr items =>
    cases items with
    | nil => rfl
    | cons w items =>
      rw [toList_compact_arr, List.length_cons, List.length_append, List.length_singleton] at hf
      rw [toList_compact_arr, List.cons_append, List.append_assoc, List.singleton_append]
      have hread := readItems_compact (w :: items) (by simp) hv (show _ < fuel by omega) after
      -- The first item does not close the array.
      obtain ⟨c, cs, hc, hopen, hskip⟩ := compactItems_starts hv.1 items
      rw [hc, List.cons_append] at hread ⊢
      exact readValue_bracket (hskip _) (fun _ h => hopen (List.cons.inj h).1) hread
  | obj entries =>
    cases entries with
    | nil => rfl
    | cons e entries =>
      rw [toList_compact_obj, List.length_cons, List.length_append, List.length_singleton] at hf
      rw [toList_compact_obj, List.cons_append, List.append_assoc, List.singleton_append]
      have hread := readEntries_compact (e :: entries) (by simp) hv (show _ < fuel by omega) after
      obtain ⟨cs, hc⟩ := compactEntries_starts e entries
      rw [hc, List.cons_append] at hread ⊢
      refine readValue_brace (skipBlanks_cons (by decide) _) (fun _ h => ?_) hread
      exact absurd (List.cons.inj h).1 (by decide)

/-- The text of items is read as the items, up to the bracket that closes them. -/
theorem readItems_compact (items : List Json) (hne : items ≠ []) (hv : HaveWords items)
    {fuel : Nat} (hf : (compactItems quoted items).toList.length + 1 < fuel) (after : List Char) :
    readItems fuel ((compactItems quoted items).toList ++ ']' :: after) = some (items, after) := by
  obtain ⟨fuel, rfl⟩ : ∃ n, fuel = n + 1 := ⟨fuel - 1, by omega⟩
  match items with
  | [] => exact absurd rfl hne
  | [v] =>
    rw [toList_compactItems_singleton] at hf ⊢
    exact readItems_last (readValue_compact v hv.1 (by omega) (.cons (by decide) _))
  | v :: w :: rest =>
    rw [toList_compactItems, List.length_append, List.length_cons] at hf
    rw [toList_compactItems, List.append_assoc, List.cons_append]
    exact readItems_more (readValue_compact v hv.1 (by omega) (.cons (by decide) _))
      (readItems_compact (w :: rest) (by simp) hv.2 (by omega) after)

/-- The text of entries is read as the entries, up to the brace that closes them. -/
theorem readEntries_compact (entries : List (String × Json)) (hne : entries ≠ [])
    (hv : FieldsHaveWords entries) {fuel : Nat}
    (hf : (compactEntries quoted entries).toList.length < fuel) (after : List Char) :
    readEntries fuel ((compactEntries quoted entries).toList ++ '\x7d' :: after) =
      some (entries, after) := by
  obtain ⟨fuel, rfl⟩ : ∃ n, fuel = n + 1 := ⟨fuel - 1, by omega⟩
  rcases entries with - | ⟨⟨k, v⟩, - | ⟨e, rest⟩⟩
  · exact absurd rfl hne
  · rw [toList_compactEntries_singleton, List.length_cons, List.length_append, List.length_cons,
      List.length_cons] at hf
    have hvalue := readValue_compact v hv.1 (show _ < fuel by omega) (.cons (c := '\x7d') (by decide) after)
    have hread := readEntries_last (readString_toList k _) hvalue
    rw [String.ofList_toList] at hread
    rw [toList_compactEntries_singleton, List.cons_append, List.append_assoc]
    exact hread
  · rw [toList_compactEntries, List.length_cons, List.length_append, List.length_cons,
      List.length_cons, List.length_append, List.length_cons] at hf
    have hvalue := readValue_compact v hv.1 (show _ < fuel by omega)
      (.cons (c := ',') (by decide) ((compactEntries quoted (e :: rest)).toList ++ '\x7d' :: after))
    have hrest := readEntries_compact (e :: rest) (by simp) hv.2 (show _ < fuel by omega) after
    have hread := readEntries_more (readString_toList k _) hvalue hrest
    rw [String.ofList_toList] at hread
    rw [toList_compactEntries, List.cons_append, List.append_assoc, List.cons_append,
      List.cons_append, List.append_assoc, List.cons_append]
    exact hread

end

/-- **Printed JSON is read as what was printed.** -/
theorem read?_compact {v : Json} (hv : v.HasWords) : read? v.compact = some v := by
  have h := readValue_compact v hv (Nat.lt_succ_self _) EndsValue.nil
  rw [List.append_nil] at h
  unfold read?
  dsimp only
  rw [h]
  rfl

/-! ## Control characters -/

/-- A quoted key adds no control character. -/
theorem areVisible_key (k : String) {cs : List Char} (h : AreVisible cs) :
    AreVisible ('"' :: (k.toList.flatMap escapeChar ++ '"' :: cs)) := by
  refine .cons (by decide) (.append (fun c hc => ?_) (.cons (by decide) h))
  obtain ⟨d, -, hd⟩ := List.mem_flatMap.mp hc
  exact areVisible_escapeChar d c hd

mutual

/-- There is no control character in the text of a value. -/
theorem areVisible_compact (v : Json) (hv : v.IsNumberless) : AreVisible v.compact.toList := by
  cases v with
  | null => exact show AreVisible ['n', 'u', 'l', 'l'] from .of_all rfl
  | bool b => cases b with
    | true => exact show AreVisible ['t', 'r', 'u', 'e'] from .of_all rfl
    | false => exact show AreVisible ['f', 'a', 'l', 's', 'e'] from .of_all rfl
  | int n => exact hv.elim
  | float x => exact hv.elim
  | str s =>
    show AreVisible (quoted s).toList
    rw [toList_quoted]
    exact areVisible_key s (fun _ h => absurd h List.not_mem_nil)
  | arr items =>
    rw [toList_compact_arr]
    exact .cons (by decide) ((areVisible_compactItems items hv).append (.singleton (by decide)))
  | obj entries =>
    rw [toList_compact_obj]
    exact .cons (by decide) ((areVisible_compactEntries entries hv).append (.singleton (by decide)))

theorem areVisible_compactItems (items : List Json) (hv : AreNumberless items) :
    AreVisible (compactItems quoted items).toList := by
  rcases items with - | ⟨v, - | ⟨w, rest⟩⟩
  · exact fun _ h => absurd h List.not_mem_nil
  · exact areVisible_compact v hv.1
  · rw [toList_compactItems]
    exact .append (areVisible_compact v hv.1)
      (.cons (by decide) (areVisible_compactItems (w :: rest) hv.2))

theorem areVisible_compactEntries (entries : List (String × Json)) (hv : HaveNumberless entries) :
    AreVisible (compactEntries quoted entries).toList := by
  rcases entries with - | ⟨⟨k, v⟩, - | ⟨e, rest⟩⟩
  · exact fun _ h => absurd h List.not_mem_nil
  · rw [toList_compactEntries_singleton]
    exact areVisible_key k (.cons (by decide) (areVisible_compact v hv.1))
  · rw [toList_compactEntries]
    refine areVisible_key k (.cons (by decide) ((areVisible_compact v hv.1).append ?_))
    exact .cons (by decide) (areVisible_compactEntries (e :: rest) hv.2)

end

end Json

end UiTemplate
