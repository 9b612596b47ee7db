import Mathlib.Algebra.BigOperators.Group.List.Basic
import Mathlib.Data.List.TakeWhile
import UiTemplate.Proofs.Expression.Literal
import UiTemplate.Proofs.Expression.Source
import UiTemplate.Proofs.Script.Refusal
import UiTemplate.Template.LoopHead

/-!
# Plain names

The name of an item or an index may be made of more characters than an identifier, and it may be a
word that is no name. `Expression.isName_iff` says which of the texts that a loop head accepts are
read as an identifier. A name of plain characters is a word (`Code.isWordText_of_isPlainName`), and
no other is its own key in an object (`Code.fieldKey_eq_self`).
-/

namespace UiTemplate

open Text Script

/-! ## Characters of names -/

namespace LoopHead

/-- A text that a loop head accepts as a name. -/
def IsName (text : String) : Prop :=
  ∃ c cs, text.toList = c :: cs ∧ isNameStart c = true ∧ cs.all isNamePart = true

theorem toNat_lt_of_isNameStart {c : Char} (h : isNameStart c = true) : c.toNat < 128 := by
  rw [isNameStart, Bool.or_eq_true, Bool.or_eq_true, beq_iff_eq, beq_iff_eq] at h
  rcases h with (h | rfl) | rfl
  · change (c.isUpper || c.isLower) = true at h
    rcases Bool.or_eq_true_iff.mp h with h | h
    · have hupper : 65 ≤ c.toNat ∧ c.toNat ≤ 90 := of_decide_eq_true h
      omega
    · have hlower : c.toNat ≤ 122 := of_decide_eq_true (Bool.and_eq_true_iff.mp h).2
      omega
  all_goals decide

/-- The characters of ASCII by their kinds. -/
theorem ascii_kinds : ∀ n < 128,
    (isNameStart (Char.ofNat n) = true → isNamePart (Char.ofNat n) = true ∧
      isIdentStart (Char.ofNat n) = true ∧ (Char.ofNat n).isDigit = false ∧
      isSpace (Char.ofNat n) = false ∧ isLineEnd (Char.ofNat n) = false) ∧
    ((Char.ofNat n).isDigit = true → isNamePart (Char.ofNat n) = true ∧
      isIdentPart (Char.ofNat n) = true) ∧
    (isWord (Char.ofNat n) = true → isIdentPart (Char.ofNat n) = true) := by
  decide +kernel

/-- The first character of a name begins a word of a script. -/
theorem isNameStart_begins {c : Char} (h : isNameStart c = true) :
    isNamePart c = true ∧ isIdentStart c = true ∧ c.isDigit = false ∧ isSpace c = false ∧
      isLineEnd c = false := by
  have hkinds := ascii_kinds c.toNat (toNat_lt_of_isNameStart h)
  rw [Char.ofNat_toNat] at hkinds
  exact hkinds.1 h

theorem isIdentPart_of_isNameStart {c : Char} (h : isNameStart c = true) : isIdentPart c = true := by
  rw [isIdentPart, (isNameStart_begins h).2.1, Bool.true_or, Bool.true_or]

/-- A decimal digit may stand in a name and in an identifier. -/
theorem isDigit_part {c : Char} (h : c.isDigit = true) :
    isNamePart c = true ∧ isIdentPart c = true := by
  have hrange : 48 ≤ c.toNat ∧ c.toNat ≤ 57 := by
    rw [Char.isDigit, Bool.and_eq_true, decide_eq_true_eq, decide_eq_true_eq] at h
    exact h
  have hkinds := ascii_kinds c.toNat (by omega)
  rw [Char.ofNat_toNat] at hkinds
  exact hkinds.2.1 h

/-- The word characters of ASCII are characters of identifiers. -/
theorem isIdentPart_of_isWord {c : Char} (hc : c.toNat < 128) (h : isWord c = true) :
    isIdentPart c = true := by
  have hkinds := ascii_kinds c.toNat hc
  rw [Char.ofNat_toNat] at hkinds
  exact hkinds.2.2 h

/-- Blanks and line ends are no word characters. -/
theorem isWord_blank {c : Char} (h : (isBlank c || isSpace c || isLineEnd c) = true) :
    isWord c = false := by
  have hall : ∀ n ∈ List.range' 0x09 5 ++ [0x20, 0x85, 0xA0, 0x1680] ++ List.range' 0x2000 12 ++
      [0x2028, 0x2029, 0x202F, 0x205F, 0x3000, 0xFEFF], isWord (Char.ofNat n) = false := by
    decide +kernel
  rw [← Char.ofNat_toNat c]
  refine hall c.toNat ?_
  simp only [isBlank, isSpace, isLineEnd, Bool.or_eq_true, Bool.and_eq_true, decide_eq_true_eq,
    beq_iff_eq, ← Char.toNat_inj, Char.reduceToNat] at h
  simp only [List.mem_append, List.mem_range'_1, List.mem_cons, List.not_mem_nil, or_false]
  omega

theorem isBlank_eq_false_of_isNamePart {c : Char} (h : isNamePart c = true) :
    isBlank c = false := by
  rw [isNamePart, Bool.or_eq_true, beq_iff_eq] at h
  rcases h with h | rfl
  · by_contra hblank
    have := isWord_blank (c := c) (by simp_all)
    simp_all
  · decide

/-- A character that a name may have and an identifier may not is no token. -/
theorem next_invalid {c : Char} (h : isNamePart c = true) (hpart : isIdentPart c = false)
    (pos : Nat) (cs : List Char) : next pos (c :: cs) = (⟨.invalid, pos, pos, false⟩, []) := by
  have hword : isWord c = true := by
    rw [isNamePart, Bool.or_eq_true, beq_iff_eq] at h
    rcases h with h | rfl
    · exact h
    · exact absurd hpart (by decide)
  have hne {d : Char} (hd : d.toNat < 128) : c ≠ d := by
    rintro rfl
    rw [isIdentPart_of_isWord hd hword] at hpart
    exact nomatch hpart
  have hdigit : c.isDigit = false := by
    by_contra hd
    have hdigit := (isDigit_part (Bool.not_eq_false _ ▸ hd)).2
    rw [hpart] at hdigit
    exact nomatch hdigit
  have hblank : (isBlank c || isSpace c || isLineEnd c) = false := by
    by_contra hblank
    rw [isWord_blank (Bool.not_eq_false _ ▸ hblank)] at hword
    exact nomatch hword
  rw [Bool.or_eq_false_iff, Bool.or_eq_false_iff] at hblank
  have hstart : isIdentStart c = false := by
    rw [isIdentPart, Bool.or_eq_false_iff, Bool.or_eq_false_iff] at hpart
    exact hpart.1.1
  -- Every punctuator starts with an ASCII character, and `c` is none: among these the parts of
  -- names are parts of identifiers.
  have hpunct : scanPunct (c :: cs) = none := by
    have hfirst : Punct.spellings.all (fun p => p.1.head?.any (·.toNat < 128)) = true := by decide
    have hspellings : Punct.spellings.find? (fun p => p.1.isPrefixOf (c :: cs)) = none := by
      rw [List.find?_eq_none]
      intro p hp hprefix
      have hascii := List.all_eq_true.mp hfirst p hp
      cases hpd : p.1 with
      | nil =>
        rw [hpd] at hascii
        cases hascii
      | cons d ds =>
        rw [hpd] at hascii hprefix
        rw [List.isPrefixOf, Bool.and_eq_true, beq_iff_eq] at hprefix
        exact hne (of_decide_eq_true hascii) hprefix.1.symm
    rw [scanPunct]
    · rw [hspellings]
      rfl
    · exact fun _ _ h => hne (by decide) (List.cons.inj h).1
  have htoken : scanToken (c :: cs) = none := by
    rw [scanToken, hpunct, hdigit, hstart]
    simp [hne (d := '"') (by decide), hne (d := '\'') (by decide), hne (d := '\x60') (by decide),
      hne (d := '.') (by decide), hne (d := '#') (by decide), hne (d := '\\') (by decide)]
  have hskip : skip .tokens false pos (c :: cs) = some (false, pos, c :: cs) := by
    rw [skip_cons (hne (by decide))]
    simp [hblank]
  rw [next, hskip]
  simp only [htoken]

/-! ## Names that are identifiers -/

theorem IsName.all_isNamePart {text : String} (h : IsName text) :
    text.toList.all isNamePart = true := by
  obtain ⟨c, cs, htext, hstart, hcs⟩ := h
  rw [htext, List.all_cons, (isNameStart_begins hstart).1, hcs]
  rfl

theorem IsName.not_blank {text : String} (h : IsName text) : ∀ c ∈ text.toList, isBlank c = false :=
  fun c hc => isBlank_eq_false_of_isNamePart (List.all_eq_true.mp h.all_isNamePart c hc)

theorem IsName.trim_eq {text : String} (h : IsName text) : trim text.toList = text.toList := by
  have hleft : trimLeft text.toList = text.toList :=
    trimLeft_of_head fun c hc => h.not_blank c (List.mem_of_mem_head? hc)
  have hright : trimLeft text.toList.reverse = text.toList.reverse :=
    trimLeft_of_head fun c hc =>
      h.not_blank c (List.mem_reverse.mp (List.mem_of_mem_head? hc))
  rw [trim, hleft, trimRight, hright, List.reverse_reverse]

theorem IsName.written {text : String} (h : IsName text)
    (hparts : text.toList.all isIdentPart = true) :
    Expression.Written text.toList [.word text false] := by
  obtain ⟨c, cs, htext, hstart, hcs⟩ := h
  obtain ⟨hpart, hident, hdigit, hspace, hline⟩ := isNameStart_begins hstart
  have hall : (c :: cs).all isNamePart = true := by simp [hpart, hcs]
  have hblank : ∀ d ∈ c :: cs, isBlank d = false := fun d hd =>
    isBlank_eq_false_of_isNamePart (List.all_eq_true.mp hall d hd)
  refine ⟨⟨c, cs, htext, hblank c List.mem_cons_self⟩, ?_, fun tail us hends hus => ?_⟩
  · obtain ⟨init, last, hlast⟩ := List.eq_nil_or_concat (c :: cs) |>.resolve_left (by simp)
    refine ⟨init, last, by rw [htext, hlast, List.concat_eq_append], hblank last ?_⟩
    rw [hlast]
    simp
  · have hword : isWordText text.toList = true := by
      rw [htext, List.all_cons, Bool.and_eq_true] at hparts
      simp [htext, isWordText, hident, hdigit, hspace, hline, hparts.2]
    have hspells := spells_word hword (Expression.endsWord_of_endsTokens hends) hus
    rwa [String.ofList_toList] at hspells

end LoopHead

/-! ## Names of plain characters -/

namespace Code

theorem isPlain_iff {c : Char} : isPlain c = true ↔ isPlainStart c = true ∨ c.isDigit = true := by
  simp only [isPlain, Char.isAlphanum, isPlainStart, Bool.or_eq_true]
  tauto

/-- A plain character may stand in the name of an item and in an identifier. -/
theorem isPlain_part {c : Char} (h : isPlain c = true) :
    LoopHead.isNamePart c = true ∧ isIdentPart c = true := by
  rcases isPlain_iff.mp h with hstart | hdigit
  · exact ⟨(LoopHead.isNameStart_begins hstart).1, LoopHead.isIdentPart_of_isNameStart hstart⟩
  · exact LoopHead.isDigit_part hdigit

theorem isPlain_of_isPlainName {cs : List Char} (h : isPlainName cs = true) :
    ∀ c ∈ cs, isPlain c = true := by
  cases cs with
  | nil => exact nomatch h
  | cons c cs =>
    rw [isPlainName, Bool.and_eq_true, List.all_eq_true] at h
    exact List.forall_mem_cons.mpr ⟨isPlain_iff.mpr (.inl h.1), h.2⟩

/-- A plain name is a word. -/
theorem isWordText_of_isPlainName {cs : List Char} (h : isPlainName cs = true) :
    isWordText cs = true := by
  have hplain := isPlain_of_isPlainName h
  cases cs with
  | nil => exact nomatch h
  | cons c cs =>
    rw [isPlainName, Bool.and_eq_true] at h
    obtain ⟨-, hstart, hdigit, hspace, hline⟩ := LoopHead.isNameStart_begins (c := c) h.1
    have hparts : cs.all isIdentPart = true :=
      List.all_eq_true.mpr fun d hd => (isPlain_part (hplain d (List.mem_cons_of_mem _ hd))).2
    rw [isWordText, hstart, hdigit, hspace, hline, hparts]
    rfl

/-- Only a plain name is its own key in an object: a quoted text is longer than the text. -/
theorem fieldKey_eq_self {name : String} :
    fieldKey name = name ↔ isPlainName name.toList = true := by
  refine ⟨fun h => ?_, fun h => if_pos h⟩
  by_contra hplain
  have hone (c : Char) : 1 ≤ (Json.escapeChar c).length := by
    obtain ⟨-, h⟩ | ⟨escape, -, -, h, -⟩ := escapeChar_reads c <;> rw [h]
    · exact Nat.le_refl 1
    · exact Nat.le_add_left 1 _
  have hescaped : name.toList.length ≤ (name.toList.flatMap Json.escapeChar).length := by
    rw [List.length_flatMap]
    have hsum := List.length_le_sum_of_one_le (name.toList.map fun c => (Json.escapeChar c).length)
      (List.forall_mem_map.mpr fun c _ => hone c)
    rwa [List.length_map] at hsum
  rw [fieldKey, if_neg hplain, literal, Json.quoted] at h
  have hlength := congrArg (fun s => s.toList.length) h
  simp only [String.toList_ofList, List.length_cons, List.length_append] at hlength
  omega

end Code

namespace Expression

open LoopHead

/-- Whether a text is read as an identifier that is called by this text. -/
def isName (text : String) : Bool :=
  match treeOf? text with
  | some (.ident name) => name == text
  | _ => false

/-- No word that is reserved in a module is an identifier, and the words that may begin something else
than a name are. -/
theorem isName_words : (∀ word ∈ "await" :: reservedWords, isName word = false) ∧
    ∀ word ∈ leadingWords, word ≠ "await" → isName word = true := by
  decide +kernel

theorem isName_of_parts {text : String} (h : LoopHead.IsName text)
    (hparts : text.toList.all isIdentPart = true) (hword : isBindingWord text = true)
    (hawait : text ≠ "await") : isName text = true := by
  by_cases hleading : leadingWords.contains text = true
  · exact isName_words.2 text (List.contains_iff_mem.mp hleading) hawait
  · have hvariable : (isBindingWord text && !leadingWords.contains text) = true := by
      rw [hword, Bool.eq_false_iff.mpr hleading]
      rfl
    have htree := treeOf?_of_written (c := .name ⟨text, hvariable⟩) rfl (h.written hparts)
    rw [isName, htree]
    exact beq_self_eq_true text

/-- A name of other characters is no expression at all. -/
theorem treeOf?_eq_none {text : String} (h : LoopHead.IsName text)
    (hparts : text.toList.all isIdentPart = false) : treeOf? text = none := by
  obtain ⟨c, cs, htext, hstart, -⟩ := id h
  obtain ⟨-, hident, hdigit, hspace, hline⟩ := isNameStart_begins hstart
  have hcpart := isIdentPart_of_isNameStart hstart
  -- The identifier at the start of the name, and the first character that it cannot have.
  obtain ⟨d, more, hrest, hd⟩ : ∃ d more, text.toList.dropWhile isIdentPart = d :: more ∧
      isIdentPart d = false := by
    have hne : text.toList.dropWhile isIdentPart ≠ [] := by
      simpa [List.dropWhile_eq_nil_iff] using hparts
    obtain ⟨d, more, hrest⟩ := List.exists_cons_of_ne_nil hne
    have hd := List.head?_dropWhile_not isIdentPart text.toList
    rw [hrest] at hd
    exact ⟨d, more, hrest, hd⟩
  have hsplit := List.takeWhile_append_dropWhile (p := isIdentPart) (l := text.toList)
  have hdpart : isNamePart d = true := by
    refine List.all_eq_true.mp h.all_isNamePart d ?_
    rw [← hsplit, hrest]
    simp
  have hword : isWordText (text.toList.takeWhile isIdentPart) = true := by
    rw [htext, List.takeWhile_cons_of_pos hcpart]
    simp [isWordText, hident, hdigit, hspace, hline]
  have hinvalid : Spells (d :: (more ++ [')'])) [.invalid] [] :=
    .cons (fun pos => ⟨_, _, _, next_invalid hdpart hd pos _, fun h => by cases h⟩) (.inl rfl) (.none [])
  have hends : EndsWord (d :: (more ++ [')'])) := by
    refine endsWord_cons hd ?_
    rintro rfl
    have hword : isWord '\\' = true := by simpa [isNamePart] using hdpart
    exact absurd (hd.symm.trans (isIdentPart_of_isWord (by decide) hword)) (by decide)
  have hspells := spells_char (c := '(') (fun _ => rfl) (spells_word hword hends hinvalid)
  have happend : text.toList.takeWhile isIdentPart ++ d :: (more ++ [')']) =
      text.toList ++ [')'] := by
    rw [← List.cons_append, ← hrest, ← List.append_assoc, hsplit]
  rw [happend] at hspells
  have hnil : text.toList.isEmpty = false := by rw [htext]; rfl
  rw [treeOf?, parse, h.trim_eq, hnil, statements?_eq_none hspells]
  rfl

/-- Of the names that a loop head accepts, those are identifiers that have characters of identifiers
only and are no reserved words. -/
theorem isName_iff {text : String} (h : LoopHead.IsName text) :
    isName text = true ↔ text.toList.all isIdentPart = true ∧ isBindingWord text = true ∧
      text ≠ "await" := by
  refine ⟨fun hname => ?_, fun ⟨hparts, hword, hawait⟩ => isName_of_parts h hparts hword hawait⟩
  have hreserved : text ∉ "await" :: reservedWords := fun hmem =>
    Bool.false_ne_true ((isName_words.1 text hmem).symm.trans hname)
  rw [List.mem_cons, not_or] at hreserved
  refine ⟨?_, ?_, hreserved.1⟩
  · by_contra hparts
    rw [isName, treeOf?_eq_none h (Bool.eq_false_iff.mpr hparts)] at hname
    exact nomatch hname
  · simpa [isBindingWord] using hreserved.2

end Expression

end UiTemplate
