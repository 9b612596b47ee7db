import Mathlib.Algebra.Group.Nat.Defs
import Mathlib.Data.List.Basic
import Mathlib.Data.List.TakeWhile
import UiTemplate.Decimal.Natural
import UiTemplate.Expression.Eval
import UiTemplate.Proofs.Json.ReadBack

/-!
# Lengths and indices

What an array or a text gives under a key.

- `Decimal.SpellsIndex`: the texts of an index, which may have zeros and a plus sign in front, and
  `Decimal.readIndex?_eq_some`: these and no others are read as an index.
- `Expression.units16_eq_length_iff`: the length of a text counts its characters if none of them
  lies beyond the basic plane.
- `Expression.property_agrees`: lengths and indices agree for all other sequences, and under all
  keys but the spellings that are not the decimal text of an index.
-/

namespace UiTemplate

/-! ## Texts of indices -/

namespace Decimal

/-- The text stands for the index: its decimal digits, with zeros and then a plus sign in front of
them or not. -/
def SpellsIndex (cs : List Char) (i : Nat) : Prop :=
  ∃ sign zeros, (sign = [] ∨ sign = ['+']) ∧
    cs = sign ++ (List.replicate zeros '0' ++ Nat.toDigits 10 i)

/-- Digits up to the end are all taken. -/
theorem spanDigits_eq_nil {cs : List Char} {digits : List Nat} :
    spanDigits cs = (digits, []) ↔
      (∀ c ∈ cs, c.isDigit = true) ∧ digits = cs.map fun c => c.toNat - '0'.toNat := by
  simp only [spanDigits, isSome_digit?, Prod.mk.injEq]
  have hall : cs.drop (cs.takeWhile Char.isDigit).length = [] ↔ ∀ c ∈ cs, c.isDigit = true := by
    have hdrop := @List.drop_left _ (cs.takeWhile Char.isDigit) (cs.dropWhile Char.isDigit)
    rw [List.takeWhile_append_dropWhile] at hdrop
    rw [hdrop, List.dropWhile_eq_nil_iff]
  rw [hall, and_comm]
  refine and_congr_right fun h => ?_
  rw [List.takeWhile_eq_self_iff.mpr h, ← List.filterMap_eq_map,
    List.filterMap_congr (g := some ∘ fun c => c.toNat - '0'.toNat), eq_comm]
  intro c hc
  rw [digit?_eq, if_pos (h c hc)]
  rfl

/-- Digits behind a number that is not zero are those of a greater number. -/
theorem toDigits_append {n : Nat} (hn : 0 < n) {cs : List Char} (h : ∀ c ∈ cs, c.isDigit = true) :
    Nat.toDigits 10 n ++ cs = Nat.toDigits 10 (Nat.ofDigitChars 10 cs n) := by
  induction cs generalizing n with
  | nil => simp
  | cons c cs ih =>
    obtain ⟨hc, hcs⟩ := List.forall_mem_cons.mp h
    obtain ⟨d, hd, rfl⟩ := exists_digitChar hc
    have hstep := Nat.toDigits_append_toDigits (b := 10) (by decide) hn hd
    rw [Nat.toDigits_of_lt_base hd] at hstep
    rw [Nat.ofDigitChars_cons_digitChar_of_lt_ten hd, ← ih (by omega) hcs, ← hstep,
      List.append_assoc]
    rfl

/-- Digits are zeros and the digits of the number that they spell. -/
theorem eq_zeros_append {cs : List Char} (hne : cs ≠ []) (h : ∀ c ∈ cs, c.isDigit = true) :
    ∃ zeros, cs = List.replicate zeros '0' ++ Nat.toDigits 10 (Nat.ofDigitChars 10 cs 0) := by
  induction cs with
  | nil => exact absurd rfl hne
  | cons c cs ih =>
    obtain ⟨hc, hcs⟩ := List.forall_mem_cons.mp h
    obtain ⟨d, hd, rfl⟩ := exists_digitChar hc
    rw [Nat.ofDigitChars_cons_digitChar_of_lt_ten hd, Nat.mul_zero, Nat.zero_add]
    by_cases hzero : d = 0
    · subst hzero
      by_cases hnil : cs = []
      · subst hnil
        exact ⟨0, rfl⟩
      · obtain ⟨zeros, hzeros⟩ := ih hnil hcs
        refine ⟨zeros + 1, ?_⟩
        rw [List.replicate_succ, List.cons_append, ← hzeros]
        rfl
    · refine ⟨0, ?_⟩
      rw [← toDigits_append (by omega) hcs, Nat.toDigits_of_lt_base hd]
      rfl

theorem isDigit_of_zeros_append (zeros i : Nat) :
    ∀ c ∈ List.replicate zeros '0' ++ Nat.toDigits 10 i, c.isDigit = true := by
  intro c hc
  rcases List.mem_append.mp hc with hc | hc
  · rw [List.eq_of_mem_replicate hc]
    rfl
  · exact Nat.isDigit_of_mem_toDigits (by decide) (by decide) hc

/-- The text behind a plus sign at its front. -/
def withoutPlus : List Char → List Char
  | '+' :: rest => rest
  | cs => cs

theorem withoutPlus_of_isDigit {cs : List Char} (h : ∀ c ∈ cs, c.isDigit = true) :
    withoutPlus cs = cs := by
  unfold withoutPlus
  split
  · exact absurd (h '+' List.mem_cons_self) (by decide)
  · rfl

theorem exists_sign (cs : List Char) :
    ∃ sign, (sign = [] ∨ sign = ['+']) ∧ cs = sign ++ withoutPlus cs := by
  unfold withoutPlus
  split
  · exact ⟨['+'], .inr rfl, rfl⟩
  · exact ⟨[], .inl rfl, rfl⟩

/-- The index that digits spell. -/
def digitsIndex? (cs : List Char) : Option Nat :=
  match spanDigits cs with
  | ([], _) => none
  | (digits, []) =>
    let n := ofDigits 10 digits
    if n < 0x10000000000000000 then some n else none
  | _ => none

theorem digitsIndex?_eq_some {cs : List Char} {i : Nat} :
    digitsIndex? cs = some i ↔
      (∃ zeros, cs = List.replicate zeros '0' ++ Nat.toDigits 10 i) ∧ i < 2 ^ 64 := by
  constructor
  · intro h
    unfold digitsIndex? at h
    split at h
    · cases h
    · rename_i digits hne hspan
      obtain ⟨hdigits, rfl⟩ := spanDigits_eq_nil.mp hspan
      rw [ofDigits_map, Option.ite_none_right_eq_some, Option.some.injEq] at h
      obtain ⟨hlt, rfl⟩ := h
      exact ⟨eq_zeros_append (fun hnil => hne (by rw [hnil]; rfl)) hdigits, hlt⟩
    · cases h
  · rintro ⟨⟨zeros, rfl⟩, hlt⟩
    have hspan := spanDigits_eq_nil.mpr ⟨isDigit_of_zeros_append zeros i, rfl⟩
    have hvalue : Nat.ofDigitChars 10 (List.replicate zeros '0' ++ Nat.toDigits 10 i) 0 = i := by
      rw [Nat.ofDigitChars_append, Nat.ofDigitChars_replicate_zero, Nat.mul_zero,
        Nat.ofDigitChars_ten_toDigits]
    obtain ⟨d, ds, hds⟩ := List.exists_cons_of_ne_nil
      (List.map_eq_nil_iff.not.mpr (List.append_ne_nil_of_right_ne_nil _ Nat.toDigits_ne_nil))
    rw [hds] at hspan
    have hof : ofDigits 10 (d :: ds) = i := by
      rw [← hds, ofDigits_map, hvalue]
    simp only [digitsIndex?, hspan, hof]
    exact if_pos hlt

/-- An index is read from the texts that stand for it, and from no others. -/
theorem readIndex?_eq_some {cs : List Char} {i : Nat} :
    readIndex? cs = some i ↔ SpellsIndex cs i ∧ i < 2 ^ 64 := by
  change digitsIndex? (withoutPlus cs) = some i ↔ _
  rw [digitsIndex?_eq_some]
  refine and_congr_left fun _ => ⟨?_, ?_⟩
  · rintro ⟨zeros, hzeros⟩
    obtain ⟨sign, hsign, hcs⟩ := exists_sign cs
    rw [hzeros] at hcs
    exact ⟨sign, zeros, hsign, hcs⟩
  · rintro ⟨sign, zeros, rfl | rfl, rfl⟩
    · exact ⟨zeros, withoutPlus_of_isDigit (isDigit_of_zeros_append zeros i)⟩
    · exact ⟨zeros, rfl⟩

end Decimal

/-! ## Lengths -/

namespace Expression

open Json Decimal

theorem foldl_units16 (cs : List Char) (n : Nat) :
    cs.foldl (fun n c => n + if c.toNat < 0x10000 then 1 else 2) n =
      n + cs.length + cs.countP (0x10000 ≤ ·.toNat) := by
  induction cs generalizing n with
  | nil => rfl
  | cons c cs ih =>
    rw [List.foldl_cons, ih, List.length_cons, List.countP_cons]
    by_cases h : c.toNat < 0x10000
    · have hnot : ¬0x10000 ≤ c.toNat := by omega
      simp only [h, hnot, if_true, decide_false, Bool.false_eq_true, if_false]
      omega
    · have hle : 0x10000 ≤ c.toNat := by omega
      simp only [h, hle, if_false, decide_true, if_true]
      omega

/-- The length of a text counts every character, and those beyond the basic plane twice. -/
theorem units16_eq (cs : List Char) :
    units16 cs = cs.length + cs.countP (0x10000 ≤ ·.toNat) := by
  rw [units16, foldl_units16, Nat.zero_add]

theorem units16_eq_length_iff {cs : List Char} :
    units16 cs = cs.length ↔ ∀ c ∈ cs, c.toNat < 0x10000 := by
  have hcount : units16 cs = cs.length ↔ cs.countP (0x10000 ≤ ·.toNat) = 0 := by
    rw [units16_eq]
    omega
  rw [hcount, List.countP_eq_zero]
  simp only [decide_eq_true_eq, Nat.not_le]

/-! ## Sequences -/

/-- The items of an array, or the characters of a text. -/
def items? : Json → Option (List Json)
  | .arr items => some items
  | .str s => some (s.toList.map fun c => .str (String.ofList [c]))
  | _ => none

/-- No character of the value lies beyond the basic plane, if it is a text. -/
def IsBasic : Json → Prop
  | .str s => ∀ c ∈ s.toList, c.toNat < 0x10000
  | _ => True

/-- What an array or a text with the length `n` gives under a key: the length, the item at the index
that the key stands for, and else nothing. -/
structure Answers (items : List Json) (n : Nat) (key : String) (value : Json) : Prop where
  length : key = "length" → value = .nat n
  item : ∀ i < 2 ^ 64, SpellsIndex key.toList i → value = items[i]?.getD .null
  other : key ≠ "length" → (∀ i < 2 ^ 64, ¬SpellsIndex key.toList i) → value = .null

/-- Indexing and length agree at a key: the decimal text of an index below the length leads to the
item at this index, and every other key but that of the length to nothing. -/
structure Agrees (items : List Json) (n : Nat) (key : String) (value : Json) : Prop where
  length : key = "length" → value = .nat n
  item : ∀ i < n, key = natText i → items[i]? = some value
  other : key ≠ "length" → (∀ i < n, key ≠ natText i) → value = .null

variable {v : Json} {items : List Json}

/-- The property of a sequence by its key and its items. -/
theorem property_of_items (h : items? v = some items) :
    ∃ n, (items.length ≤ n ∧ (n = items.length ↔ IsBasic v)) ∧ ∀ p, property v p =
      .ok (if p.toText = "length" then .nat n
        else ((readIndex? p.toText.toList).bind (items[·]?)).getD .null) := by
  cases v with
  | arr vs =>
    cases h
    refine ⟨items.length, ⟨Nat.le_refl _, by simp [IsBasic]⟩, fun p => ?_⟩
    rw [property]
    split <;> rfl
  | str s =>
    cases h
    refine ⟨units16 s.toList, ?_, fun p => ?_⟩
    · rw [List.length_map, IsBasic, units16_eq_length_iff, units16_eq]
      exact ⟨Nat.le_add_right _ _, Iff.rfl⟩
    · simp only [property]
      split
      · rfl
      · cases readIndex? p.toText.toList with
        | none => rfl
        | some i =>
          simp only [Option.bind_some, List.getElem?_map]
          cases s.toList[i]? <;> rfl
  | _ => cases h

theorem not_spellsIndex_length (i : Nat) : ¬SpellsIndex "length".toList i := by
  rintro ⟨sign, zeros, rfl | rfl, h⟩
  · rw [List.nil_append] at h
    have hdigit := isDigit_of_zeros_append zeros i 'l' (h ▸ List.mem_cons_self)
    exact absurd hdigit (by decide)
  · exact absurd (List.cons.inj h).1 (by decide)

theorem spellsIndex_natText (i : Nat) : SpellsIndex (natText i).toList i :=
  ⟨[], 0, .inl rfl, String.toList_ofList⟩

/-- Every key of a sequence leads to the length, to the item at the index that it stands for, or to
nothing. The length is that of the items unless a character lies beyond the basic plane; then, and
if no index below the length is spelled in another way than by its decimal text, indexing and length
agree. (A sequence in memory has fewer than `2 ^ 64` items.) -/
theorem property_agrees (h : items? v = some items) (p : Json) :
    ∃ n value, property v (.str "length") = .ok (.nat n) ∧ property v p = .ok value ∧
      items.length ≤ n ∧ (n = items.length ↔ IsBasic v) ∧ Answers items n p.toText value ∧
      (IsBasic v → items.length ≤ 2 ^ 64 →
        (∀ i < items.length, SpellsIndex p.toText.toList i → p.toText = natText i) →
        Agrees items n p.toText value) := by
  obtain ⟨n, ⟨hle, hbasic⟩, hproperty⟩ := property_of_items h
  have hanswers : Answers items n p.toText (if p.toText = "length" then .nat n
      else ((readIndex? p.toText.toList).bind (items[·]?)).getD .null) := by
    refine ⟨fun hkey => if_pos hkey, fun i hi hspells => ?_, fun hkey hnone => ?_⟩
    · have hkey : p.toText ≠ "length" := fun hkey =>
        not_spellsIndex_length i (hkey ▸ hspells)
      rw [if_neg hkey, readIndex?_eq_some.mpr ⟨hspells, hi⟩]
      rfl
    · have hread : readIndex? p.toText.toList = none := by
        rw [Option.eq_none_iff_forall_ne_some]
        intro i hi
        obtain ⟨hspells, hlt⟩ := readIndex?_eq_some.mp hi
        exact hnone i hlt hspells
      rw [if_neg hkey, hread]
      rfl
  refine ⟨n, _, hproperty (.str "length"), hproperty p, hle, hbasic, hanswers,
    fun hv hsize hplain => ?_⟩
  have hn := hbasic.mpr hv
  refine ⟨hanswers.length, fun i hi hkey => ?_, fun hkey hnone => ?_⟩
  · have hlt : i < items.length := by omega
    rw [hanswers.item i (by omega) (hkey ▸ spellsIndex_natText i),
      List.getElem?_eq_getElem hlt]
    rfl
  · by_cases hspells : ∃ i < 2 ^ 64, SpellsIndex p.toText.toList i
    · obtain ⟨i, hi, hspells⟩ := hspells
      have hge : items.length ≤ i := by
        by_contra hlt
        exact hnone i (by omega) (hplain i (by omega) hspells)
      rw [hanswers.item i hi hspells, List.getElem?_eq_none hge]
      rfl
    · exact hanswers.other hkey fun i hi hi' => hspells ⟨i, hi, hi'⟩

/-- The second character of a text. -/
theorem property_agrees_secondCharacter :
    items? (.str "ab") = some [.str "a", .str "b"] ∧ IsBasic (.str "ab") ∧
      (∀ i < 2, SpellsIndex (Json.int 1).toText.toList i → (Json.int 1).toText = natText i) ∧
      property (.str "ab") (.int 1) = .ok (.str "b") := by
  have hitems : items? (.str "ab") = some [.str "a", .str "b"] := rfl
  have hbasic : IsBasic (.str "ab") := by
    have hall : ['a', 'b'].all (·.toNat < 0x10000) = true := by decide
    exact fun c hc => of_decide_eq_true (List.all_eq_true.mp hall c hc)
  have hplain : ∀ i < 2, SpellsIndex (Json.int 1).toText.toList i →
      (Json.int 1).toText = natText i := by
    intro i hi hspells
    have hread := readIndex?_eq_some.mpr ⟨hspells, by omega⟩
    obtain rfl : 1 = i := Option.some.inj hread
    rfl
  refine ⟨hitems, hbasic, hplain, ?_⟩
  obtain ⟨n, value, -, hvalue, -, hn, -, hagrees⟩ := property_agrees hitems (.int 1)
  have hsecond := (hagrees hbasic (by decide) hplain).item 1 (by rw [hn.mpr hbasic]; decide) rfl
  rw [hvalue, ← Option.some.inj hsecond]

/-- A text has more positions than characters if one of them lies beyond the basic plane, and an
index may have a plus sign. -/
theorem not_agrees :
    (property (.str "😀a") (.str "length") = .ok (.nat 3) ∧
      property (.str "😀a") (.int 2) = .ok .null ∧
      ¬Agrees [.str "😀", .str "a"] 3 (Json.int 2).toText .null) ∧
    (property (.str "ab") (.str "length") = .ok (.nat 2) ∧
      property (.str "ab") (.str "+1") = .ok (.str "b") ∧
      ¬Agrees [.str "a", .str "b"] 2 (Json.str "+1").toText (.str "b")) := by
  refine ⟨⟨rfl, rfl, fun h => ?_⟩, rfl, rfl, fun h => ?_⟩
  · exact absurd (h.item 2 (by decide) rfl) (by simp)
  · have hnull := h.other (by decide) (by decide)
    cases hnull

end Expression

end UiTemplate
