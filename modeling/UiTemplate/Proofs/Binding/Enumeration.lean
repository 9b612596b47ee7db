import Mathlib.Algebra.Order.BigOperators.Group.List
import Mathlib.Algebra.Order.Group.Nat
import Mathlib.Data.List.Induction
import Mathlib.Data.List.Shortlex
import Mathlib.Data.Set.Function
import UiTemplate.Proofs.Binding.Numbering

/-!
# The order of keys

Keys come by length, and those of one length alphabetically.

- **Texts** (`Key.spelling_bijOn`, `Key.spelling_lt_iff`): the texts over `a`–`z` are numbered each
  once, in this order.
- **Tries** (`Key.tryFrom_unreserved`): going through the texts one by one finds the first one that
  is not reserved, so that many tries find the texts gone through without the reserved ones
  (`Key.tries_unreserved`).
- **Keys** (`Extract.freshKeys_enumerate`): numbering keys directly gives the same keys, so the
  calls of a fresh allocation enumerate all texts that are not reserved.
-/

namespace UiTemplate

namespace Key

/-! ## Texts -/

/-- What is spelled: the texts over `a`–`z`, but for the empty one. -/
def IsWord (cs : List Char) : Prop :=
  cs ≠ [] ∧ ∀ c ∈ cs, c.isLower

/-- Shorter, or as long and earlier in the alphabet. -/
abbrev Precedes (cs ds : List Char) : Prop :=
  List.Shortlex (· < ·) cs ds

theorem isLower_iff {c : Char} : c.isLower = true ↔ 97 ≤ c.toNat ∧ c.toNat ≤ 122 := by
  show (decide (97 ≤ c.toNat) && decide (c.toNat ≤ 122)) = true ↔ _
  rw [Bool.and_eq_true, decide_eq_true_iff, decide_eq_true_iff]

theorem isLower_letter {n : Nat} (h : n < 26) : (letter n).isLower := by
  rw [isLower_iff, toNat_letter h]
  omega

theorem exists_letter {c : Char} (h : c.isLower) : ∃ n < 26, letter n = c := by
  obtain ⟨hlow, hhigh⟩ := isLower_iff.mp h
  refine ⟨c.toNat - 97, by omega, ?_⟩
  apply Char.toNat_inj.mp
  rw [toNat_letter (by omega)]
  omega

theorem letter_lt {k l : Nat} (hl : l < 26) (h : k < l) : letter k < letter l := by
  show (letter k).toNat < (letter l).toNat
  rw [toNat_letter (by omega), toNat_letter hl]
  omega

theorem spelling_of_lt {n : Nat} (h : n < 26) : spelling n = [letter n] := by
  rw [spelling, if_pos h]

/-- A letter behind a text. -/
theorem spelling_snoc (n : Nat) {k : Nat} (h : k < 26) :
    spelling (26 * (n + 1) + k) = spelling n ++ [letter k] := by
  have hdiv : (26 * (n + 1) + k) / 26 - 1 = n := by omega
  have hmod : (26 * (n + 1) + k) % 26 = k := by omega
  rw [spelling, if_neg (by omega), hdiv, hmod]

/-- A number of two letters or more, taken apart at the last one. -/
theorem exists_snoc {n : Nat} (h : ¬n < 26) : ∃ m k, k < 26 ∧ n = 26 * (m + 1) + k :=
  ⟨n / 26 - 1, n % 26, Nat.mod_lt n (by decide), by omega⟩

theorem isWord_spelling (n : Nat) : IsWord (spelling n) := by
  fun_induction spelling n with
  | case1 n h => exact ⟨by simp, by simpa using isLower_letter h⟩
  | case2 n h ih =>
    refine ⟨by simp, List.forall_mem_append.mpr ⟨ih.2, ?_⟩⟩
    simpa using isLower_letter (Nat.mod_lt n (by decide))

theorem exists_spelling {cs : List Char} (h : IsWord cs) : ∃ n, spelling n = cs := by
  induction cs using List.reverseRecOn with
  | nil => exact absurd rfl h.1
  | append_singleton cs c ih =>
    obtain ⟨hcs, hc⟩ := List.forall_mem_append.mp h.2
    obtain ⟨k, hk, rfl⟩ := exists_letter (hc c List.mem_cons_self)
    by_cases hempty : cs = []
    · exact ⟨k, by rw [spelling_of_lt hk, hempty, List.nil_append]⟩
    · obtain ⟨n, rfl⟩ := ih ⟨hempty, hcs⟩
      exact ⟨26 * (n + 1) + k, spelling_snoc n hk⟩

/-- The numbers spell every text over `a`–`z`, each once. -/
theorem spelling_bijOn : Set.BijOn spelling Set.univ {cs | IsWord cs} :=
  ⟨fun n _ => isWord_spelling n, spelling_injective.injOn,
    fun _ h => (exists_spelling h).imp fun _ hn => ⟨trivial, hn⟩⟩

/-! ## Their order -/

theorem lex_append_of_length_eq {cs ds : List Char} (h : List.Lex (· < ·) cs ds)
    (hl : cs.length = ds.length) (c d : Char) :
    List.Lex (· < ·) (cs ++ [c]) (ds ++ [d]) := by
  induction h with
  | nil => simp at hl
  | cons _ ih => exact .cons (ih (by simpa using hl))
  | rel h => exact .rel h

theorem Precedes.snoc {cs ds : List Char} (h : Precedes cs ds) (c d : Char) :
    Precedes (cs ++ [c]) (ds ++ [d]) := by
  rcases List.shortlex_def.mp h with h | ⟨hl, h⟩
  · exact .of_length_lt (by simpa using h)
  · exact .of_lex (by simpa using hl) (lex_append_of_length_eq h hl c d)

theorem length_spelling_pos (n : Nat) : 0 < (spelling n).length :=
  List.length_pos_iff.mpr (isWord_spelling n).1

theorem spelling_strictMono {m n : Nat} (h : m < n) : Precedes (spelling m) (spelling n) := by
  induction n using Nat.strong_induction_on generalizing m with
  | _ n ih =>
    by_cases hn : n < 26
    · rw [spelling_of_lt hn, spelling_of_lt (h.trans hn)]
      exact (List.shortlex_singleton_iff ..).mpr (letter_lt hn h)
    · obtain ⟨n, l, hl, rfl⟩ := exists_snoc hn
      rw [spelling_snoc n hl]
      by_cases hm : m < 26
      · rw [spelling_of_lt hm]
        exact .of_length_lt (by simpa using length_spelling_pos n)
      -- Either the letters in front decide, or they are the same and the last one does.
      · obtain ⟨m, k, hk, rfl⟩ := exists_snoc hm
        rw [spelling_snoc m hk]
        rcases Nat.lt_or_ge m n with hmn | hmn
        · exact (ih n (by omega) hmn).snoc _ _
        · obtain rfl : m = n := by omega
          refine List.Shortlex.append_left ?_ _
          exact (List.shortlex_singleton_iff ..).mpr (letter_lt hl (by omega))

/-- Texts are in the order of their numbers. -/
theorem spelling_lt_iff {m n : Nat} : Precedes (spelling m) (spelling n) ↔ m < n := by
  refine ⟨fun h => ?_, spelling_strictMono⟩
  by_contra hmn
  rcases Nat.lt_or_eq_of_le (Nat.le_of_not_lt hmn) with hlt | rfl
  · exact asymm h (spelling_strictMono hlt)
  · exact irrefl _ h

/-! ## Reserved words -/

/-- The text with `n` texts before it, as a key. -/
def text (n : Nat) : Key :=
  String.ofList (spelling n)

theorem text_injective : Function.Injective text :=
  fun _ _ h => spelling_injective (String.ofList_injective h)

/-- Where the reserved words stand among the texts. -/
def reservedPositions : List Nat :=
  reserved.map fun s => position s.toList

theorem text_reservedPositions : reservedPositions.map text = reserved := by
  decide +kernel

theorem text_mem_reserved {n : Nat} : text n ∈ reserved ↔ n ∈ reservedPositions := by
  rw [← text_reservedPositions, List.mem_map]
  constructor
  · rintro ⟨r, hr, h⟩
    rwa [← text_injective h]
  · exact fun h => ⟨n, h, rfl⟩

/-- Leaving out one number gives all others. -/
theorem exists_skipOne {n r : Nat} : (∃ i, skipOne i r = n) ↔ n ≠ r := by
  unfold skipOne
  constructor
  · rintro ⟨i, h⟩
    split at h <;> omega
  · intro h
    rcases Nat.lt_or_gt_of_ne h with h | h
    · exact ⟨n, if_neg (by omega)⟩
    · exact ⟨n - 1, by rw [if_pos (by omega)]; omega⟩

theorem foldl_skipOne_of_lt {rs : List Nat} {i : Nat} (h : ∀ r ∈ rs, i < r) :
    rs.foldl skipOne i = i := by
  induction rs with
  | nil => rfl
  | cons r rs ih =>
    obtain ⟨hr, hrs⟩ := List.forall_mem_cons.mp h
    rw [List.foldl_cons, skipOne, if_neg (by omega), ih hrs]

/-- Leaving out numbers one after the other, the lowest first, gives all numbers but these. -/
theorem exists_foldl_skipOne {rs : List Nat} (h : rs.Pairwise (· < ·)) {n : Nat} :
    (∃ i, rs.foldl skipOne i = n) ↔ n ∉ rs := by
  induction rs with
  | nil => simp
  | cons r rs ih =>
    obtain ⟨hr, hrs⟩ := List.pairwise_cons.mp h
    have hfix : rs.foldl skipOne r = r := foldl_skipOne_of_lt hr
    have hinj : Function.Injective (rs.foldl skipOne) :=
      StrictMono.injective fun _ _ => foldl_skipOne_lt rs
    rw [List.mem_cons, not_or, ← ih hrs]
    constructor
    · rintro ⟨i, rfl⟩
      refine ⟨fun heq => ?_, skipOne i r, rfl⟩
      rw [List.foldl_cons] at heq
      exact exists_skipOne.mp ⟨i, rfl⟩ (hinj (heq.trans hfix.symm))
    · rintro ⟨hne, i, rfl⟩
      have hi : i ≠ r := fun heq => hne (heq ▸ hfix)
      obtain ⟨j, rfl⟩ := exists_skipOne.mpr hi
      exact ⟨j, rfl⟩

/-- The texts that are no reserved words are those that keys are numbered by. -/
theorem exists_skipReserved {n : Nat} : (∃ i, skipReserved i = n) ↔ text n ∉ reserved := by
  rw [text_mem_reserved]
  exact exists_foldl_skipOne (by decide +kernel)

theorem text_skipReserved (n : Nat) : text (skipReserved n) ∉ reserved :=
  exists_skipReserved.mp ⟨n, rfl⟩

/-! ## Going through the texts -/

/-- The first text from a number on that is not reserved, and the number after it. -/
def tryFrom (i : Nat) : Key × Nat :=
  if text i ∈ reserved then tryFrom (i + 1) else (text i, i + 1)
termination_by reservedPositions.sum + 1 - i
decreasing_by
  have hi : i ≤ reservedPositions.sum := List.le_sum_of_mem (text_mem_reserved.mp ‹_›)
  omega

/-- The results of so many tries from a number on, and the number after the last one. -/
def tries : Nat → Nat → List Key × Nat
  | 0, i => ([], i)
  | count + 1, i =>
    let (key, j) := tryFrom i
    let (rest, k) := tries count j
    (key :: rest, k)

/-- The texts with the numbers from `i` to before `j` that are not reserved. -/
def unreserved (i j : Nat) : List Key :=
  ((List.range' i (j - i)).map text).filter (· ∉ reserved)

theorem unreserved_append {i j k : Nat} (hij : i ≤ j) (hjk : j ≤ k) :
    unreserved i j ++ unreserved j k = unreserved i k := by
  have hrange : List.range' i (j - i) ++ List.range' j (k - j) = List.range' i (k - i) := by
    have h := List.range'_append_1 (s := i) (m := j - i) (n := k - j)
    rwa [Nat.add_sub_cancel' hij, show j - i + (k - j) = k - i by omega] at h
  rw [unreserved, unreserved, ← List.filter_append, ← List.map_append, hrange, unreserved]

theorem unreserved_succ (i : Nat) :
    unreserved i (i + 1) = if text i ∈ reserved then [] else [text i] := by
  rw [unreserved, Nat.add_sub_cancel_left]
  split <;> simp_all [List.range'_succ]

/-- A try leaves out reserved texts and no others. -/
theorem tryFrom_unreserved (i : Nat) :
    i < (tryFrom i).2 ∧ unreserved i (tryFrom i).2 = [(tryFrom i).1] := by
  fun_induction tryFrom i with
  | case1 i h ih =>
    have hfirst : unreserved i (i + 1) = [] := by rw [unreserved_succ, if_pos h]
    refine ⟨by omega, ?_⟩
    rw [← unreserved_append (Nat.le_succ i) (by omega), hfirst, List.nil_append, ih.2]
  | case2 i h => exact ⟨Nat.lt_succ_self i, by rw [unreserved_succ, if_neg h]⟩

/-- What has been given are the texts gone through without the reserved ones. -/
theorem tries_unreserved (count i : Nat) :
    i ≤ (tries count i).2 ∧ (tries count i).1 = unreserved i (tries count i).2 ∧
      (tries count i).1.length = count := by
  induction count generalizing i with
  | zero => exact ⟨le_rfl, by simp [tries, unreserved], rfl⟩
  | succ count ih =>
    obtain ⟨hlt, hkey⟩ := tryFrom_unreserved i
    obtain ⟨hle, hrest, hlength⟩ := ih (tryFrom i).2
    refine ⟨hlt.le.trans hle, ?_, congrArg (· + 1) hlength⟩
    show (tryFrom i).1 :: (tries count (tryFrom i).2).1 = _
    rw [hrest, ← List.singleton_append, ← hkey]
    exact unreserved_append hlt.le hle

/-- The first text that is not reserved is found. -/
theorem tryFrom_eq {i j : Nat} (hij : i ≤ j) (hj : text j ∉ reserved)
    (hskipped : ∀ k, i ≤ k → k < j → text k ∈ reserved) : tryFrom i = (text j, j + 1) := by
  obtain ⟨d, rfl⟩ := Nat.exists_eq_add_of_le hij
  induction d generalizing i with
  | zero =>
    rw [Nat.add_zero] at hj ⊢
    rw [tryFrom, if_neg hj]
  | succ d ih =>
    rw [tryFrom, if_pos (hskipped i le_rfl (by omega))]
    have hd : i + (d + 1) = i + 1 + d := by omega
    rw [hd] at hj hskipped ⊢
    exact ih (by omega) hj fun k hk hkd => hskipped k (by omega) hkd

/-- How many texts have been gone through for so many keys. -/
def gone : Nat → Nat
  | 0 => 0
  | count + 1 => skipReserved count + 1

/-- The try after so many keys gives the key of that number. -/
theorem tryFrom_gone (count : Nat) : tryFrom (gone count) = (number count, gone (count + 1)) := by
  have hle : gone count ≤ skipReserved count := by
    cases count with
    | zero => exact Nat.zero_le _
    | succ count => exact skipReserved_strictMono (Nat.lt_succ_self count)
  refine tryFrom_eq hle (text_skipReserved count) fun k hk hlt => ?_
  by_contra hfree
  obtain ⟨i, rfl⟩ := exists_skipReserved.mpr hfree
  have hi : i < count := skipReserved_strictMono.lt_iff_lt.mp hlt
  cases count with
  | zero => omega
  | succ count =>
    have hlast : skipReserved i ≤ skipReserved count :=
      skipReserved_strictMono.monotone (Nat.le_of_lt_succ hi)
    have hgone : skipReserved count + 1 ≤ skipReserved i := hk
    omega

theorem tries_gone (count start : Nat) :
    (tries count (gone start)).1 = (List.range' start count).map number := by
  induction count generalizing start with
  | zero => rfl
  | succ count ih =>
    show (tryFrom (gone start)).1 :: (tries count (tryFrom (gone start)).2).1 = _
    rw [tryFrom_gone, ih, List.range'_succ, List.map_cons]

/-! ## Keys -/

theorem exists_number {key : Key} :
    (∃ n, number n = key) ↔ IsWord key.toList ∧ key ∉ reserved := by
  constructor
  · rintro ⟨n, rfl⟩
    refine ⟨?_, text_skipReserved n⟩
    rw [number, String.toList_ofList]
    exact isWord_spelling _
  · rintro ⟨hword, hfree⟩
    obtain ⟨m, hm⟩ := exists_spelling hword
    obtain rfl : text m = key := by rw [text, hm, String.ofList_toList]
    obtain ⟨n, rfl⟩ := exists_skipReserved.mpr hfree
    exact ⟨n, rfl⟩

theorem number_precedes {m n : Nat} (h : m < n) :
    Precedes (number m).toList (number n).toList := by
  rw [number, number, String.toList_ofList, String.toList_ofList]
  exact spelling_strictMono (skipReserved_strictMono h)

end Key

open Key

/-- **All keys, in order.** The texts over `a`–`z` are spelled from the numbers, each once, by
length and then alphabetically. The calls of a fresh allocation give them in this order, each once,
and leave out the reserved ones and no others: they give what is found by going through the texts
one by one. -/
theorem Extract.freshKeys_enumerate :
    Set.BijOn spelling Set.univ {cs | IsWord cs} ∧
      (∀ m n, Precedes (spelling m) (spelling n) ↔ m < n) ∧
      (∀ count, ((freshKeys count).run {}).1 = (tries count 0).1) ∧
      (∀ count i, (tries count i).1 = unreserved i (tries count i).2 ∧
        (tries count i).1.length = count) ∧
      (∀ count, ((freshKeys count).run {}).1.Pairwise fun k l => Precedes k.toList l.toList) ∧
      ∀ key : Key, (∃ count, key ∈ ((freshKeys count).run {}).1) ↔
        IsWord key.toList ∧ key ∉ reserved := by
  have hkeys (count : Nat) : ((freshKeys count).run {}).1 = (List.range count).map number := by
    rw [List.range_eq_range']
    exact freshKeys_eq count {}
  refine ⟨spelling_bijOn, fun m n => spelling_lt_iff, fun count => ?_,
    fun count i => (tries_unreserved count i).2, fun count => ?_, fun key => ?_⟩
  · rw [hkeys, List.range_eq_range']
    exact (tries_gone count 0).symm
  · rw [hkeys]
    exact List.pairwise_map.mpr (List.pairwise_lt_range.imp number_precedes)
  · rw [← exists_number]
    constructor
    · rintro ⟨count, h⟩
      rw [hkeys] at h
      exact (List.mem_map.mp h).imp fun _ hn => hn.2
    · rintro ⟨n, rfl⟩
      refine ⟨n + 1, ?_⟩
      rw [hkeys]
      exact List.mem_map_of_mem (List.mem_range.mpr (Nat.lt_succ_self n))

end UiTemplate
