import Mathlib.Data.List.Nodup
import Mathlib.Order.Monotone.Basic
import UiTemplate.Binding.Key

/-!
# Keys are distinct

- **Spellings** (`position_spelling`): a text has as many texts before it as its number says, so no
  two numbers are spelled alike (`spelling_injective`).
- **Reserved words** (`skipReserved_strictMono`): leaving them out keeps the order of the numbers.
- **Keys** (`number_injective`): a different number is a different key; so the keys that an
  allocator gives out are without repetition (`nodup_map_number`).
-/

namespace UiTemplate.Key

/-! ## Spellings -/

theorem toNat_letter {n : Nat} (h : n < 26) : (letter n).toNat = 97 + n := by
  have hv : (97 + n).isValidChar := Or.inl (by omega)
  have ha : 'a'.toNat = 97 := rfl
  rw [letter, ha, Char.ofNat, dif_pos hv]
  rfl

/-- A text with the texts before it, counted from one. -/
def rank (cs : List Char) : Nat :=
  cs.foldl (fun n c => 26 * n + (c.toNat - 'a'.toNat + 1)) 0

theorem rank_append_letter (cs : List Char) {n : Nat} (h : n < 26) :
    rank (cs ++ [letter n]) = 26 * rank cs + (n + 1) := by
  have ha : 'a'.toNat = 97 := rfl
  rw [rank, List.foldl_append, List.foldl_cons, List.foldl_nil, toNat_letter h, ha,
    Nat.add_sub_cancel_left]
  rfl

theorem rank_spelling (n : Nat) : rank (spelling n) = n + 1 := by
  fun_induction spelling n with
  | case1 n h =>
    have hr := rank_append_letter [] h
    rw [List.nil_append] at hr
    rw [hr, rank, List.foldl_nil, Nat.mul_zero, Nat.zero_add]
  | case2 n h ih =>
    rw [rank_append_letter _ (Nat.mod_lt n (by decide)), ih]
    omega

/-- The number of a text is the number it is spelled from. -/
theorem position_spelling (n : Nat) : position (spelling n) = n := by
  have h := rank_spelling n
  rw [rank] at h
  rw [position, h, Nat.add_sub_cancel]

theorem spelling_injective : Function.Injective spelling := by
  intro m n h
  rw [← position_spelling m, h, position_spelling]

/-! ## Reserved words -/

/-- The number of a text when the text with the number `r` is left out. -/
def skipOne (i r : Nat) : Nat :=
  if r ≤ i then i + 1 else i

theorem skipOne_lt {i j : Nat} (r : Nat) (h : i < j) : skipOne i r < skipOne j r := by
  unfold skipOne
  split <;> split <;> omega

theorem foldl_skipOne_lt (rs : List Nat) {i j : Nat} (h : i < j) :
    rs.foldl skipOne i < rs.foldl skipOne j := by
  induction rs generalizing i j with
  | nil => exact h
  | cons r rs ih => exact ih (skipOne_lt r h)

theorem skipReserved_strictMono : StrictMono skipReserved := by
  intro i j h
  exact foldl_skipOne_lt _ h

/-! ## Keys -/

/-- A key has one number only. -/
theorem number_injective : Function.Injective number := by
  intro m n h
  have hs : spelling (skipReserved m) = spelling (skipReserved n) := String.ofList_injective h
  exact skipReserved_strictMono.injective (spelling_injective hs)

theorem nodup_map_number (start count : Nat) :
    ((List.range' start count).map number).Nodup :=
  (List.nodup_range' 1).map number_injective

end UiTemplate.Key
