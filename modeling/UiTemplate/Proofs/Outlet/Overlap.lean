import Mathlib.Data.List.TakeWhile
import UiTemplate.Proofs.Outlet.Identity

/-!
# When names overlap

Names are compared by what one of them has behind the other. A name can have dashes and digits of
its own, so this has to be shown to find every text that both can become.

- `Outlet.isIndexSuffix_iff`: what counts as positions behind a name.
- `Outlet.overlap_iff`: two names overlap exactly if positions behind each make one text of them.
- `Outlet.namesOverlap_exact`: so the order of the names does not matter, and no two identities are
  the same text without an overlap.
-/

namespace UiTemplate.Outlet

open Helper

variable {a b : List Char} {m n : Nat}

/-- Positions behind a name, one for each of the loops around it: digits in any spelling. -/
structure ArePositions (n : Nat) (segments : List (List Char)) : Prop where
  length_eq : segments.length = n
  digits : ∀ s ∈ segments, IsDigits s

theorem ArePositions.zeros (n : Nat) : ArePositions n (List.replicate n ['0']) where
  length_eq := List.length_replicate
  digits s hs := by
    obtain rfl := List.eq_of_mem_replicate hs
    exact ⟨by simp, by simp⟩

theorem ArePositions.append {s t : List (List Char)} (hs : ArePositions m s)
    (ht : ArePositions n t) : ArePositions (m + n) (s ++ t) where
  length_eq := by rw [List.length_append, hs.length_eq, ht.length_eq]
  digits := List.forall_mem_append.mpr ⟨hs.digits, ht.digits⟩

theorem isIndexSuffix_iff : isIndexSuffix n a = true ↔ ∃ s, ArePositions n s ∧ a = dashed s := by
  constructor
  · intro h
    fun_induction isIndexSuffix n a with
    | case1 cs => exact ⟨[], ⟨rfl, by simp⟩, List.isEmpty_iff.mp h⟩
    | case2 n cs ih =>
      rw [Bool.and_eq_true] at h
      obtain ⟨s, hs, hrest⟩ := ih h.2
      have hdigits : IsDigits (cs.takeWhile Char.isDigit) :=
        ⟨by simpa using h.1, fun c hc => List.mem_takeWhile_imp hc⟩
      refine ⟨cs.takeWhile Char.isDigit :: s,
        ⟨congrArg (· + 1) hs.length_eq, List.forall_mem_cons.mpr ⟨hdigits, hs.digits⟩⟩, ?_⟩
      rw [dashed_cons, ← hrest, List.takeWhile_append_dropWhile]
    | case3 => cases h
  · rintro ⟨s, ⟨rfl, hs⟩, rfl⟩
    exact isIndexSuffix_dashed hs

theorem extends?_iff : extends? b a n = true ↔ ∃ s, ArePositions n s ∧ a = b ++ dashed s := by
  rw [extends?, Bool.and_eq_true, List.isPrefixOf_iff_prefix, isIndexSuffix_iff]
  constructor
  · rintro ⟨⟨rest, rfl⟩, s, hs, h⟩
    rw [List.drop_left] at h
    exact ⟨s, hs, by rw [h]⟩
  · rintro ⟨s, hs, rfl⟩
    exact ⟨List.prefix_append _ _, s, hs, List.drop_left⟩

/-- Positions behind each of two names make one text of them. -/
def CanBeOne (a : List Char) (m : Nat) (b : List Char) (n : Nat) : Prop :=
  ∃ s t, ArePositions m s ∧ ArePositions n t ∧ a ++ dashed s = b ++ dashed t

theorem CanBeOne.symm (h : CanBeOne a m b n) : CanBeOne b n a m := by
  obtain ⟨s, t, hs, ht, heq⟩ := h
  exact ⟨t, s, ht, hs, heq.symm⟩

/-- The name inside fewer loops has the positions that it lacks at its end: those inside both are
the same on both sides, counted from the end of the text. -/
theorem canBeOne_iff_of_le (h : m ≤ n) :
    CanBeOne a m b n ↔ ∃ s, ArePositions (n - m) s ∧ a = b ++ dashed s := by
  constructor
  · rintro ⟨s, t, hs, ht, heq⟩
    have hsplit : t = t.take (n - m) ++ t.drop (n - m) := (List.take_append_drop _ t).symm
    have hlength : s.length = (t.drop (n - m)).length := by
      rw [List.length_drop, hs.length_eq, ht.length_eq]
      omega
    rw [hsplit, dashed_append, ← List.append_assoc] at heq
    have hdrop : ∀ u ∈ t.drop (n - m), IsDigits u :=
      fun u hu => ht.digits u (List.mem_of_mem_drop hu)
    refine ⟨t.take (n - m), ⟨?_, fun u hu => ht.digits u (List.mem_of_mem_take hu)⟩,
      (append_dashed_inj hs.digits hdrop hlength heq).1⟩
    rw [List.length_take, ht.length_eq]
    omega
  · rintro ⟨s, hs, rfl⟩
    have hzeros := ArePositions.zeros m
    refine ⟨_, s ++ _, hzeros, ?_, by rw [dashed_append, List.append_assoc]⟩
    have ht := hs.append hzeros
    rwa [Nat.sub_add_cancel h] at ht

theorem overlap_iff : namesOverlap a m b n = true ↔ CanBeOne a m b n := by
  rw [namesOverlap]
  split
  · rename_i h
    rw [extends?_iff, canBeOne_iff_of_le h]
  · rename_i h
    rw [extends?_iff, ← canBeOne_iff_of_le (by omega)]
    exact ⟨CanBeOne.symm, CanBeOne.symm⟩

/-- **Overlap.** Two names overlap exactly if there are positions, one for each loop around the slot
of a name and each written with digits, that make one text of both names. So it does not matter
which name comes first, and names that have an identity in common overlap. -/
theorem namesOverlap_exact (x y : String) (m n : Nat) :
    (namesOverlap x.toList m y.toList n = true ↔
      ∃ s t, ArePositions m s ∧ ArePositions n t ∧ x.toList ++ dashed s = y.toList ++ dashed t) ∧
      namesOverlap x.toList m y.toList n = namesOverlap y.toList n x.toList m ∧
      ∀ p q : List Nat, p.length = m → q.length = n → outletIdentity x p = outletIdentity y q →
        namesOverlap x.toList m y.toList n = true := by
  refine ⟨overlap_iff, ?_, ?_⟩
  · rw [Bool.eq_iff_iff, overlap_iff, overlap_iff]
    exact ⟨CanBeOne.symm, CanBeOne.symm⟩
  · rintro p q rfl rfl h
    exact namesOverlap_of_identity_eq h

/-- A name in two loops, and one that spells a position of its own in one loop. -/
theorem namesOverlap_exact_spelledPosition :
    outletIdentity "d" [3, 4] = outletIdentity "d-3" [4] ∧
      namesOverlap "d".toList 2 "d-3".toList 1 = true ∧
      namesOverlap "d-3".toList 1 "d".toList 2 = true := by
  have h : outletIdentity "d" [3, 4] = outletIdentity "d-3" [4] := by decide
  obtain ⟨-, hsymm, hmeet⟩ := namesOverlap_exact "d" "d-3" 2 1
  have hoverlap := hmeet [3, 4] [4] rfl rfl h
  exact ⟨h, hoverlap, hsymm ▸ hoverlap⟩

end UiTemplate.Outlet
