import Mathlib.Data.List.Induction
import UiTemplate.Helper.Meaning
import UiTemplate.Outlet.Resolve

/-!
# Identities as texts

The identity of an outlet is its name, and a dash and a number for each loop around it.

- `Helper.append_dashed_inj`: texts are compared from the end, since names can have dashes and
  digits of their own.
- `Helper.outletIdentity_eq_iff`: two identities are the same text exactly if the name inside fewer
  loops spells the positions that it lacks.
- `Outlet.namesOverlap_of_identity_eq`: names that have an identity in common overlap.
-/

namespace UiTemplate

/-! ## Digits behind dashes -/

/-- Digits, at least one. -/
def Helper.IsDigits (s : List Char) : Prop :=
  s ≠ [] ∧ ∀ c ∈ s, c.isDigit = true

/-- Texts with a dash before each. -/
def Helper.dashed (segments : List (List Char)) : List Char :=
  segments.flatMap fun s => '-' :: s

namespace Helper

theorem dashed_cons (s : List Char) (segments : List (List Char)) :
    dashed (s :: segments) = '-' :: (s ++ dashed segments) := by
  simp [dashed]

theorem dashed_append (segments others : List (List Char)) :
    dashed (segments ++ others) = dashed segments ++ dashed others :=
  List.flatMap_append

theorem IsDigits.dash_notMem {s : List Char} (h : IsDigits s) : '-' ∉ s := fun hs =>
  absurd (h.2 _ hs) (by decide)

/-- A text splits in one way at its last dash. -/
theorem append_dash_inj {x y d e : List Char} (hd : '-' ∉ d) (he : '-' ∉ e)
    (h : x ++ '-' :: d = y ++ '-' :: e) : x = y ∧ d = e := by
  rcases List.append_eq_append_iff.mp h with ⟨a, ha, hb⟩ | ⟨a, ha, hb⟩
  · cases a with
    | nil => simp_all
    | cons c a =>
      injection hb with hc hb
      exact absurd (hb ▸ by simp) hd
  · cases a with
    | nil => simp_all
    | cons c a =>
      injection hb with hc hb
      exact absurd (hb ▸ by simp) he

/-- Texts with equally many digits behind dashes are one text only if all parts are the same. The
parts are compared from the last one on, since what stands before them can have dashes and digits of
its own. -/
theorem append_dashed_inj {x y : List Char} {s t : List (List Char)} (hs : ∀ u ∈ s, IsDigits u)
    (ht : ∀ u ∈ t, IsDigits u) (hl : s.length = t.length) (h : x ++ dashed s = y ++ dashed t) :
    x = y ∧ s = t := by
  induction s using List.reverseRecOn generalizing t with
  | nil =>
    cases t with
    | nil => simpa [dashed] using h
    | cons u t => simp at hl
  | append_singleton s u ih =>
    rcases List.eq_nil_or_concat t with rfl | ⟨t, v, rfl⟩
    · simp at hl
    · have hlast (r : List (List Char)) (w : List Char) :
          dashed (r ++ [w]) = dashed r ++ '-' :: w := by
        simp [dashed]
      rw [List.concat_eq_append] at h ht hl ⊢
      rw [hlast, hlast, ← List.append_assoc, ← List.append_assoc] at h
      obtain ⟨hfirst, hu⟩ := List.forall_mem_append.mp hs
      obtain ⟨hfirst', hv⟩ := List.forall_mem_append.mp ht
      have hudash := (hu u List.mem_cons_self).dash_notMem
      have hvdash := (hv v List.mem_cons_self).dash_notMem
      obtain ⟨hrest, hlast⟩ := append_dash_inj hudash hvdash h
      obtain ⟨hx, hst⟩ := ih hfirst hfirst' (by simpa using hl) hrest
      exact ⟨hx, by rw [hst, hlast]⟩

/-! ## Positions -/

/-- The positions as they stand at the end of an identity. -/
def positionsText (path : List Nat) : List Char :=
  path.flatMap fun i => '-' :: Nat.toDigits 10 i

theorem positionsText_eq_dashed (path : List Nat) :
    positionsText path = dashed (path.map (Nat.toDigits 10)) :=
  (List.flatMap_map ..).symm

theorem isDigits_toDigits (n : Nat) : IsDigits (Nat.toDigits 10 n) :=
  ⟨Nat.toDigits_ne_nil, fun _ hc => Nat.isDigit_of_mem_toDigits (by decide) (by decide) hc⟩

theorem isDigits_positions (path : List Nat) : ∀ s ∈ path.map (Nat.toDigits 10), IsDigits s := by
  intro s hs
  obtain ⟨i, -, rfl⟩ := List.mem_map.mp hs
  exact isDigits_toDigits i

theorem positionsText_cons (i : Nat) (path : List Nat) :
    positionsText (i :: path) = '-' :: (Nat.toDigits 10 i ++ positionsText path) := by
  simp [positionsText]

theorem outletIdentity_append (base : String) (p q : List Nat) :
    outletIdentity base (p ++ q) = outletIdentity (outletIdentity base p) q := by
  simp [outletIdentity]

theorem outletIdentity_toList (base : String) (path : List Nat) :
    (outletIdentity base path).toList = base.toList ++ positionsText path := by
  induction path generalizing base with
  | nil => simp [outletIdentity, positionsText]
  | cons i path ih =>
    have h : outletIdentity base (i :: path) =
        outletIdentity (base ++ "-" ++ Decimal.natText i) path := rfl
    rw [h, ih, positionsText_cons]
    simp [Decimal.natText]

theorem toDigits_injective {m n : Nat} (h : Nat.toDigits 10 m = Nat.toDigits 10 n) : m = n := by
  have hv := congrArg (fun ds => Nat.ofDigitChars 10 ds 0) h
  simpa using hv

/-- Names with equally many positions make one text only if all of them are the same. -/
theorem append_positionsText_inj {x y : List Char} {p q : List Nat} (hl : p.length = q.length)
    (h : x ++ positionsText p = y ++ positionsText q) : x = y ∧ p = q := by
  rw [positionsText_eq_dashed, positionsText_eq_dashed] at h
  obtain ⟨hx, hp⟩ := append_dashed_inj (isDigits_positions p) (isDigits_positions q)
    (by simpa using hl) h
  exact ⟨hx, (List.map_inj_right fun _ _ => toDigits_injective).mp hp⟩

/-- Identities inside `p` and at least as many loops `q` are the same text exactly if the first name
spells the positions that it lacks, and the other positions are the same. -/
theorem outletIdentity_eq_iff {x y : String} {p q : List Nat} (hl : p.length ≤ q.length) :
    outletIdentity x p = outletIdentity y q ↔
      ∃ extra, q = extra ++ p ∧ x = outletIdentity y extra := by
  constructor
  · intro h
    have hq : q = q.take (q.length - p.length) ++ q.drop (q.length - p.length) :=
      (List.take_append_drop _ q).symm
    have ht := congrArg String.toList h
    rw [hq, outletIdentity_append, outletIdentity_toList, outletIdentity_toList] at ht
    obtain ⟨hx, hp⟩ := append_positionsText_inj (by simp; omega) ht
    refine ⟨q.take (q.length - p.length), ?_, String.toList_injective hx⟩
    conv_lhs => rw [hq, ← hp]
  · rintro ⟨extra, rfl, rfl⟩
    exact (outletIdentity_append y extra p).symm

end Helper

/-! ## Overlap -/

namespace Outlet

open Helper

theorem isIndexSuffix_dashed {segments : List (List Char)} (h : ∀ s ∈ segments, IsDigits s) :
    isIndexSuffix segments.length (dashed segments) = true := by
  induction segments with
  | nil => rfl
  | cons s segments ih =>
    obtain ⟨hs, hsegments⟩ := List.forall_mem_cons.mp h
    -- The digits end where the next dash or the end of the text is.
    have hrest : (dashed segments).takeWhile Char.isDigit = [] ∧
        (dashed segments).dropWhile Char.isDigit = dashed segments := by
      cases segments with
      | nil => exact ⟨rfl, rfl⟩
      | cons t segments => rw [dashed_cons]; exact ⟨rfl, rfl⟩
    rw [dashed_cons, List.length_cons, isIndexSuffix, List.takeWhile_append_of_pos hs.2,
      List.dropWhile_append_of_pos hs.2, hrest.1, hrest.2, ih hsegments]
    simpa using hs.1

theorem isIndexSuffix_positionsText (path : List Nat) :
    isIndexSuffix path.length (positionsText path) = true := by
  have h := isIndexSuffix_dashed (isDigits_positions path)
  rwa [List.length_map, ← positionsText_eq_dashed] at h

/-- A name with positions is the name and then as many positions. -/
theorem extends?_outletIdentity (name : String) (path : List Nat) :
    extends? name.toList (outletIdentity name path).toList path.length = true := by
  simp [extends?, outletIdentity_toList, isIndexSuffix_positionsText]

theorem namesOverlap_of_identity_eq {x y : String} {p q : List Nat}
    (h : outletIdentity x p = outletIdentity y q) :
    namesOverlap x.toList p.length y.toList q.length = true := by
  by_cases hl : p.length ≤ q.length
  · obtain ⟨extra, rfl, rfl⟩ := (outletIdentity_eq_iff hl).mp h
    simpa [namesOverlap] using extends?_outletIdentity y extra
  · obtain ⟨extra, rfl, rfl⟩ := (outletIdentity_eq_iff (by omega)).mp h.symm
    rw [namesOverlap, if_neg hl]
    simpa using extends?_outletIdentity x extra

end Outlet

end UiTemplate
