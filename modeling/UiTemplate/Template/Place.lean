import UiTemplate.Text.Blank
import UiTemplate.Text.Bytes

/-!
# Reading from a place

A place is what is left of a text with the byte at which it starts. Every step to a later place
takes a text off the front, so its offset grows by that text's bytes.
-/

namespace UiTemplate

/-- What is left of a text, and the byte at which that starts. -/
structure Place where
  offset : Nat
  rest : List Char
  deriving DecidableEq, Repr

namespace Place

/-- The place after the characters at the front that satisfy `keep`, with those characters. -/
def span (keep : Char → Bool) (p : Place) : List Char × Place :=
  let taken := p.rest.takeWhile keep
  (taken, ⟨p.offset + Text.byteLength taken, p.rest.dropWhile keep⟩)

/-- The place after the next `n` characters. -/
def skip (n : Nat) (p : Place) : Place :=
  ⟨p.offset + Text.byteLength (p.rest.take n), p.rest.drop n⟩

/-- The place after the blanks at the front. -/
def skipBlanks (p : Place) : Place :=
  (p.span Text.isBlank).2

/-- Whether a mark stands at the place. -/
def startsWith (mark : String) (p : Place) : Bool :=
  mark.toList.isPrefixOf p.rest

/-- What stands before the first occurrence of a mark, and what stands after it. -/
def breakList (mark : List Char) : List Char → Option (List Char × List Char)
  | [] => none
  | c :: cs =>
    if mark.isPrefixOf (c :: cs) then some ([], (c :: cs).drop mark.length)
    else (breakList mark cs).map fun (before, after) => (c :: before, after)

/-- The text up to the first occurrence of a mark and the place after the mark. -/
def breakOn (mark : List Char) (p : Place) : Option (List Char × Place) :=
  (breakList mark p.rest).map fun (before, after) =>
    (before, ⟨p.offset + Text.byteLength before + Text.byteLength mark, after⟩)

/-! ## Every step gets shorter -/

theorem length_span (keep : Char → Bool) (p : Place) :
    (p.span keep).1.length + (p.span keep).2.rest.length = p.rest.length := by
  rw [← List.length_append]
  simp [span, List.takeWhile_append_dropWhile]

theorem length_skipBlanks (p : Place) : p.skipBlanks.rest.length ≤ p.rest.length := by
  have := length_span Text.isBlank p
  simp only [skipBlanks]
  omega

theorem length_skip (n : Nat) (p : Place) : (p.skip n).rest.length = p.rest.length - n := by
  simp [skip]

theorem length_breakList {mark cs before after : List Char} (hm : mark ≠ [])
    (h : breakList mark cs = some (before, after)) : after.length < cs.length := by
  induction cs generalizing before after with
  | nil => simp [breakList] at h
  | cons c cs ih =>
    have hpos := List.length_pos_iff.mpr hm
    simp only [breakList] at h
    split at h
    · simp only [Option.some.injEq, Prod.mk.injEq] at h
      rw [← h.2]
      simp only [List.length_drop, List.length_cons]
      omega
    · cases hb : breakList mark cs with
      | none => simp [hb] at h
      | some pair =>
        obtain ⟨b, a⟩ := pair
        simp only [hb, Option.map_some, Option.some.injEq, Prod.mk.injEq] at h
        have := ih hb
        rw [← h.2]
        simp only [List.length_cons]
        omega

theorem length_breakOn {mark : List Char} {p q : Place} {before : List Char} (hm : mark ≠ [])
    (h : p.breakOn mark = some (before, q)) : q.rest.length < p.rest.length := by
  simp only [breakOn, Option.map_eq_some_iff, Prod.exists, Prod.mk.injEq] at h
  obtain ⟨b, a, hb, _, rfl⟩ := h
  exact length_breakList hm hb

end Place

end UiTemplate
