import UiTemplate.Template.Piece

/-!
# Pieces one by one

The pieces of a text are read one by one from a place; these lemmas follow the reader along a given
text.

- `Place.span_append`, `Place.breakList_eq_some`: where a step along a text ends.
- `pieces_eq_cons`: a text that starts with a piece.
-/

namespace UiTemplate

namespace Place

/-! ## Steps along a text -/

/-- What is taken off the front ends where a character is not kept. -/
theorem span_append (keep : Char → Bool) (taken : List Char) {after : List Char} (offset : Nat)
    (ht : ∀ c ∈ taken, keep c = true) (ha : ∀ c ∈ after.head?, keep c = false) :
    span keep ⟨offset, taken ++ after⟩ = (taken, ⟨offset + Text.byteLength taken, after⟩) := by
  have hstop : after.takeWhile keep = [] ∧ after.dropWhile keep = after := by
    cases after with
    | nil => exact ⟨rfl, rfl⟩
    | cons c after => simp [ha c rfl]
  have htaken : (taken ++ after).takeWhile keep = taken := by
    rw [List.takeWhile_append_of_pos ht, hstop.1, List.append_nil]
  have hrest : (taken ++ after).dropWhile keep = after := by
    rw [List.dropWhile_append_of_pos ht, hstop.2]
  simp only [span, htaken, hrest]

theorem skipBlanks_eq {p : Place} (h : ∀ c ∈ p.rest.head?, Text.isBlank c = false) :
    p.skipBlanks = p := by
  have hspan := span_append Text.isBlank [] p.offset (by simp) h
  exact congrArg Prod.snd hspan

theorem startsWith_iff {mark : String} {p : Place} :
    p.startsWith mark = true ↔ mark.toList <+: p.rest :=
  List.isPrefixOf_iff_prefix

theorem startsWith_eq_false {mark : String} {p : Place} :
    p.startsWith mark = false ↔ ¬mark.toList <+: p.rest := by
  rw [← startsWith_iff, Bool.not_eq_true]

theorem startsWith_cons_of_ne (mark : String) {c d : Char} {m cs : List Char} (offset : Nat)
    (hm : mark.toList = d :: m) (h : c ≠ d) : startsWith mark ⟨offset, c :: cs⟩ = false := by
  rw [startsWith_eq_false, hm, List.cons_prefix_cons]
  exact fun hp => h hp.1.symm

theorem startsWith_cons_cons_of_ne (mark : String) {b c d e : Char} {m cs : List Char}
    (offset : Nat) (hm : mark.toList = d :: e :: m) (h : c ≠ e) :
    startsWith mark ⟨offset, b :: c :: cs⟩ = false := by
  rw [startsWith_eq_false, hm, List.cons_prefix_cons, List.cons_prefix_cons]
  exact fun hp => h hp.2.1.symm

/-- The mark stands nowhere before the end of the text, also not in part. -/
def Delimits (mark text : List Char) : Prop :=
  ∀ after, breakList mark (text ++ mark ++ after) = some (text, after)

theorem breakList_append {mark : List Char} (hm : mark ≠ []) (after : List Char) :
    breakList mark (mark ++ after) = some ([], after) := by
  cases hmark : mark with
  | nil => exact absurd hmark hm
  | cons c cs =>
    have hp : (c :: cs).isPrefixOf (c :: (cs ++ after)) = true :=
      List.isPrefixOf_iff_prefix.mpr ⟨after, rfl⟩
    rw [List.cons_append, breakList, if_pos hp, ← List.cons_append, List.drop_left]

/-- What stands before the first occurrence of a mark is delimited by it. -/
theorem breakList_eq_some {mark cs before after : List Char} (hm : mark ≠ [])
    (h : breakList mark cs = some (before, after)) :
    cs = before ++ mark ++ after ∧ Delimits mark before := by
  induction cs generalizing before with
  | nil => cases h
  | cons c cs ih =>
    rw [breakList] at h
    split at h
    · rename_i hp
      cases h
      obtain ⟨rest, hrest⟩ := List.isPrefixOf_iff_prefix.mp hp
      refine ⟨?_, breakList_append hm⟩
      rw [← hrest, List.drop_left]
      rfl
    · rename_i hp
      rw [Option.map_eq_some_iff] at h
      obtain ⟨⟨before', after'⟩, hb, h⟩ := h
      cases h
      obtain ⟨hcs, hd⟩ := ih hb
      refine ⟨by rw [hcs]; rfl, fun rest => ?_⟩
      -- Whether the mark stands at a place does not hang on what comes after its length.
      have hshort : mark.length ≤ (c :: (before' ++ mark)).length := by
        simp only [List.length_cons, List.length_append]
        omega
      have hp' : ¬mark.isPrefixOf (c :: (before' ++ mark ++ rest)) = true := by
        intro hp'
        have hpre := List.isPrefixOf_iff_prefix.mp hp'
        have hown : mark <+: c :: (before' ++ mark) :=
          List.prefix_of_prefix_length_le hpre ⟨rest, rfl⟩ hshort
        apply hp
        rw [List.isPrefixOf_iff_prefix, hcs]
        exact hown.trans ⟨after, rfl⟩
      show breakList mark (c :: (before' ++ mark ++ rest)) = _
      rw [breakList, if_neg hp', hd rest]
      rfl

theorem Delimits.breakOn {mark text : List Char} (h : Delimits mark text) (offset : Nat)
    (after : List Char) :
    Place.breakOn mark ⟨offset, text ++ mark ++ after⟩ =
      some (text, ⟨offset + Text.byteLength text + Text.byteLength mark, after⟩) := by
  rw [Place.breakOn, h after]
  rfl

theorem delimits_of_not_mem {c : Char} {text : List Char} (h : c ∉ text) : Delimits [c] text := by
  induction text with
  | nil => exact breakList_append (by simp)
  | cons d text ih =>
    rw [List.mem_cons, not_or] at h
    intro after
    have hp : ¬[c].isPrefixOf (d :: (text ++ [c] ++ after)) = true := by
      simp [h.1]
    show breakList [c] (d :: (text ++ [c] ++ after)) = _
    rw [breakList, if_neg hp, ih h.2 after]
    rfl

/-! ## No step goes back -/

theorem offset_le_span (keep : Char → Bool) (p : Place) : p.offset ≤ (p.span keep).2.offset :=
  Nat.le_add_right _ _

theorem offset_le_skipBlanks (p : Place) : p.offset ≤ p.skipBlanks.offset :=
  offset_le_span Text.isBlank p

theorem offset_le_skip (n : Nat) (p : Place) : p.offset ≤ (p.skip n).offset :=
  Nat.le_add_right _ _

theorem offset_le_breakOn {mark before : List Char} {p q : Place}
    (h : p.breakOn mark = some (before, q)) : p.offset ≤ q.offset := by
  rw [breakOn, Option.map_eq_some_iff] at h
  obtain ⟨⟨b, a⟩, -, h⟩ := h
  cases h
  show p.offset ≤ p.offset + _ + _
  omega

end Place

/-! ## Pieces -/

theorem Piece.append_spanText (cs : List Char) : (spanText cs).1 ++ (spanText cs).2 = cs := by
  induction cs with
  | nil => rfl
  | cons c cs ih =>
    rw [spanText]
    split
    · rfl
    · exact congrArg (List.cons c) ih

theorem pieces_eq_nil (offset : Nat) : pieces ⟨offset, []⟩ = ([], none) := by
  rw [pieces, dif_pos rfl]

/-- A text that starts with a piece. -/
theorem pieces_eq_cons {p q : Place} {piece : Piece} {rest : List Piece × Option Flaw}
    (hp : p.rest ≠ []) (h : Piece.next p = .ok (piece, q)) (hq : pieces q = rest) :
    pieces p = (piece :: rest.1, rest.2) := by
  rw [pieces, dif_neg hp]
  split
  · rename_i flaw hf
    rw [h] at hf
    cases hf
  · rename_i piece' q' hq'
    rw [h] at hq'
    cases hq'
    rw [hq]

/-- A text that is one piece. -/
theorem pieces_eq_singleton {p : Place} {piece : Piece} (offset : Nat) (hp : p.rest ≠ [])
    (h : Piece.next p = .ok (piece, ⟨offset, []⟩)) : pieces p = ([piece], none) :=
  pieces_eq_cons hp h (pieces_eq_nil offset)

end UiTemplate
