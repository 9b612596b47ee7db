import UiTemplate.Proofs.Template.Pieces

/-!
# The extent of a text

Reading from a place never leaves the text, and every piece takes at least one byte of it.

- `Place.stop`: the byte at which the text of a place ends; no step changes it.
- `starts_le_stop`: pieces and attributes start inside the text.
- `length_pieces_le`: a text has no more pieces than bytes.
-/

namespace UiTemplate

namespace Text

theorem length_le_byteLength (cs : List Char) : cs.length ≤ byteLength cs := by
  induction cs with
  | nil => exact Nat.le_refl 0
  | cons c cs ih =>
    have hpos := c.utf8Size_pos
    rw [List.length_cons, byteLength]
    omega

end Text

namespace Place

/-- The byte at which the text ends. -/
def stop (p : Place) : Nat :=
  p.offset + Text.byteLength p.rest

theorem offset_le_stop (p : Place) : p.offset ≤ p.stop :=
  Nat.le_add_right _ _

@[simp]
theorem stop_span (keep : Char → Bool) (p : Place) : (p.span keep).2.stop = p.stop := by
  have hsplit : Text.byteLength p.rest =
      Text.byteLength (p.rest.takeWhile keep) + Text.byteLength (p.rest.dropWhile keep) := by
    rw [← Text.byteLength_append, List.takeWhile_append_dropWhile]
  simp only [stop, span, hsplit, Nat.add_assoc]

@[simp]
theorem stop_skip (n : Nat) (p : Place) : (p.skip n).stop = p.stop := by
  have hsplit : Text.byteLength p.rest =
      Text.byteLength (p.rest.take n) + Text.byteLength (p.rest.drop n) := by
    rw [← Text.byteLength_append, List.take_append_drop]
  simp only [stop, skip, hsplit, Nat.add_assoc]

@[simp]
theorem stop_skipBlanks (p : Place) : p.skipBlanks.stop = p.stop :=
  stop_span Text.isBlank p

theorem stop_breakOn {mark before : List Char} {p q : Place} (hm : mark ≠ [])
    (h : p.breakOn mark = some (before, q)) : q.stop = p.stop := by
  rw [breakOn, Option.map_eq_some_iff] at h
  obtain ⟨⟨b, a⟩, hb, h⟩ := h
  have hsplit := (breakList_eq_some hm hb).1
  cases h
  simp only [stop, hsplit, Text.byteLength_append, Nat.add_assoc]

end Place

open Piece

/-! ## Attributes -/

theorem readValue_stop {name : String} {start : Nat} {p q : Place} {a : RawAttribute}
    (h : readValue name start p = .ok (a, q)) : a.start = start ∧ q.stop = p.stop := by
  simp only [readValue] at h
  split at h
  · split at h
    · cases h
    · rename_i hb
      have hstop := Place.stop_breakOn (by simp) hb
      cases h
      exact ⟨rfl, hstop.trans (Place.stop_skip 1 p)⟩
  · split at h
    · cases h
    · cases h
      exact ⟨rfl, Place.stop_span isValueChar p⟩

theorem readAttribute_stop {p q : Place} {a : RawAttribute} (h : readAttribute p = .ok (a, q)) :
    a.start ≤ p.stop ∧ q.stop = p.stop := by
  simp only [readAttribute] at h
  split at h
  · cases h
  · split at h
    · obtain ⟨hstart, hstop⟩ := readValue_stop h
      refine ⟨hstart ▸ p.offset_le_stop, ?_⟩
      simpa using hstop
    · cases h
      exact ⟨p.offset_le_stop, Place.stop_span isNameChar p⟩

theorem readAttributes_stop {tag : String} {start : Nat} {p q : Place}
    {attributes : List RawAttribute} {closed : Bool}
    (h : readAttributes tag start p = .ok (attributes, closed, q)) :
    (∀ a ∈ attributes, a.start ≤ p.stop) ∧ q.stop = p.stop := by
  induction hn : p.rest.length using Nat.strongRecOn generalizing p attributes closed q with
  | ind n ih =>
    rw [readAttributes] at h
    split at h
    · cases h
    · split at h
      · cases h
        exact ⟨fun a ha => absurd ha List.not_mem_nil, by simp⟩
      · split at h
        · cases h
          exact ⟨fun a ha => absurd ha List.not_mem_nil, by simp⟩
        · split at h
          · cases h
          · rename_i a r hr
            obtain ⟨hstart, hstop⟩ := readAttribute_stop hr
            rw [Place.stop_skipBlanks] at hstart hstop
            have hlt := length_readAttribute hr
            have hlen := Place.length_skipBlanks p
            split at h
            · cases h
            · rename_i more hmore
              obtain ⟨hall, hend⟩ := ih r.rest.length (by omega) hmore rfl
              cases h
              rw [hstop] at hall hend
              exact ⟨List.forall_mem_cons.mpr ⟨hstart, hall⟩, hend⟩

/-! ## Pieces -/

/-- Where the piece and the attributes in it start. -/
def Piece.starts : Piece → List Nat
  | text _ start => [start]
  | interpolation _ start => [start]
  | comment _ start => [start]
  | openTag _ attributes _ start => start :: attributes.map RawAttribute.start
  | closeTag _ start => [start]

theorem next_stop {p q : Place} {piece : Piece} (h : next p = .ok (piece, q)) :
    (∀ i ∈ piece.starts, i ≤ p.stop) ∧ q.stop = p.stop := by
  have single {start : Nat} (hs : start ≤ p.stop) : ∀ i ∈ [start], i ≤ p.stop :=
    List.forall_mem_singleton.mpr hs
  rw [next] at h
  split at h
  · split at h
    · cases h
    · rename_i hb
      have hstop := Place.stop_breakOn (by simp) hb
      cases h
      exact ⟨single p.offset_le_stop, hstop.trans (Place.stop_skip 4 p)⟩
  · split at h
    · simp only [readCloseTag] at h
      split at h
      · cases h
        exact ⟨single p.offset_le_stop, by simp⟩
      · cases h
    · split at h
      · simp only [readOpenTag] at h
        split at h
        · cases h
        · rename_i hr
          obtain ⟨hall, hstop⟩ := readAttributes_stop hr
          rw [Place.stop_span, Place.stop_skip] at hall hstop
          cases h
          exact ⟨List.forall_mem_cons.mpr ⟨p.offset_le_stop, List.forall_mem_map.mpr hall⟩, hstop⟩
      · split at h
        · dsimp only at h
          split at h
          · cases h
          · rename_i hb
            have hstop := Place.stop_breakOn (by simp) hb
            cases h
            refine ⟨single ?_, hstop.trans (Place.stop_skip 2 p)⟩
            rw [← Place.stop_skip 2 p]
            exact Place.offset_le_stop _
        · cases h
          refine ⟨single p.offset_le_stop, ?_⟩
          have hsplit := congrArg Text.byteLength (Piece.append_spanText p.rest)
          rw [Text.byteLength_append] at hsplit
          simp only [Place.stop]
          omega

/-- Pieces and their attributes start inside the text. -/
theorem starts_le_stop (p : Place) :
    ∀ piece ∈ (pieces p).1, ∀ i ∈ piece.starts, i ≤ p.stop := by
  induction hn : p.rest.length using Nat.strongRecOn generalizing p with
  | ind n ih =>
    rw [pieces]
    split
    · exact fun _ hp => absurd hp List.not_mem_nil
    · rename_i hne
      split
      · exact fun _ hp => absurd hp List.not_mem_nil
      · rename_i piece q hnext
        have hlt := length_next hne hnext
        obtain ⟨hfirst, hstop⟩ := next_stop hnext
        have hrest := ih q.rest.length (by omega) q rfl
        rw [hstop] at hrest
        exact List.forall_mem_cons.mpr ⟨hfirst, hrest⟩

/-- A text has no more pieces than characters. -/
theorem length_pieces_le (p : Place) : (pieces p).1.length ≤ p.rest.length := by
  induction hn : p.rest.length using Nat.strongRecOn generalizing p with
  | ind n ih =>
    rw [pieces]
    split
    · exact Nat.zero_le _
    · rename_i hne
      split
      · exact Nat.zero_le _
      · rename_i piece q hnext
        have hlt := length_next hne hnext
        have hrest := ih q.rest.length (by omega) q rfl
        rw [List.length_cons]
        omega

end UiTemplate
