import Mathlib.Data.List.Chain
import UiTemplate.Proofs.Template.Pieces

/-!
# What the scanner gives

Every piece that is read from a text can stand where it was read, whatever follows it, and two texts
never follow each other.

- `startsPiece_iff`: the marks at which a text ends.
- `pieces_spec`: the pieces of a text are well-formed, and no text follows a text.
-/

namespace UiTemplate

open Piece

/-! ## Marks -/

/-- The marks that start a tag or a comment. -/
inductive IsTagMark : List Char → Prop where
  | comment : IsTagMark ['<', '!', '-', '-']
  | close : IsTagMark ['<', '/']
  | element (c : Char) (h : c.isAlpha = true) : IsTagMark ['<', c]

/-- The marks that end a text. -/
inductive IsMark : List Char → Prop where
  | braces : IsMark ['\x7b', '\x7b']
  | tag {mark : List Char} : IsTagMark mark → IsMark mark

theorem startsMarkup_iff {cs : List Char} :
    startsMarkup cs = true ↔ ∃ mark, IsTagMark mark ∧ mark <+: cs := by
  constructor
  · intro h
    unfold startsMarkup at h
    split at h
    · exact ⟨_, .comment, _, rfl⟩
    · exact ⟨_, .close, _, rfl⟩
    · rename_i c rest _ _
      exact ⟨_, .element c h, rest, rfl⟩
    · cases h
  · rintro ⟨mark, hm, rest, rfl⟩
    cases hm with
    | comment => rfl
    | close => rfl
    | element c h =>
      unfold startsMarkup
      split
      · rfl
      · rfl
      · rename_i hcs
        cases hcs
        exact h
      · rename_i hcs
        exact absurd rfl (hcs c rest)

theorem startsPiece_iff {cs : List Char} :
    startsPiece cs = true ↔ ∃ mark, IsMark mark ∧ mark <+: cs := by
  constructor
  · intro h
    unfold startsPiece at h
    split at h
    · exact ⟨_, .braces, _, rfl⟩
    · obtain ⟨mark, hm, hp⟩ := startsMarkup_iff.mp h
      exact ⟨mark, .tag hm, hp⟩
  · rintro ⟨mark, hm, hp⟩
    unfold startsPiece
    split
    · rfl
    · rename_i hcs
      cases hm with
      | braces =>
        obtain ⟨rest, rfl⟩ := hp
        exact absurd rfl (hcs rest)
      | tag hm => exact startsMarkup_iff.mpr ⟨mark, hm, hp⟩

theorem startsPiece_eq_false_iff {cs : List Char} :
    startsPiece cs = false ↔ ∀ mark, IsMark mark → ¬mark <+: cs := by
  rw [← Bool.not_eq_true, startsPiece_iff]
  simp only [not_exists, not_and]

/-! ## Well-formed pieces -/

/-- The name of a tag: a letter with characters of such names. -/
def IsTagName (tag : String) : Prop :=
  (tag.toList.head?.map Char.isAlpha).getD false = true ∧ ∀ c ∈ tag.toList, isTagChar c = true

theorem IsTagName.exists_cons {tag : String} (h : IsTagName tag) :
    ∃ c cs, tag.toList = c :: cs ∧ c.isAlpha = true := by
  have hhead := h.1
  cases htag : tag.toList with
  | nil =>
    rw [htag] at hhead
    cases hhead
  | cons c cs =>
    rw [htag] at hhead
    exact ⟨c, cs, rfl, hhead⟩

/-- An attribute as it can be read: its name is not empty. -/
structure RawAttribute.WellFormed (a : RawAttribute) : Prop where
  nonempty : a.name.toList ≠ []
  chars : ∀ c ∈ a.name.toList, isNameChar c = true

/-- A piece as it can be read: no mark of another piece stands in it. The attributes of a tag are in
the order of the text. -/
def Piece.WellFormed : Piece → Prop
  | text value _ => value.toList ≠ [] ∧ spanText value.toList = (value.toList, [])
  | interpolation .. => True
  | comment value _ => Place.Delimits ['-', '-', '>'] value.toList
  | openTag tag attributes closed _ =>
    IsTagName tag ∧ (∀ a ∈ attributes, a.WellFormed) ∧
      attributes.Pairwise (fun a b => a.start ≤ b.start) ∧
      (closed = false → tag ∉ voidTags)
  | closeTag tag _ => IsTagName tag

/-- Whether the piece is a text. -/
def Piece.isText : Piece → Bool
  | text .. => true
  | _ => false

/-- The pieces are not both texts. -/
def Piece.Apart (p q : Piece) : Prop :=
  p.isText = true → q.isText = false

/-! ## Tags -/

theorem readValue_spec {name : String} {start : Nat} {p q : Place} {a : RawAttribute}
    (h : readValue name start p = .ok (a, q)) :
    a.name = name ∧ a.start = start ∧ p.offset ≤ q.offset := by
  simp only [readValue] at h
  split at h
  · split at h
    · cases h
    · rename_i hb
      have h1 := Place.offset_le_skip 1 p
      have h2 := Place.offset_le_breakOn hb
      cases h
      exact ⟨rfl, rfl, by omega⟩
  · split at h
    · cases h
    · have h1 := Place.offset_le_span isValueChar p
      cases h
      exact ⟨rfl, rfl, h1⟩

theorem mem_span_imp {keep : Char → Bool} {p : Place} {c : Char} (h : c ∈ (p.span keep).1) :
    keep c = true :=
  List.all_eq_true.mp List.all_takeWhile c h

theorem readAttribute_spec {p q : Place} {a : RawAttribute} (h : readAttribute p = .ok (a, q)) :
    a.WellFormed ∧ a.start = p.offset ∧ p.offset ≤ q.offset := by
  have hspan := Place.offset_le_span isNameChar p
  simp only [readAttribute] at h
  split at h
  · cases h
  · rename_i hne
    have hwf (value : Option String) (start valueStart : Nat) : RawAttribute.WellFormed
        ⟨String.ofList (p.span isNameChar).1, value, start, valueStart⟩ :=
      ⟨by simpa using hne, fun c hc => mem_span_imp (by simpa using hc)⟩
    split at h
    · obtain ⟨hname, hstart, hle⟩ := readValue_spec h
      have h1 := Place.offset_le_skipBlanks (p.span isNameChar).2
      have h2 := Place.offset_le_skip 1 (p.span isNameChar).2.skipBlanks
      have h3 := Place.offset_le_skipBlanks ((p.span isNameChar).2.skipBlanks.skip 1)
      refine ⟨?_, hstart, by omega⟩
      have hw := hwf a.value a.start a.valueStart
      rw [← hname] at hw
      exact hw
    · cases h
      exact ⟨hwf none _ _, rfl, hspan⟩

/-- The attributes of a start tag come in the order of the text. -/
theorem readAttributes_spec {tag : String} {start : Nat} {p q : Place}
    {attributes : List RawAttribute} {closed : Bool}
    (h : readAttributes tag start p = .ok (attributes, closed, q)) :
    (∀ a ∈ attributes, a.WellFormed ∧ p.offset ≤ a.start) ∧
      attributes.Pairwise (fun a b => a.start ≤ b.start) := by
  induction hn : p.rest.length using Nat.strongRecOn generalizing p attributes closed q with
  | ind n ih =>
    have hblanks := Place.offset_le_skipBlanks p
    rw [readAttributes] at h
    split at h
    · cases h
    · split at h
      · cases h
        exact ⟨fun a ha => absurd ha List.not_mem_nil, .nil⟩
      · split at h
        · cases h
          exact ⟨fun a ha => absurd ha List.not_mem_nil, .nil⟩
        · split at h
          · cases h
          · rename_i a r hr
            obtain ⟨hwf, hstart, hle⟩ := readAttribute_spec hr
            have hlt := length_readAttribute hr
            have hlen := Place.length_skipBlanks p
            split at h
            · cases h
            · rename_i more hmore
              obtain ⟨hall, hsorted⟩ := ih r.rest.length (by omega) hmore rfl
              cases h
              refine ⟨fun b hb => ?_, List.pairwise_cons.mpr ⟨fun b hb => ?_, hsorted⟩⟩
              · rcases List.mem_cons.mp hb with rfl | hb
                · exact ⟨hwf, by omega⟩
                · obtain ⟨hw, hge⟩ := hall b hb
                  exact ⟨hw, by omega⟩
              · have hge := (hall b hb).2
                omega

/-- The name of a tag is read where a tag starts that closes nothing and is no comment. -/
theorem isTagName_of_starts {p : Place} (h : startsMarkup p.rest = true)
    (hc : p.startsWith "<!--" = false) (hs : p.startsWith "</" = false) :
    IsTagName (String.ofList ((p.skip 1).span isTagChar).1) := by
  obtain ⟨mark, hm, hp⟩ := startsMarkup_iff.mp h
  rw [Place.startsWith_eq_false] at hc hs
  cases hm with
  | comment => exact absurd hp hc
  | close => exact absurd hp hs
  | element c hc =>
    obtain ⟨rest, hrest⟩ := hp
    have hchar : isTagChar c = true := by
      simp [isTagChar, Char.isAlphanum, hc]
    refine ⟨?_, fun d hd => mem_span_imp (by simpa using hd)⟩
    simp [Place.span, Place.skip, ← hrest, hchar, hc]

/-! ## Pieces -/

theorem spanText_spec (cs : List Char) :
    spanText (spanText cs).1 = ((spanText cs).1, []) ∧
      ((spanText cs).2 = [] ∨ startsPiece (spanText cs).2 = true) := by
  induction cs with
  | nil => exact ⟨rfl, .inl rfl⟩
  | cons c cs ih =>
    rw [spanText]
    split
    · rename_i h
      exact ⟨rfl, .inr h⟩
    · rename_i h
      rw [Bool.not_eq_true] at h
      -- A mark at the front of the text that was taken would be one of the whole text.
      have hfront : startsPiece (c :: (spanText cs).1) = false := by
        rw [startsPiece_eq_false_iff] at h ⊢
        intro mark hm hp
        refine h mark hm (hp.trans ⟨(spanText cs).2, ?_⟩)
        exact congrArg (List.cons c) (append_spanText cs)
      refine ⟨?_, ih.2⟩
      show spanText (c :: (spanText cs).1) = _
      rw [spanText, if_neg (by simp [hfront]), ih.1]

theorem readOpenTag_wellFormed {p q : Place} {piece : Piece} (h : readOpenTag p = .ok (piece, q))
    (hname : IsTagName (String.ofList ((p.skip 1).span isTagChar).1)) :
    piece.WellFormed ∧ piece.isText = false := by
  simp only [readOpenTag] at h
  split at h
  · cases h
  · rename_i attributes closed r hr
    obtain ⟨hall, hsorted⟩ := readAttributes_spec hr
    cases h
    refine ⟨⟨hname, fun a ha => (hall a ha).1, hsorted, fun hc => ?_⟩, rfl⟩
    rw [Bool.or_eq_false_iff] at hc
    simpa using hc.2

theorem readCloseTag_wellFormed {p q : Place} {piece : Piece}
    (h : readCloseTag p = .ok (piece, q)) : piece.WellFormed ∧ piece.isText = false := by
  simp only [readCloseTag] at h
  split at h
  · rename_i hc
    rw [Bool.and_eq_true] at hc
    cases h
    exact ⟨⟨by simpa using hc.1, fun c hc => mem_span_imp (by simpa using hc)⟩, rfl⟩
  · cases h

/-- A piece that is read is well-formed, and a text ends where another piece starts. -/
theorem next_spec {p q : Place} {piece : Piece} (hne : p.rest ≠ [])
    (h : next p = .ok (piece, q)) :
    piece.WellFormed ∧ (piece.isText = true →
      startsPiece p.rest = false ∧ (q.rest = [] ∨ startsPiece q.rest = true)) := by
  have other {piece : Piece} (hp : piece.WellFormed ∧ piece.isText = false) :
      piece.WellFormed ∧ (piece.isText = true →
        startsPiece p.rest = false ∧ (q.rest = [] ∨ startsPiece q.rest = true)) :=
    ⟨hp.1, fun ht => by simp [hp.2] at ht⟩
  rw [next] at h
  split at h
  · split at h
    · cases h
    · rename_i value r hb
      rw [Place.breakOn, Option.map_eq_some_iff] at hb
      obtain ⟨⟨b, a⟩, hb, hba⟩ := hb
      have hd := (Place.breakList_eq_some (by simp) hb).2
      cases hba
      cases h
      refine other ⟨?_, rfl⟩
      rw [Piece.WellFormed, String.toList_ofList]
      exact hd
  · rename_i hcomment
    split at h
    · exact other (readCloseTag_wellFormed h)
    · rename_i hclose
      split at h
      · rename_i hstarts
        exact other (readOpenTag_wellFormed h
          (isTagName_of_starts hstarts (by simpa using hcomment) (by simpa using hclose)))
      · rename_i hmarkup
        split at h
        · dsimp only at h
          split at h
          · cases h
          · cases h
            exact other ⟨trivial, rfl⟩
        · rename_i hbraces
          have hstarts : startsPiece p.rest = false :=
            startsPiece_eq_false (by simpa using hmarkup) (by simpa using hbraces)
          obtain ⟨hvalue, hrest⟩ := spanText_spec p.rest
          have hpos := spanText_ne_nil hne hstarts
          cases h
          refine ⟨⟨?_, ?_⟩, fun _ => ⟨hstarts, hrest⟩⟩
          · rw [String.toList_ofList]
            exact List.length_pos_iff.mp hpos
          · rw [String.toList_ofList]
            exact hvalue

/-- The pieces of a text are well-formed, no text follows a text, and where another piece starts no
text comes first. -/
theorem pieces_spec (p : Place) :
    (∀ piece ∈ (pieces p).1, piece.WellFormed) ∧ (pieces p).1.IsChain Apart ∧
      (startsPiece p.rest = true → ∀ piece ∈ (pieces p).1.head?, piece.isText = false) := by
  induction hn : p.rest.length using Nat.strongRecOn generalizing p with
  | ind n ih =>
    rw [pieces]
    split
    · exact ⟨fun _ hp => absurd hp List.not_mem_nil, .nil, fun _ _ hp => by cases hp⟩
    · rename_i hne
      split
      · exact ⟨fun _ hp => absurd hp List.not_mem_nil, .nil, fun _ _ hp => by cases hp⟩
      · rename_i piece q hnext
        have hlt := length_next hne hnext
        obtain ⟨hwf, htext⟩ := next_spec hne hnext
        obtain ⟨hall, hchain, hhead⟩ := ih q.rest.length (by omega) q rfl
        refine ⟨List.forall_mem_cons.mpr ⟨hwf, hall⟩, ?_, fun hs other ho => ?_⟩
        · refine List.isChain_cons.mpr ⟨fun other ho ht => ?_, hchain⟩
          rcases (htext ht).2 with hnil | hstarts
          · have hempty : pieces q = ([], none) := by
              rw [pieces, dif_pos hnil]
            rw [hempty] at ho
            exact absurd ho (by simp)
          · exact hhead hstarts other ho
        · cases ho
          cases ht : piece.isText with
          | false => rfl
          | true =>
            rw [(htext ht).1] at hs
            cases hs

end UiTemplate
