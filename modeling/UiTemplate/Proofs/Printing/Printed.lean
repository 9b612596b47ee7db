import UiTemplate.Proofs.Printing.Scanned

/-!
# Printed pieces are read back

- `Piece.print`: how a piece is written, with its attribute values between double quotes.
- `pieces_print`: printed pieces are the pieces of the text, up to the places where they stand.
-/

namespace UiTemplate

open Piece

/-- The attribute without its places. -/
def RawAttribute.unlocated (a : RawAttribute) : RawAttribute :=
  { a with start := 0, valueStart := 0 }

/-- The piece without its places. -/
def Piece.unlocated : Piece → Piece
  | text value _ => text value 0
  | interpolation source _ => interpolation source 0
  | comment value _ => comment value 0
  | openTag tag attributes closed _ =>
    openTag tag (attributes.map RawAttribute.unlocated) closed 0
  | closeTag tag _ => closeTag tag 0

/-! ## Printing -/

/-- The attribute with the blank before it. -/
def RawAttribute.print (a : RawAttribute) : List Char :=
  match a.value with
  | some v => ' ' :: (a.name.toList ++ '=' :: '"' :: (v.toList ++ ['"']))
  | none => ' ' :: a.name.toList

/-- What ends a start tag. -/
def tagEnd (closed : Bool) : List Char :=
  if closed then ['/', '>'] else ['>']

/-- The piece as it is written. -/
def Piece.print : Piece → List Char
  | text value _ => value.toList
  | interpolation source _ => "\x7b\x7b".toList ++ source.toList ++ "\x7d\x7d".toList
  | comment value _ => ['<', '!', '-', '-'] ++ value.toList ++ ['-', '-', '>']
  | openTag tag attributes closed _ =>
    '<' :: (tag.toList ++ (attributes.flatMap RawAttribute.print ++ tagEnd closed))
  | closeTag tag _ => ['<', '/'] ++ tag.toList ++ ['>']

/-- The value of the attribute can stand between double quotes. -/
def RawAttribute.Quotable (a : RawAttribute) : Prop :=
  ∀ v ∈ a.value, '"' ∉ v.toList

/-- The piece is no interpolation, and its values can stand between double quotes. -/
def Piece.Printable : Piece → Prop
  | interpolation .. => False
  | openTag _ attributes _ _ => ∀ a ∈ attributes, a.Quotable
  | _ => True

/-! ## Attributes -/

theorem readValue_print (name : String) {v : String} (start offset : Nat) (after : List Char)
    (hv : '"' ∉ v.toList) :
    ∃ valueStart o,
      readValue name start ⟨offset, '"' :: (v.toList ++ '"' :: after)⟩ =
        .ok (⟨name, some v, start, valueStart⟩, ⟨o, after⟩) := by
  have hb := (Place.delimits_of_not_mem hv).breakOn (offset + Text.byteLength ['"']) after
  rw [List.append_assoc] at hb
  have hskip : Place.skip 1 ⟨offset, '"' :: (v.toList ++ '"' :: after)⟩ =
      ⟨offset + Text.byteLength ['"'], v.toList ++ (['"'] ++ after)⟩ := rfl
  refine ⟨offset + Text.byteLength ['"'],
    offset + Text.byteLength ['"'] + Text.byteLength v.toList + Text.byteLength ['"'], ?_⟩
  simp only [readValue, List.head?_cons, Option.filter_some, beq_self_eq_true, Bool.true_or, if_true,
    hskip, hb, String.ofList_toList]

/-- What can follow an attribute: no more of its name, and no value. -/
structure EndsAttribute (after : List Char) : Prop where
  name : ∀ c ∈ after.head?, isNameChar c = false
  value : ∀ c ∈ (after.dropWhile Text.isBlank).head?, c ≠ '='

theorem skipBlanks_cons {c : Char} (offset : Nat) (cs : List Char) (hc : Text.isBlank c = false) :
    Place.skipBlanks ⟨offset, c :: cs⟩ = ⟨offset, c :: cs⟩ := by
  apply Place.skipBlanks_eq
  simpa using hc

theorem readAttribute_print {a : RawAttribute} (offset : Nat) {after : List Char}
    (hwf : a.WellFormed) (hq : a.Quotable) (ha : EndsAttribute after) :
    ∃ a' o, readAttribute ⟨offset, a.print.tail ++ after⟩ = .ok (a', ⟨o, after⟩) ∧
      a'.unlocated = a.unlocated := by
  obtain ⟨name, value, start, valueStart⟩ := a
  obtain ⟨hnonempty, hchars⟩ := hwf
  dsimp only at hnonempty hchars
  have hne : name.toList.isEmpty = false := by
    simpa using hnonempty
  cases value with
  | none =>
    have hspan := Place.span_append isNameChar name.toList offset hchars ha.name
    have hno : Place.startsWith "="
        (Place.skipBlanks ⟨offset + Text.byteLength name.toList, after⟩) = false := by
      rw [Place.startsWith_eq_false]
      rintro ⟨rest, hrest⟩
      refine ha.value '=' ?_ rfl
      show (Place.skipBlanks ⟨offset + Text.byteLength name.toList, after⟩).rest.head? = _
      rw [← hrest]
      rfl
    refine ⟨⟨name, none, offset, offset + Text.byteLength name.toList⟩,
      offset + Text.byteLength name.toList, ?_, rfl⟩
    show readAttribute ⟨offset, name.toList ++ after⟩ = _
    simp only [readAttribute, hspan, hne, hno, Bool.false_eq_true, if_false, String.ofList_toList]
  | some v =>
    have hequals : ∀ c ∈ ('=' :: '"' :: (v.toList ++ '"' :: after)).head?, isNameChar c = false := by
      simp
      decide
    have hspan := Place.span_append isNameChar name.toList offset hchars hequals
    obtain ⟨vs, o, hv⟩ := readValue_print name offset
      (offset + Text.byteLength name.toList + Text.byteLength ['=']) after (hq v rfl)
    refine ⟨⟨name, some v, offset, vs⟩, o, ?_, rfl⟩
    show readAttribute ⟨offset, name.toList ++ '=' :: '"' :: (v.toList ++ ['"']) ++ after⟩ = _
    simp only [List.append_assoc, List.cons_append, List.nil_append]
    simp only [readAttribute, hspan, hne, skipBlanks_cons _ _ (show Text.isBlank '=' = false by decide),
      Bool.false_eq_true, if_false, String.ofList_toList]
    rw [if_pos (by simp [Place.startsWith])]
    show readValue name offset (Place.skipBlanks ⟨_, '"' :: (v.toList ++ '"' :: after)⟩) = _
    rw [skipBlanks_cons _ _ (by decide)]
    exact hv

/-! ## Start tags -/

/-- What follows the name of a tag or an attribute in a printed start tag. -/
def printedRest (attributes : List RawAttribute) (closed : Bool) (after : List Char) : List Char :=
  attributes.flatMap RawAttribute.print ++ tagEnd closed ++ after

theorem printedRest_cons (a : RawAttribute) (attributes : List RawAttribute) (closed : Bool)
    (after : List Char) :
    printedRest (a :: attributes) closed after =
      ' ' :: (a.print.tail ++ printedRest attributes closed after) := by
  have hblank : a.print = ' ' :: a.print.tail := by
    unfold RawAttribute.print
    split <;> rfl
  unfold printedRest
  rw [List.flatMap_cons, List.append_assoc, List.append_assoc, List.append_assoc, hblank]
  rfl

/-- The name of an attribute comes first after its blank. -/
theorem RawAttribute.WellFormed.head {a : RawAttribute} (h : a.WellFormed) (cs : List Char) :
    ∃ c rest, a.print.tail ++ cs = c :: rest ∧ isNameChar c = true := by
  obtain ⟨hne, hchars⟩ := h
  obtain ⟨c, name, hname⟩ := List.exists_cons_of_ne_nil hne
  have hc : isNameChar c = true := hchars c (by simp [hname])
  unfold RawAttribute.print
  cases a.value with
  | none => exact ⟨c, name ++ cs, by simp [hname], hc⟩
  | some v => exact ⟨c, name ++ '=' :: '"' :: (v.toList ++ ['"']) ++ cs, by simp [hname], hc⟩

/-- A character of an attribute's name is no blank and no mark. -/
theorem isNameChar_spec {c : Char} (h : isNameChar c = true) :
    Text.isBlank c = false ∧ c ≠ '=' ∧ c ≠ '/' ∧ c ≠ '>' := by
  unfold isNameChar at h
  simp at h
  tauto

theorem tagEnd_eq (closed : Bool) (after : List Char) :
    ∃ c cs, tagEnd closed ++ after = c :: cs ∧ (c = '/' ∨ c = '>') := by
  cases closed with
  | false => exact ⟨'>', after, rfl, .inr rfl⟩
  | true => exact ⟨'/', '>' :: after, rfl, .inl rfl⟩

theorem endsAttribute_printedRest {attributes : List RawAttribute}
    (hwf : ∀ a ∈ attributes, a.WellFormed) (closed : Bool) (after : List Char) :
    EndsAttribute (printedRest attributes closed after) := by
  cases attributes with
  | nil =>
    obtain ⟨c, cs, hcs, hc⟩ := tagEnd_eq closed after
    have hrest : printedRest [] closed after = c :: cs := hcs
    have hblank : Text.isBlank c = false := by
      rcases hc with rfl | rfl <;> decide
    rw [hrest]
    refine ⟨fun d hd => ?_, fun d hd => ?_⟩
    · cases hd
      rcases hc with rfl | rfl <;> decide
    · simp only [List.dropWhile_cons, hblank, Bool.false_eq_true, if_false, List.head?_cons,
        Option.mem_def, Option.some.injEq] at hd
      rcases hc with rfl | rfl <;> (rw [← hd]; decide)
  | cons a attributes =>
    obtain ⟨c, cs, hcs, hc⟩ := (hwf a List.mem_cons_self).head (printedRest attributes closed after)
    obtain ⟨hblank, hne, -⟩ := isNameChar_spec hc
    rw [printedRest_cons, hcs]
    refine ⟨fun d hd => ?_, fun d hd => ?_⟩
    · cases hd
      decide
    · have hspace : Text.isBlank ' ' = true := by decide
      simp only [List.dropWhile_cons, hspace, hblank, Bool.false_eq_true, if_true, if_false,
        List.head?_cons, Option.mem_def, Option.some.injEq] at hd
      rw [← hd]
      exact hne

/-- Printed attributes are read back. -/
theorem readAttributes_print {attributes : List RawAttribute} (tag : String) (start offset : Nat)
    (closed : Bool) (after : List Char) (hwf : ∀ a ∈ attributes, a.WellFormed)
    (hq : ∀ a ∈ attributes, a.Quotable) :
    ∃ attributes' o,
      readAttributes tag start ⟨offset, printedRest attributes closed after⟩ =
        .ok (attributes', closed, ⟨o, after⟩) ∧
      attributes'.map RawAttribute.unlocated = attributes.map RawAttribute.unlocated := by
  induction attributes generalizing offset with
  | nil =>
    cases closed with
    | false =>
      refine ⟨[], offset + Text.byteLength ['>'], ?_, rfl⟩
      show readAttributes tag start ⟨offset, '>' :: after⟩ = _
      rw [readAttributes, skipBlanks_cons _ _ (by decide)]
      rfl
    | true =>
      refine ⟨[], offset + Text.byteLength ['/', '>'], ?_, rfl⟩
      show readAttributes tag start ⟨offset, '/' :: '>' :: after⟩ = _
      rw [readAttributes, skipBlanks_cons _ _ (by decide)]
      rfl
  | cons a attributes ih =>
    rw [List.forall_mem_cons] at hwf hq
    have hends := endsAttribute_printedRest hwf.2 closed after
    obtain ⟨a', o, ha, hunlocated⟩ :=
      readAttribute_print (offset + Text.byteLength [' ']) hwf.1 hq.1 hends
    obtain ⟨attributes', o', hrest, hmore⟩ := ih o hwf.2 hq.2
    obtain ⟨c, cs, hcs, hc⟩ := hwf.1.head (printedRest attributes closed after)
    obtain ⟨hblank, -, hslash, hend⟩ := isNameChar_spec hc
    -- The blank before an attribute is skipped, and its name starts neither `/>` nor `>`.
    have hskip : Place.skipBlanks ⟨offset, ' ' :: (c :: cs)⟩ =
        ⟨offset + Text.byteLength [' '], c :: cs⟩ :=
      congrArg Prod.snd (Place.span_append Text.isBlank [' '] offset (by simp; decide)
        (by simpa using hblank))
    refine ⟨a' :: attributes', o', ?_, by rw [List.map_cons, List.map_cons, hunlocated, hmore]⟩
    rw [printedRest_cons, readAttributes]
    rw [hcs] at ha ⊢
    simp only [hskip, List.isEmpty_cons, Place.startsWith_cons_of_ne "/>" _ rfl hslash,
      Place.startsWith_cons_of_ne ">" _ rfl hend, Bool.false_eq_true, if_false]
    split
    · rename_i e he
      rw [hskip, ha] at he
      cases he
    · rename_i b r hb
      rw [hskip, ha] at hb
      cases hb
      rw [hrest]

/-! ## Pieces -/

theorem readOpenTag_print {tag : String} {attributes : List RawAttribute} {closed : Bool}
    {start : Nat} (offset : Nat) (after : List Char)
    (hwf : (openTag tag attributes closed start).WellFormed)
    (hp : (openTag tag attributes closed start).Printable) :
    ∃ piece o,
      readOpenTag ⟨offset, (openTag tag attributes closed start).print ++ after⟩ =
        .ok (piece, ⟨o, after⟩) ∧
      piece.unlocated = (openTag tag attributes closed start).unlocated := by
  obtain ⟨⟨-, hchars⟩, hattributes, -, hvoid⟩ := hwf
  have htag : ∀ c ∈ (printedRest attributes closed after).head?, isTagChar c = false := by
    cases attributes with
    | nil =>
      obtain ⟨c, cs, hcs, hc⟩ := tagEnd_eq closed after
      show ∀ c ∈ (tagEnd closed ++ after).head?, isTagChar c = false
      rw [hcs]
      intro d hd
      cases hd
      rcases hc with rfl | rfl <;> decide
    | cons a attributes =>
      rw [printedRest_cons]
      intro d hd
      cases hd
      decide
  obtain ⟨attributes', o, hread, hun⟩ := readAttributes_print tag offset
    (offset + Text.byteLength ['<'] + Text.byteLength tag.toList) closed after hattributes hp
  have hprint : (openTag tag attributes closed start).print ++ after =
      '<' :: (tag.toList ++ printedRest attributes closed after) := by
    simp [Piece.print, printedRest]
  have hspan : Place.span isTagChar
      (Place.skip 1 ⟨offset, '<' :: (tag.toList ++ printedRest attributes closed after)⟩) =
        (tag.toList, ⟨offset + Text.byteLength ['<'] + Text.byteLength tag.toList,
          printedRest attributes closed after⟩) :=
    Place.span_append _ _ _ hchars htag
  have hclosed : (closed || voidTags.contains tag) = closed := by
    cases closed with
    | true => rfl
    | false => simpa using hvoid rfl
  refine ⟨openTag tag attributes' closed offset, o, ?_, by simp [Piece.unlocated, hun]⟩
  simp only [readOpenTag, hprint, hspan, String.ofList_toList, hread, hclosed]

theorem readCloseTag_print {tag : String} {start : Nat} (offset : Nat) (after : List Char)
    (hwf : (closeTag tag start).WellFormed) :
    ∃ o, readCloseTag ⟨offset, (closeTag tag start).print ++ after⟩ =
      .ok (closeTag tag offset, ⟨o, after⟩) := by
  obtain ⟨hhead, hchars⟩ := hwf
  have hprint : (closeTag tag start).print ++ after = '<' :: '/' :: (tag.toList ++ '>' :: after) := by
    simp [Piece.print]
  have hspan : Place.span isTagChar
      (Place.skip 2 ⟨offset, '<' :: '/' :: (tag.toList ++ '>' :: after)⟩) =
        (tag.toList, ⟨offset + Text.byteLength ['<', '/'] + Text.byteLength tag.toList,
          '>' :: after⟩) :=
    Place.span_append _ _ _ hchars (by simp; decide)
  refine ⟨offset + Text.byteLength ['<', '/'] + Text.byteLength tag.toList +
    Text.byteLength ['>'], ?_⟩
  simp only [readCloseTag, hprint, hspan, hhead, skipBlanks_cons _ _ (show Text.isBlank '>' = false
    by decide), String.ofList_toList]
  rfl

/-- What stands behind a printed text: nothing, or a tag or a comment. -/
def FollowsText (after : List Char) : Prop :=
  after = [] ∨ after.head? = some '<' ∧ startsMarkup after = true

/-- No mark has its first character once more, so none starts in a text and ends behind it. -/
theorem IsMark.within {mark value after : List Char} (hm : IsMark mark) (hv : value ≠ [])
    (ha : FollowsText after) (hp : mark <+: value ++ after) : mark <+: value := by
  have htail : '<' ∉ mark.tail := by
    cases hm with
    | braces => decide
    | tag hm =>
      cases hm with
      | comment => decide
      | close => decide
      | element c hc =>
        intro hin
        rw [List.tail_cons, List.mem_singleton] at hin
        subst hin
        exact absurd hc (by decide)
  rcases List.prefix_or_prefix_of_prefix hp ⟨after, rfl⟩ with h | ⟨more, rfl⟩
  · exact h
  · cases more with
    | nil => exact ⟨[], by simp⟩
    | cons c more =>
      obtain ⟨d, value, rfl⟩ := List.exists_cons_of_ne_nil hv
      rw [List.prefix_append_right_inj] at hp
      rcases ha with rfl | ⟨hhead, -⟩
      · exact absurd hp (by simp)
      · obtain ⟨rest, rfl⟩ := hp
        cases hhead
        exact absurd (by simp) htail

theorem spanText_append {value after : List Char} (hv : spanText value = (value, []))
    (ha : FollowsText after) : spanText (value ++ after) = (value, after) := by
  induction value with
  | nil =>
    rcases ha with rfl | ⟨-, hstarts⟩
    · rfl
    · obtain ⟨mark, hm, hp⟩ := startsMarkup_iff.mp hstarts
      have hpiece : startsPiece after = true := startsPiece_iff.mpr ⟨mark, .tag hm, hp⟩
      cases after with
      | nil => rfl
      | cons c after => rw [List.nil_append, spanText, if_pos hpiece]
  | cons c value ih =>
    rw [spanText] at hv
    split at hv
    · cases hv
    · rename_i hno
      simp only [Prod.mk.injEq, List.cons.injEq, true_and] at hv
      have hvalue : spanText value = (value, []) := Prod.ext hv.1 hv.2
      have hno' : ¬startsPiece (c :: (value ++ after)) = true := by
        rw [startsPiece_iff] at hno ⊢
        rintro ⟨mark, hm, hp⟩
        exact hno ⟨mark, hm, hm.within (by simp) ha hp⟩
      rw [List.cons_append, spanText, if_neg hno', ih hvalue]

theorem next_eq_text {p : Place} (h : startsPiece p.rest = false) :
    next p = .ok (.text (String.ofList (spanText p.rest).1) p.offset,
      ⟨p.offset + Text.byteLength (spanText p.rest).1, (spanText p.rest).2⟩) := by
  rw [startsPiece_eq_false_iff] at h
  have hcomment : p.startsWith "<!--" = false :=
    Place.startsWith_eq_false.mpr (h _ (.tag .comment))
  have hclose : p.startsWith "</" = false :=
    Place.startsWith_eq_false.mpr (h _ (.tag .close))
  have hbraces : p.startsWith "\x7b\x7b" = false :=
    Place.startsWith_eq_false.mpr (h _ .braces)
  have hmarkup : startsMarkup p.rest = false := by
    rw [← Bool.not_eq_true, startsMarkup_iff]
    rintro ⟨mark, hm, hp⟩
    exact h mark (.tag hm) hp
  simp only [next, hcomment, hclose, hmarkup, hbraces, Bool.false_eq_true, if_false]

/-- A printed piece is the next one of the text. Behind a text the text must end or a tag or a
comment start. -/
theorem next_print {piece : Piece} (offset : Nat) {after : List Char} (hwf : piece.WellFormed)
    (hp : piece.Printable) (ha : piece.isText = true → FollowsText after) :
    ∃ piece' o, next ⟨offset, piece.print ++ after⟩ = .ok (piece', ⟨o, after⟩) ∧
      piece'.unlocated = piece.unlocated := by
  cases piece with
  | text value start =>
    obtain ⟨hne, hvalue⟩ := hwf
    have hspan := spanText_append hvalue (ha rfl)
    -- The text is not empty, so a piece that starts there would have ended it.
    have hstarts : startsPiece (value.toList ++ after) = false := by
      obtain ⟨c, cs, hcs⟩ := List.exists_cons_of_ne_nil hne
      rw [hcs, List.cons_append, ← Bool.not_eq_true]
      intro h
      rw [hcs, List.cons_append, spanText, if_pos h] at hspan
      cases hspan
    refine ⟨text value offset, offset + Text.byteLength value.toList, ?_, rfl⟩
    show next ⟨offset, value.toList ++ after⟩ = _
    rw [next_eq_text hstarts]
    simp only [hspan, String.ofList_toList]
  | interpolation source start => exact absurd hp id
  | comment value start =>
    have hprint : (comment value start).print ++ after =
        ['<', '!', '-', '-'] ++ (value.toList ++ ['-', '-', '>'] ++ after) := by
      simp [Piece.print]
    have hb := Place.Delimits.breakOn hwf (offset + Text.byteLength ['<', '!', '-', '-']) after
    refine ⟨comment value offset, offset + Text.byteLength ['<', '!', '-', '-'] +
      Text.byteLength value.toList + Text.byteLength ['-', '-', '>'], ?_, rfl⟩
    rw [hprint, next, if_pos (Place.startsWith_iff.mpr ⟨_, rfl⟩)]
    have hskip : Place.skip 4 ⟨offset, ['<', '!', '-', '-'] ++
        (value.toList ++ ['-', '-', '>'] ++ after)⟩ =
          ⟨offset + Text.byteLength ['<', '!', '-', '-'],
            value.toList ++ ['-', '-', '>'] ++ after⟩ := rfl
    simp only [hskip, hb, String.ofList_toList]
  | openTag tag attributes closed start =>
    obtain ⟨piece', o, hread, hun⟩ := readOpenTag_print offset after hwf hp
    obtain ⟨c, cs, htag, hc⟩ := hwf.1.exists_cons
    have hprint : (openTag tag attributes closed start).print ++ after =
        '<' :: c :: (cs ++ (attributes.flatMap RawAttribute.print ++ tagEnd closed) ++ after) := by
      simp [Piece.print, htag]
    -- A tag starts with a letter, so that it is told apart from comments and closing tags.
    have hbang : c ≠ '!' := by
      rintro rfl
      exact absurd hc (by decide)
    have hslash : c ≠ '/' := by
      rintro rfl
      exact absurd hc (by decide)
    have hcomment : Place.startsWith "<!--" ⟨offset, (openTag tag attributes closed start).print ++
        after⟩ = false := by
      rw [hprint]
      exact Place.startsWith_cons_cons_of_ne _ offset rfl hbang
    have hclose : Place.startsWith "</" ⟨offset, (openTag tag attributes closed start).print ++
        after⟩ = false := by
      rw [hprint]
      exact Place.startsWith_cons_cons_of_ne _ offset rfl hslash
    have hmarkup : startsMarkup ((openTag tag attributes closed start).print ++ after) = true := by
      rw [hprint]
      exact startsMarkup_iff.mpr ⟨_, .element c hc, _, rfl⟩
    refine ⟨piece', o, ?_, hun⟩
    simp only [next, hcomment, hclose, hmarkup, Bool.false_eq_true, if_false, if_true, hread]
  | closeTag tag start =>
    obtain ⟨o, hread⟩ := readCloseTag_print offset after hwf
    have hprint : (closeTag tag start).print ++ after = '<' :: '/' :: (tag.toList ++ ['>'] ++ after) := by
      simp [Piece.print]
    have hcomment : Place.startsWith "<!--" ⟨offset, (closeTag tag start).print ++ after⟩ =
        false := by
      rw [hprint]
      exact Place.startsWith_cons_cons_of_ne _ offset rfl (by decide)
    have hclose : Place.startsWith "</" ⟨offset, (closeTag tag start).print ++ after⟩ = true :=
      Place.startsWith_iff.mpr ⟨_, hprint.symm⟩
    refine ⟨closeTag tag offset, o, ?_, rfl⟩
    simp only [next, hcomment, hclose, Bool.false_eq_true, if_false, if_true, hread]

/-- Behind a printed text stands the end or a tag or a comment. -/
theorem followsText_print {pieces : List Piece} (hwf : ∀ p ∈ pieces, p.WellFormed)
    (hp : ∀ p ∈ pieces, p.Printable) (htext : ∀ p ∈ pieces.head?, p.isText = false) :
    FollowsText (pieces.flatMap Piece.print) := by
  cases pieces with
  | nil => exact .inl rfl
  | cons piece pieces =>
    rw [List.forall_mem_cons] at hwf hp
    rw [List.flatMap_cons]
    cases piece with
    | text value start => exact absurd (htext _ rfl) (by simp [Piece.isText])
    | interpolation source start => exact absurd hp.1 id
    | comment value start =>
      refine .inr ⟨rfl, startsMarkup_iff.mpr ⟨_, .comment, ?_⟩⟩
      exact ⟨value.toList ++ ['-', '-', '>'] ++ pieces.flatMap Piece.print, by simp [Piece.print]⟩
    | openTag tag attributes closed start =>
      obtain ⟨c, cs, htag, hc⟩ := hwf.1.1.exists_cons
      refine .inr ⟨rfl, startsMarkup_iff.mpr ⟨_, .element c hc, ?_⟩⟩
      exact ⟨cs ++ (attributes.flatMap RawAttribute.print ++ tagEnd closed) ++
        pieces.flatMap Piece.print, by simp [Piece.print, htag]⟩
    | closeTag tag start =>
      refine .inr ⟨rfl, startsMarkup_iff.mpr ⟨_, .close, ?_⟩⟩
      exact ⟨tag.toList ++ ['>'] ++ pieces.flatMap Piece.print, by simp [Piece.print]⟩

/-- Printed pieces are the pieces of the text, up to the places where they stand. -/
theorem pieces_print {printed : List Piece} (offset : Nat) (hwf : ∀ p ∈ printed, p.WellFormed)
    (hp : ∀ p ∈ printed, p.Printable) (hapart : printed.IsChain Apart) :
    ∃ read, pieces ⟨offset, printed.flatMap Piece.print⟩ = (read, none) ∧
      read.map Piece.unlocated = printed.map Piece.unlocated := by
  induction printed generalizing offset with
  | nil => exact ⟨[], pieces_eq_nil offset, rfl⟩
  | cons piece printed ih =>
    rw [List.isChain_cons] at hapart
    rw [List.forall_mem_cons] at hwf hp
    have hafter : piece.isText = true → FollowsText (printed.flatMap Piece.print) := fun ht =>
      followsText_print hwf.2 hp.2 fun q hq => hapart.1 q hq ht
    obtain ⟨piece', o, hnext, hun⟩ := next_print offset hwf.1 hp.1 hafter
    obtain ⟨read, hread, hmore⟩ := ih o hwf.2 hp.2 hapart.2
    have hne : piece.print ++ printed.flatMap Piece.print ≠ [] := by
      intro hnil
      cases piece with
      | text value start => exact hwf.1.1 (List.append_eq_nil_iff.mp hnil).1
      | _ => simp [Piece.print] at hnil
    refine ⟨piece' :: read, ?_, by rw [List.map_cons, List.map_cons, hun, hmore]⟩
    rw [List.flatMap_cons]
    exact pieces_eq_cons hne hnext hread

end UiTemplate
