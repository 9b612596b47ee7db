import UiTemplate.Proofs.Printing.Static

/-!
# Templates are read without gaps

- `Place.Reaches`: the text between two places.
- `Piece.Covers`: the text that a piece was read from; `pieces_cover`: one after the other these are
  the whole text.
- `Raw.Covers`, `Raw.CoversAll`: the text that a node and that siblings were read from. An element
  was read from its tags and, between them, from what its children were read from.
- `Raw.read_covers`: the nodes of a template were read from all of it, without a gap.
-/

namespace UiTemplate

open Piece

/-! ## Steps along a text -/

/-- The second place is reached from the first by taking a text off the front. -/
structure Place.Reaches (p : Place) (taken : List Char) (q : Place) : Prop where
  rest : p.rest = taken ++ q.rest
  offset : q.offset = p.offset + Text.byteLength taken

namespace Place

variable {p q r : Place}

theorem Reaches.trans {taken more : List Char} (h : p.Reaches taken q) (h' : q.Reaches more r) :
    p.Reaches (taken ++ more) r := by
  refine ⟨?_, ?_⟩
  · rw [h.rest, h'.rest, List.append_assoc]
  · rw [h'.offset, h.offset, Text.byteLength_append, Nat.add_assoc]

theorem reaches_span (keep : Char → Bool) (p : Place) :
    p.Reaches (p.span keep).1 (p.span keep).2 :=
  ⟨List.takeWhile_append_dropWhile.symm, rfl⟩

/-- Skipping blanks takes a text of blanks. -/
theorem reaches_skipBlanks (p : Place) :
    ∃ blanks, Text.allBlank blanks = true ∧ p.Reaches blanks p.skipBlanks :=
  ⟨_, List.all_takeWhile, reaches_span Text.isBlank p⟩

theorem reaches_take (n : Nat) (p : Place) : p.Reaches (p.rest.take n) (p.skip n) :=
  ⟨(List.take_append_drop n p.rest).symm, rfl⟩

/-- Skipping the characters of a mark takes the mark. -/
theorem reaches_skip {mark : List Char} (h : mark <+: p.rest) :
    p.Reaches mark (p.skip mark.length) := by
  obtain ⟨rest, hrest⟩ := h
  have htake := reaches_take mark.length p
  rwa [← hrest, List.take_left] at htake

theorem reaches_skip_of_startsWith {mark : String} (h : p.startsWith mark = true) :
    p.Reaches mark.toList (p.skip mark.toList.length) :=
  reaches_skip (startsWith_iff.mp h)

theorem reaches_breakOn {mark before : List Char} (hm : mark ≠ [])
    (h : p.breakOn mark = some (before, q)) :
    p.Reaches (before ++ mark) q ∧ Delimits mark before := by
  rw [breakOn, Option.map_eq_some_iff] at h
  obtain ⟨⟨b, a⟩, hb, h⟩ := h
  obtain ⟨hsplit, hd⟩ := breakList_eq_some hm hb
  cases h
  exact ⟨⟨hsplit, by rw [Text.byteLength_append, Nat.add_assoc]⟩, hd⟩

end Place

/-! ## Attributes -/

/-- An equals sign, with blanks around it. -/
def IsEquals (cs : List Char) : Prop :=
  ∃ before after, Text.allBlank before = true ∧ Text.allBlank after = true ∧
    cs = before ++ ['='] ++ after

/-- The text that an attribute was read from, which starts at byte `start`: its name, and its value
with or without quotes. -/
inductive RawAttribute.Covers (start : Nat) : RawAttribute → List Char → Prop where
  | bare {name : String} :
    Covers start ⟨name, none, start, start + Text.byteLength name.toList⟩ name.toList
  | plain {name value : String} {equals : List Char} (h : IsEquals equals) :
    Covers start ⟨name, some value, start, start + Text.byteLength (name.toList ++ equals)⟩
      (name.toList ++ equals ++ value.toList)
  | quoted {name value : String} {equals : List Char} {quote : Char} (h : IsEquals equals)
      (hquote : Place.Delimits [quote] value.toList) :
    Covers start
      ⟨name, some value, start, start + Text.byteLength (name.toList ++ equals ++ [quote])⟩
      (name.toList ++ equals ++ [quote] ++ value.toList ++ [quote])

/-- The text that attributes were read from, with the blanks before and after them. -/
inductive RawAttribute.CoversAll : Nat → List RawAttribute → List Char → Prop where
  | nil {start : Nat} {blanks : List Char} (h : Text.allBlank blanks = true) :
    CoversAll start [] blanks
  | cons {start : Nat} {blanks text rest : List Char} {a : RawAttribute}
      {attributes : List RawAttribute} (h : Text.allBlank blanks = true)
      (first : a.Covers (start + Text.byteLength blanks) text)
      (others : CoversAll (start + Text.byteLength (blanks ++ text)) attributes rest) :
    CoversAll start (a :: attributes) (blanks ++ text ++ rest)

theorem readValue_covers {name : String} {start : Nat} {p q : Place} {a : RawAttribute}
    (h : readValue name start p = .ok (a, q)) {equals : List Char} (he : IsEquals equals)
    (hp : p.offset = start + Text.byteLength (name.toList ++ equals)) :
    ∃ text, p.Reaches text q ∧ a.Covers start (name.toList ++ equals ++ text) := by
  simp only [readValue] at h
  split at h
  · rename_i quote hquote
    obtain ⟨hhead, -⟩ := Option.filter_eq_some_iff.mp hquote
    split at h
    · cases h
    · rename_i value r hb
      have hskip : p.Reaches [quote] (p.skip 1) := by
        refine Place.reaches_skip (?_ : [quote] <+: p.rest)
        cases hrest : p.rest with
        | nil =>
          rw [hrest] at hhead
          cases hhead
        | cons c cs =>
          rw [hrest] at hhead
          cases hhead
          exact ⟨cs, rfl⟩
      obtain ⟨hbreak, hd⟩ := Place.reaches_breakOn (by simp) hb
      cases h
      refine ⟨_, hskip.trans hbreak, ?_⟩
      have hcovers : RawAttribute.Covers start ⟨name, some (String.ofList value), start, _⟩ _ :=
        .quoted he (by rwa [String.toList_ofList])
      rw [String.toList_ofList, Text.byteLength_append, ← Nat.add_assoc, ← hp,
        ← hskip.offset] at hcovers
      simpa using hcovers
  · split at h
    · cases h
    · cases h
      have hcovers : RawAttribute.Covers start
          ⟨name, some (String.ofList (p.span isValueChar).1), start, _⟩ _ := .plain he
      rw [String.toList_ofList, ← hp] at hcovers
      exact ⟨_, Place.reaches_span isValueChar p, hcovers⟩

theorem readAttribute_covers {p q : Place} {a : RawAttribute} (h : readAttribute p = .ok (a, q)) :
    ∃ text, p.Reaches text q ∧ a.Covers p.offset text := by
  have hname := Place.reaches_span isNameChar p
  simp only [readAttribute] at h
  split at h
  · cases h
  · split at h
    · rename_i hequals
      obtain ⟨before, hbefore, hskip⟩ := Place.reaches_skipBlanks (p.span isNameChar).2
      have hmark := Place.reaches_skip_of_startsWith hequals
      obtain ⟨after, hafter, hskip'⟩ :=
        Place.reaches_skipBlanks ((p.span isNameChar).2.skipBlanks.skip 1)
      have hreach := hname.trans ((hskip.trans hmark).trans hskip')
      have hmiddle : IsEquals (before ++ ['='] ++ after) := ⟨before, after, hbefore, hafter, rfl⟩
      obtain ⟨text, htext, hcovers⟩ := readValue_covers h hmiddle
        (by rw [String.toList_ofList]; exact hreach.offset)
      rw [String.toList_ofList] at hcovers
      exact ⟨_, hreach.trans htext, hcovers⟩
    · cases h
      refine ⟨_, hname, ?_⟩
      have hcovers : RawAttribute.Covers p.offset
          ⟨String.ofList (p.span isNameChar).1, none, p.offset, _⟩ _ := .bare
      rw [String.toList_ofList, ← hname.offset] at hcovers
      exact hcovers

/-- How a start tag ends, and whether it closes itself. -/
def EndsTag (finish : List Char) (closed : Bool) : Prop :=
  finish = ['/', '>'] ∧ closed = true ∨ finish = ['>'] ∧ closed = false

theorem readAttributes_covers {tag : String} {start : Nat} {p q : Place}
    {attributes : List RawAttribute} {closed : Bool}
    (h : readAttributes tag start p = .ok (attributes, closed, q)) :
    ∃ text finish, p.Reaches (text ++ finish) q ∧
      RawAttribute.CoversAll p.offset attributes text ∧ EndsTag finish closed := by
  induction hn : p.rest.length using Nat.strongRecOn generalizing p attributes closed q with
  | ind n ih =>
    obtain ⟨blanks, hblanks, hskip⟩ := Place.reaches_skipBlanks p
    rw [readAttributes] at h
    split at h
    · cases h
    · split at h
      · rename_i hfinish
        have hmark := Place.reaches_skip_of_startsWith hfinish
        cases h
        exact ⟨blanks, _, hskip.trans hmark, .nil hblanks, .inl ⟨rfl, rfl⟩⟩
      · split at h
        · rename_i hfinish
          have hmark := Place.reaches_skip_of_startsWith hfinish
          cases h
          exact ⟨blanks, _, hskip.trans hmark, .nil hblanks, .inr ⟨rfl, rfl⟩⟩
        · split at h
          · cases h
          · rename_i a r hr
            obtain ⟨text, htext, hfirst⟩ := readAttribute_covers hr
            have hlt := length_readAttribute hr
            have hlen := Place.length_skipBlanks p
            have hreach := hskip.trans htext
            split at h
            · cases h
            · rename_i more hmore
              obtain ⟨rest, finish, hrest, hothers, hfinish⟩ :=
                ih r.rest.length (by omega) hmore rfl
              cases h
              rw [hskip.offset] at hfirst
              rw [hreach.offset] at hothers
              refine ⟨_, finish, ?_, .cons hblanks hfirst hothers, hfinish⟩
              rw [List.append_assoc]
              exact hreach.trans hrest

/-! ## Pieces -/

/-- The text of a start tag at byte `start`: the name of the tag after a less-than sign, attributes,
and the end of the tag. -/
inductive StartTag (start : Nat) (tag : String) (attributes : List RawAttribute)
    (finish : List Char) : List Char → Prop where
  | mk {between : List Char} (htag : IsTagName tag)
      (h : RawAttribute.CoversAll (start + Text.byteLength ('<' :: tag.toList)) attributes
        between) :
    StartTag start tag attributes finish ('<' :: tag.toList ++ between ++ finish)

/-- The text of a closing tag. -/
def IsCloseTag (tag : String) (text : List Char) : Prop :=
  ∃ blanks, Text.allBlank blanks = true ∧ text = "</".toList ++ tag.toList ++ blanks ++ ['>']

/-- The text that a piece was read from, which starts at byte `start`. -/
inductive Piece.Covers (start : Nat) : Piece → List Char → Prop where
  | text {value : String} (h : value.toList ≠ []) : Covers start (.text value start) value.toList
  | comment {value : String} (h : Place.Delimits "-->".toList value.toList) :
    Covers start (.comment value start) ("<!--".toList ++ value.toList ++ "-->".toList)
  | interpolation {source : String} (h : Place.Delimits "\x7d\x7d".toList source.toList) :
    Covers start (.interpolation source (start + 2))
      ("\x7b\x7b".toList ++ source.toList ++ "\x7d\x7d".toList)
  | openTag {tag : String} {attributes : List RawAttribute} {closed : Bool}
      {finish text : List Char} (h : StartTag start tag attributes finish text)
      (hfinish : EndsTag finish closed) :
    Covers start (.openTag tag attributes (closed || voidTags.contains tag) start) text
  | closeTag {tag : String} {text : List Char} (h : IsCloseTag tag text) :
    Covers start (.closeTag tag start) text

theorem readOpenTag_covers {p q : Place} {piece : Piece} (h : readOpenTag p = .ok (piece, q))
    (hp : ['<'] <+: p.rest) (hname : IsTagName (String.ofList ((p.skip 1).span isTagChar).1)) :
    ∃ text, p.Reaches text q ∧ piece.Covers p.offset text := by
  have hskip := Place.reaches_skip hp
  have htag := hskip.trans (Place.reaches_span isTagChar (p.skip 1))
  simp only [readOpenTag] at h
  split at h
  · cases h
  · rename_i attributes closed r hr
    obtain ⟨text, finish, htext, hall, hfinish⟩ := readAttributes_covers hr
    cases h
    rw [htag.offset] at hall
    refine ⟨_, htag.trans htext, .openTag ?_ hfinish⟩
    have hstart : StartTag p.offset _ attributes finish _ :=
      .mk hname (by rw [String.toList_ofList]; exact hall)
    rw [String.toList_ofList, List.append_assoc] at hstart
    exact hstart

theorem readCloseTag_covers {p q : Place} {piece : Piece} (h : readCloseTag p = .ok (piece, q))
    (hp : "</".toList <+: p.rest) : ∃ text, p.Reaches text q ∧ piece.Covers p.offset text := by
  have hskip := Place.reaches_skip hp
  have htag := hskip.trans (Place.reaches_span isTagChar (p.skip 2))
  obtain ⟨blanks, hblanks, hskip'⟩ :=
    Place.reaches_skipBlanks ((p.skip 2).span isTagChar).2
  simp only [readCloseTag] at h
  split at h
  · rename_i hc
    rw [Bool.and_eq_true] at hc
    have hmark := Place.reaches_skip_of_startsWith hc.2
    cases h
    have hlist := String.toList_ofList (l := ((p.skip 2).span isTagChar).1)
    refine ⟨_, (htag.trans hskip').trans hmark, .closeTag ⟨blanks, hblanks, ?_⟩⟩
    rw [hlist]
    rfl
  · cases h

theorem comment_covers {p q : Place} {value : List Char} (hstarts : p.startsWith "<!--" = true)
    (hb : (p.skip 4).breakOn ['-', '-', '>'] = some (value, q)) :
    ∃ text, p.Reaches text q ∧
      (Piece.comment (String.ofList value) p.offset).Covers p.offset text := by
  have hskip := Place.reaches_skip_of_startsWith hstarts
  obtain ⟨hbreak, hd⟩ := Place.reaches_breakOn (by simp) hb
  have hlist := String.toList_ofList (l := value)
  have hcovers : Piece.Covers p.offset (.comment (String.ofList value) p.offset) _ :=
    .comment (by rw [hlist]; exact hd)
  rw [hlist, List.append_assoc] at hcovers
  exact ⟨_, hskip.trans hbreak, hcovers⟩

theorem interpolation_covers {p q : Place} {source : List Char}
    (hstarts : p.startsWith "\x7b\x7b" = true)
    (hb : (p.skip 2).breakOn ['}', '}'] = some (source, q)) :
    ∃ text, p.Reaches text q ∧
      (Piece.interpolation (String.ofList source) (p.skip 2).offset).Covers p.offset text := by
  have hskip := Place.reaches_skip_of_startsWith hstarts
  obtain ⟨hbreak, hd⟩ := Place.reaches_breakOn (by simp) hb
  have hlist := String.toList_ofList (l := source)
  have hcovers : Piece.Covers p.offset
      (.interpolation (String.ofList source) (p.offset + 2)) _ :=
    .interpolation (by rw [hlist]; exact hd)
  have hoffset : (p.skip 2).offset = p.offset + 2 := hskip.offset
  rw [hlist, List.append_assoc, ← hoffset] at hcovers
  exact ⟨_, hskip.trans hbreak, hcovers⟩

theorem text_covers {p : Place} (hne : p.rest ≠ []) (hstarts : startsPiece p.rest = false) :
    ∃ text, p.Reaches text
        ⟨p.offset + Text.byteLength (spanText p.rest).1, (spanText p.rest).2⟩ ∧
      (Piece.text (String.ofList (spanText p.rest).1) p.offset).Covers p.offset text := by
  have hlist := String.toList_ofList (l := (spanText p.rest).1)
  have hcovers : Piece.Covers p.offset (.text (String.ofList (spanText p.rest).1) p.offset) _ :=
    .text (by rw [hlist]; exact List.length_pos_iff.mp (spanText_ne_nil hne hstarts))
  rw [hlist] at hcovers
  exact ⟨_, ⟨(append_spanText p.rest).symm, rfl⟩, hcovers⟩

theorem next_covers {p q : Place} {piece : Piece} (hne : p.rest ≠ [])
    (h : next p = .ok (piece, q)) : ∃ text, p.Reaches text q ∧ piece.Covers p.offset text := by
  rw [next] at h
  split at h
  · rename_i hcomment
    split at h
    · cases h
    · rename_i value r hb
      cases h
      exact comment_covers hcomment hb
  · rename_i hcomment
    split at h
    · rename_i hclose
      exact readCloseTag_covers h (Place.startsWith_iff.mp hclose)
    · rename_i hclose
      split at h
      · rename_i hstarts
        obtain ⟨mark, hm, hp⟩ := startsMarkup_iff.mp hstarts
        have hless : ['<'] <+: mark := by
          cases hm <;> exact ⟨_, rfl⟩
        exact readOpenTag_covers h (hless.trans hp)
          (isTagName_of_starts hstarts (by simpa using hcomment) (by simpa using hclose))
      · rename_i hmarkup
        split at h
        · rename_i hbraces
          dsimp only at h
          split at h
          · cases h
          · rename_i source r hb
            cases h
            exact interpolation_covers hbraces hb
        · rename_i hbraces
          cases h
          exact text_covers hne
            (startsPiece_eq_false (by simpa using hmarkup) (by simpa using hbraces))

/-- The text that pieces were read from, one after the other. -/
inductive PiecesCover : Nat → List Piece → List Char → Prop where
  | nil {start : Nat} : PiecesCover start [] []
  | cons {start : Nat} {p : Piece} {ps : List Piece} {text rest : List Char}
      (first : p.Covers start text)
      (others : PiecesCover (start + Text.byteLength text) ps rest) :
    PiecesCover start (p :: ps) (text ++ rest)

/-- Pieces that are read to the end are read from the whole text. -/
theorem pieces_cover (p : Place) (h : (pieces p).2 = none) :
    PiecesCover p.offset (pieces p).1 p.rest := by
  induction hn : p.rest.length using Nat.strongRecOn generalizing p with
  | ind n ih =>
    rw [pieces] at h ⊢
    split
    · rename_i hnil
      rw [hnil]
      exact .nil
    · rename_i hne
      rw [dif_neg hne] at h
      split
      · rename_i hnext
        split at h
        · cases h
        · rename_i hnext'
          rw [hnext] at hnext'
          cases hnext'
      · rename_i piece q hnext
        have hlt := length_next hne hnext
        obtain ⟨text, hreach, hcovers⟩ := next_covers hne hnext
        have hrest : (pieces q).2 = none := by
          split at h
          · cases h
          · rename_i hnext'
            rw [hnext] at hnext'
            cases hnext'
            exact h
        have hothers := ih q.rest.length (by omega) q hrest rfl
        rw [hreach.offset] at hothers
        rw [hreach.rest]
        exact .cons hcovers hothers

/-! ## Trees -/

mutual

/-- The text that a node was read from, which starts at byte `start`. An interpolation is located
after its braces. -/
inductive Raw.Covers : Nat → Raw → List Char → Prop where
  | text {start : Nat} {value : String} (h : value.toList ≠ []) :
    Raw.Covers start (.text value start) value.toList
  | comment {start : Nat} {value : String} (h : Place.Delimits "-->".toList value.toList) :
    Raw.Covers start (.comment value start)
      ("<!--".toList ++ value.toList ++ "-->".toList)
  | interpolation {start : Nat} {source : String}
      (h : Place.Delimits "\x7d\x7d".toList source.toList) :
    Raw.Covers start (.interpolation source (start + 2))
      ("\x7b\x7b".toList ++ source.toList ++ "\x7d\x7d".toList)
  | selfClosing {start : Nat} {tag : String} {attributes : List RawAttribute} {text : List Char}
      (h : StartTag start tag attributes "/>".toList text) :
    Raw.Covers start (.element tag attributes true start []) text
  | void {start : Nat} {tag : String} {attributes : List RawAttribute} {text : List Char}
      (htag : tag ∈ voidTags) (h : StartTag start tag attributes ">".toList text) :
    Raw.Covers start (.element tag attributes true start []) text
  | element {start : Nat} {tag : String} {attributes : List RawAttribute} {children : List Raw}
      {opening inner closing : List Char}
      (hopening : StartTag start tag attributes ">".toList opening)
      (below : Raw.CoversAll (start + Text.byteLength opening) children inner)
      (hclosing : IsCloseTag tag closing) :
    Raw.Covers start (.element tag attributes false start children) (opening ++ inner ++ closing)

/-- The text that siblings were read from, one after the other. No text stands beside a text. -/
inductive Raw.CoversAll : Nat → List Raw → List Char → Prop where
  | nil {start : Nat} : Raw.CoversAll start [] []
  | cons {start : Nat} {r : Raw} {rs : List Raw} {text rest : List Char}
      (first : Raw.Covers start r text)
      (others : Raw.CoversAll (start + Text.byteLength text) rs rest)
      (apart : r.isText = true → ∀ next ∈ rs.head?, next.isText = false) :
    Raw.CoversAll start (r :: rs) (text ++ rest)

end

namespace Raw

theorem flaw_of_build {opened : List OpenElement} {done : List Raw} {flaw : Option Flaw}
    {ps : List Piece} {rs : List Raw} (h : build opened done flaw ps = .ok rs) : flaw = none := by
  induction ps generalizing opened done with
  | nil =>
    cases flaw with
    | none => rfl
    | some f => cases h
  | cons p ps ih =>
    cases p with
    | text value start => exact ih h
    | interpolation source start => exact ih h
    | comment value start => exact ih h
    | openTag tag attributes closed start =>
      rw [build] at h
      split at h
      · exact ih h
      · exact ih h
    | closeTag tag start =>
      cases opened with
      | nil => cases h
      | cons e outer =>
        rw [build] at h
        split at h
        · exact ih h
        · cases h

end Raw

/-- The first of pieces that were read from a text, and the text of the others. -/
theorem PiecesCover.split {start : Nat} {ps more : List Piece} {text : List Char} {q : Piece}
    (h : PiecesCover start ps text) (hps : ps.map Piece.settled = q :: more) :
    ∃ (p : Piece) (own rest : List Char) (ps' : List Piece), p.settled = q ∧
      text = own ++ rest ∧ p.Covers start own ∧
      PiecesCover (start + Text.byteLength own) ps' rest ∧ ps'.map Piece.settled = more := by
  cases h with
  | nil => cases hps
  | @cons _ p ps own rest first others =>
    obtain ⟨hp, hmore⟩ := List.cons.inj hps
    exact ⟨p, own, rest, ps, hp, rfl, first, others, hmore⟩

namespace Raw

/-- The pieces of a node are read from a text, and `more` pieces from what is left of it. -/
def CoversFirst (start : Nat) (r : Raw) (more : List Piece) (text : List Char) : Prop :=
  ∃ own rest ps, text = own ++ rest ∧ r.Covers start own ∧
    PiecesCover (start + Text.byteLength own) ps rest ∧ ps.map Piece.settled = more

/-- The pieces of siblings are read from a text, and `more` pieces from what is left of it. -/
def CoversFront (start : Nat) (rs : List Raw) (more : List Piece) (text : List Char) : Prop :=
  ∃ own rest ps, text = own ++ rest ∧ CoversAll start rs own ∧
    PiecesCover (start + Text.byteLength own) ps rest ∧ ps.map Piece.settled = more

mutual

theorem coversFirst_of_pieces {start : Nat} {ps more : List Piece} {text : List Char} (r : Raw)
    (h : PiecesCover start ps text) (hps : ps.map Piece.settled = r.pieces ++ more)
    (hproper : r.Proper) (hapart : r.pieces.IsChain Apart) : CoversFirst start r more text := by
  match r with
  | .text value start' =>
    obtain ⟨p, own, rest, ps', hp, rfl, hcovers, hrest, hmore⟩ := h.split hps
    cases hcovers with
    | text hvalue =>
      cases hp
      exact ⟨_, rest, ps', rfl, .text hvalue, hrest, hmore⟩
    | _ => cases hp
  | .comment value start' =>
    obtain ⟨p, own, rest, ps', hp, rfl, hcovers, hrest, hmore⟩ := h.split hps
    cases hcovers with
    | comment hvalue =>
      cases hp
      exact ⟨_, rest, ps', rfl, .comment hvalue, hrest, hmore⟩
    | _ => cases hp
  | .interpolation source start' =>
    obtain ⟨p, own, rest, ps', hp, rfl, hcovers, hrest, hmore⟩ := h.split hps
    cases hcovers with
    | interpolation hsource =>
      cases hp
      exact ⟨_, rest, ps', rfl, .interpolation hsource, hrest, hmore⟩
    | _ => cases hp
  | .element tag attributes selfClosing start' children =>
    obtain ⟨p, own, rest, ps', hp, rfl, hcovers, hrest, hmore⟩ := h.split hps
    cases hcovers with
    | @openTag _ _ closed finish _ hopening hfinish =>
      cases hp
      rw [pieces] at hapart
      cases hc : closed || voidTags.contains tag with
      | true =>
        obtain rfl := hproper.1 hc
        rw [hc] at hmore
        refine ⟨own, rest, ps', rfl, ?_, hrest, hmore⟩
        rcases hfinish with ⟨rfl, -⟩ | ⟨rfl, rfl⟩
        · exact .selfClosing hopening
        · exact .void (by simpa using hc) hopening
      | false =>
        rw [hc, if_neg Bool.false_ne_true] at hmore hapart
        replace hmore := hmore.trans (List.append_assoc (piecesAll children) _ more)
        obtain rfl : finish = ['>'] := by
          rcases hfinish with ⟨-, rfl⟩ | ⟨hfinish, -⟩
          · cases hc
          · exact hfinish
        -- What is left starts with the children, and then with the closing tag.
        obtain ⟨inner, left, ps, rfl, hbelow, hleft, hps⟩ :=
          coversFront_of_pieces children hrest hmore hproper.2 hapart.tail.left_of_append
        obtain ⟨p, closing, rest, ps', hp, rfl, hcovers, hrest, hmore⟩ := hleft.split hps
        cases hcovers with
        | closeTag hclosing =>
          cases hp
          refine ⟨_, rest, ps', ?_, .element hopening hbelow hclosing, ?_, hmore⟩
          · simp only [List.append_assoc]
          · simpa only [Text.byteLength_append, Nat.add_assoc] using hrest
        | _ => cases hp
    | _ => cases hp

theorem coversFront_of_pieces {start : Nat} {ps more : List Piece} {text : List Char}
    (rs : List Raw) (h : PiecesCover start ps text)
    (hps : ps.map Piece.settled = piecesAll rs ++ more) (hproper : ProperAll rs)
    (hapart : (piecesAll rs).IsChain Apart) : CoversFront start rs more text := by
  match rs with
  | [] => exact ⟨[], text, ps, rfl, .nil, h, hps⟩
  | r :: rest =>
    rw [piecesAll, List.append_assoc] at hps
    rw [piecesAll] at hapart
    obtain ⟨own, left, ps', rfl, hfirst, hleft, hmore⟩ :=
      coversFirst_of_pieces r h hps hproper.1 hapart.left_of_append
    obtain ⟨own', left', ps'', rfl, hothers, hleft', hmore'⟩ :=
      coversFront_of_pieces rest hleft hmore hproper.2 hapart.right_of_append
    refine ⟨own ++ own', left', ps'', (List.append_assoc ..).symm, .cons hfirst hothers ?_, ?_,
      hmore'⟩
    · intro htext
      cases r with
      | text value start' => exact isText_head? hapart
      | _ => cases htext
    · rw [Text.byteLength_append, ← Nat.add_assoc]
      exact hleft'

end

/-- The nodes of a template were read from all of it. -/
theorem read_covers {source : List Char} {rs : List Raw} (h : read source = .ok rs) :
    CoversAll 0 rs source := by
  have hcover := pieces_cover ⟨0, source⟩ (flaw_of_build h)
  obtain ⟨hpieces, hproper⟩ := read_pieces h
  have hps : (UiTemplate.pieces ⟨0, source⟩).1.map Piece.settled = piecesAll rs ++ [] := by
    rw [List.append_nil, hpieces]
  obtain ⟨own, rest, ps, htext, hcovers, hrest, hnil⟩ :=
    coversFront_of_pieces rs hcover hps hproper (wellFormed_of_read h).apart
  obtain rfl := List.map_eq_nil_iff.mp hnil
  cases hrest with
  | nil =>
    rw [List.append_nil] at htext
    rw [show source = own from htext]
    exact hcovers

/-- A less-than sign in a text, a void element, blanks in tags, and characters of several bytes. -/
def mixedPieces : String :=
  "é < <br ><p id = x :k='…' \n>\x7b\x7b n \x7d\x7d<!-- --></p >\x7b"

/-- Four pieces cover such a text. -/
theorem read_covers_mixedPieces :
    ∃ rs, read mixedPieces.toList = .ok rs ∧ rs.length = 4 ∧ CoversAll 0 rs mixedPieces.toList := by
  have hrun : (read mixedPieces.toList).toOption.map List.length = some 4 := by
    decide +kernel
  obtain ⟨rs, hread, hlength⟩ := Option.map_eq_some_iff.mp hrun
  rw [Except.toOption_eq_some] at hread
  exact ⟨rs, hread, hlength, read_covers hread⟩

end Raw

end UiTemplate
