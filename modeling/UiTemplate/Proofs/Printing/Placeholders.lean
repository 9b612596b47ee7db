import UiTemplate.Proofs.Template.Joints

/-!
# Placeholders in a text, and texts with interpolations

- `placeholders`: what stands in a text between double braces.
- `Raw.read_print`: a tree whose neighbours are apart is read back from the text that its pieces are
  written as, interpolations among them.
-/

namespace UiTemplate

open Piece

/-! ## Placeholders -/

/-- What stands in a text between two opening braces and the next two closing ones, from the left to
the right. -/
def placeholders (cs : List Char) : List (List Char) :=
  match _ho : Place.breakList ['\x7b', '\x7b'] cs with
  | none => []
  | some (_, rest) =>
    match _hc : Place.breakList ['\x7d', '\x7d'] rest with
    | none => []
    | some (body, after) => body :: placeholders after
termination_by cs.length
decreasing_by
  have hopen := Place.length_breakList (by simp) _ho
  have hclose := Place.length_breakList (by simp) _hc
  omega

section Placeholders

variable {cs before body rest after : List Char}

/-- A text in which no placeholder is opened. -/
theorem placeholders_of_unopened (h : Place.breakList ['\x7b', '\x7b'] cs = none) :
    placeholders cs = [] := by
  rw [placeholders]
  split
  · rfl
  · simp_all

/-- A text in which a placeholder is opened and not closed. -/
theorem placeholders_of_unclosed (ho : Place.breakList ['\x7b', '\x7b'] cs = some (before, rest))
    (hc : Place.breakList ['\x7d', '\x7d'] rest = none) : placeholders cs = [] := by
  rw [placeholders]
  split
  · rfl
  · split
    · rfl
    · simp_all

/-- The first placeholder of a text, and the text behind it. -/
theorem placeholders_of_closed (ho : Place.breakList ['\x7b', '\x7b'] cs = some (before, rest))
    (hc : Place.breakList ['\x7d', '\x7d'] rest = some (body, after)) :
    placeholders cs = body :: placeholders after := by
  rw [placeholders]
  split
  · simp_all
  · split
    · simp_all
    · simp_all

/-- Two characters alike at the start of a text. -/
theorem isPrefixOf_pair {c d : Char} :
    [c, c].isPrefixOf (d :: cs) = true ↔ d = c ∧ cs.head? = some c := by
  rw [List.isPrefixOf_iff_prefix, List.cons_prefix_cons, eq_comm]
  refine and_congr_right fun _ => ?_
  cases cs with
  | nil => simp
  | cons e cs => simp [List.cons_prefix_cons, eq_comm (a := c)]

/-- Two characters alike stand behind a text in which they do not stand, unless they stand at the
joint. -/
theorem Place.breakList_append_of_none {c : Char} (h : breakList [c, c] before = none)
    (hjoint : before.getLast? = some c → after.head? ≠ some c) :
    breakList [c, c] (before ++ after) =
      (breakList [c, c] after).map fun p => (before ++ p.1, p.2) := by
  induction before with
  | nil => simp
  | cons d before ih =>
    rw [breakList] at h
    split at h
    · cases h
    · rename_i hno
      rw [Option.map_eq_none_iff] at h
      have hno' : ¬[c, c].isPrefixOf (d :: (before ++ after)) = true := by
        rw [isPrefixOf_pair] at hno ⊢
        rintro ⟨rfl, hhead⟩
        cases before with
        | nil => exact hjoint rfl hhead
        | cons e before => exact hno ⟨rfl, hhead⟩
      have hjoint' : before.getLast? = some c → after.head? ≠ some c := by
        intro hlast
        refine hjoint ?_
        rw [List.getLast?_cons, hlast]
        rfl
      rw [List.cons_append, breakList, if_neg hno', ih h hjoint']
      simp [Function.comp_def]

/-- Two characters alike do not stand in a text without the character. -/
theorem breakList_eq_none {c : Char} (h : c ∉ cs) : Place.breakList [c, c] cs = none := by
  induction cs with
  | nil => rfl
  | cons d cs ih =>
    rw [List.mem_cons, not_or] at h
    have hno : ¬[c, c].isPrefixOf (d :: cs) = true := by
      rw [isPrefixOf_pair]
      exact fun hp => h.1 hp.1.symm
    rw [Place.breakList, if_neg hno, ih h.2]
    rfl

/-- Two characters alike delimit a text in which they do not stand and that does not end in one of
them. -/
theorem Place.delimits_of_none {c : Char} (h : breakList [c, c] cs = none)
    (hlast : cs.getLast? ≠ some c) : Delimits [c, c] cs := by
  intro after
  rw [List.append_assoc, breakList_append_of_none h fun h => absurd h hlast,
    breakList_append (by simp)]
  simp

/-- No text without a closing brace holds the closing braces. -/
theorem Place.delimits_braces (h : '\x7d' ∉ cs) : Delimits ['\x7d', '\x7d'] cs :=
  delimits_of_none (breakList_eq_none h) fun hlast => h (List.mem_of_getLast? hlast)

/-- A text without an opening brace holds no placeholder. -/
theorem placeholders_eq_nil (h : '\x7b' ∉ cs) : placeholders cs = [] :=
  placeholders_of_unopened (breakList_eq_none h)

/-- A text up to the next piece holds no placeholder. -/
theorem placeholders_of_span (h : spanText cs = (cs, [])) : placeholders cs = [] := by
  refine placeholders_of_unopened ?_
  induction cs with
  | nil => rfl
  | cons c cs ih =>
    rw [spanText] at h
    split at h
    · cases h
    · rename_i hno
      simp only [Prod.mk.injEq, List.cons.injEq, true_and] at h
      have hno' : ¬['\x7b', '\x7b'].isPrefixOf (c :: cs) = true := by
        rw [startsPiece_iff] at hno
        exact fun hp => hno ⟨_, .braces, List.isPrefixOf_iff_prefix.mp hp⟩
      rw [Place.breakList, if_neg hno', ih (Prod.ext h.1 h.2)]
      rfl

/-- A body that the closing braces delimit is the one placeholder of the text it is written as. -/
theorem placeholders_braced (h : Place.Delimits ['\x7d', '\x7d'] body) :
    placeholders (['\x7b', '\x7b'] ++ body ++ ['\x7d', '\x7d']) = [body] := by
  have hopen : Place.breakList ['\x7b', '\x7b'] (['\x7b', '\x7b'] ++ (body ++ ['\x7d', '\x7d'])) =
      some ([], body ++ ['\x7d', '\x7d']) :=
    Place.breakList_append (by simp) _
  have hclose : Place.breakList ['\x7d', '\x7d'] (body ++ ['\x7d', '\x7d']) = some (body, []) := by
    have hafter := h []
    rwa [List.append_nil] at hafter
  rw [List.append_assoc, placeholders_of_closed hopen hclose, placeholders_eq_nil List.not_mem_nil]

end Placeholders

/-! ## Pieces with interpolations -/

/-- The piece can be read from what it is written as: no closing braces stand in an interpolation,
and values can stand between double quotes. -/
def Piece.Writable : Piece → Prop
  | interpolation source _ => Place.Delimits ['\x7d', '\x7d'] source.toList
  | openTag _ attributes _ _ => ∀ a ∈ attributes, a.Quotable
  | _ => True

/-- What can stand behind a text: nothing, a tag or a comment, and an interpolation unless the text
ends in an opening brace. -/
def FollowsEdge (brace : Bool) (after : List Char) : Prop :=
  FollowsText after ∨ brace = false ∧ ['\x7b', '\x7b'] <+: after

theorem FollowsEdge.tail {c : Char} {value after : List Char}
    (h : FollowsEdge (endsInBrace (c :: value)) after) : FollowsEdge (endsInBrace value) after := by
  refine h.imp id fun ⟨hb, hp⟩ => ⟨?_, hp⟩
  cases value with
  | nil => rfl
  | cons d value => simpa [endsInBrace, List.getLast?_cons] using hb

theorem IsTagMark.brace_notMem {mark : List Char} (hm : IsTagMark mark) : '\x7b' ∉ mark := by
  cases hm with
  | comment => decide
  | close => decide
  | element c hc =>
    have hne : c ≠ '\x7b' := by
      rintro rfl
      exact absurd hc (by decide)
    simp [hne.symm]

/-- A mark that starts in a text does not reach behind it. -/
theorem IsMark.of_follows {mark value after : List Char} (hm : IsMark mark) (hv : value ≠ [])
    (ha : FollowsEdge (endsInBrace value) after) (hp : mark <+: value ++ after) :
    mark <+: value := by
  rcases ha with ha | ⟨hb, hbraces⟩
  · exact hm.within hv ha hp
  rcases List.prefix_or_prefix_of_prefix hp ⟨after, rfl⟩ with h | ⟨more, hmore⟩
  · exact h
  cases more with
  | nil => exact ⟨[], by rw [List.append_nil, ← hmore, List.append_nil]⟩
  | cons d more =>
    -- The mark would have a brace behind its first character, which is the end of the text.
    rw [← hmore, List.prefix_append_right_inj] at hp
    obtain ⟨rest, rfl⟩ := hp
    obtain ⟨rest', hrest⟩ := hbraces
    obtain rfl : d = '\x7b' := by
      simpa using (congrArg List.head? hrest).symm
    cases hm with
    | braces =>
      obtain ⟨c, value, rfl⟩ := List.exists_cons_of_ne_nil hv
      cases value with
      | nil =>
        obtain ⟨rfl, -⟩ := List.cons_eq_cons.mp hmore
        exact absurd hb (by decide)
      | cons e value => simp at hmore
    | tag hm => exact absurd (hmore ▸ by simp) hm.brace_notMem

theorem spanText_follows {value after : List Char} (hv : spanText value = (value, []))
    (ha : FollowsEdge (endsInBrace value) after) : spanText (value ++ after) = (value, after) := by
  induction value with
  | nil =>
    rcases ha with ha | ⟨-, hbraces⟩
    · exact spanText_append hv ha
    · have hpiece : startsPiece after = true := startsPiece_iff.mpr ⟨_, .braces, hbraces⟩
      cases after with
      | nil => rfl
      | cons c after => rw [List.nil_append, spanText, if_pos hpiece]
  | cons c value ih =>
    rw [spanText] at hv
    split at hv
    · cases hv
    · rename_i hno
      simp only [Prod.mk.injEq, List.cons.injEq, true_and] at hv
      have hvalue : spanText value = (value, []) := Prod.ext hv.1 hv.2
      have hno' : ¬startsPiece (c :: (value ++ after)) = true := by
        rw [startsPiece_iff] at hno ⊢
        rintro ⟨mark, hm, hp⟩
        exact hno ⟨mark, hm, hm.of_follows (by simp) ha hp⟩
      rw [List.cons_append, spanText, if_neg hno', ih hvalue ha.tail]

/-- A piece is the next one of the text that it is written as, whatever may stand behind it. -/
theorem next_write {piece : Piece} (offset : Nat) {after : List Char} (hwf : piece.WellFormed)
    (hp : piece.Writable) (ha : ∀ b, piece.edge = .text b → FollowsEdge b after) :
    ∃ piece' o, next ⟨offset, piece.print ++ after⟩ = .ok (piece', ⟨o, after⟩) ∧
      piece'.unlocated = piece.unlocated := by
  cases piece with
  | text value start =>
    obtain ⟨hne, hvalue⟩ := hwf
    have hspan := spanText_follows hvalue (ha _ rfl)
    have hstarts : startsPiece (value.toList ++ after) = false := by
      obtain ⟨c, cs, hcs⟩ := List.exists_cons_of_ne_nil hne
      rw [hcs, List.cons_append, ← Bool.not_eq_true]
      intro h
      rw [hcs, List.cons_append, spanText, if_pos h] at hspan
      cases hspan
    refine ⟨text value offset, offset + Text.byteLength value.toList, ?_, rfl⟩
    show next ⟨offset, value.toList ++ after⟩ = _
    rw [next_eq_text hstarts]
    simp only [hspan, String.ofList_toList]
  | interpolation source start =>
    have hprint : (interpolation source start).print ++ after =
        '\x7b' :: '\x7b' :: (source.toList ++ ['\x7d', '\x7d'] ++ after) := by
      simp [Piece.print]
    have hskip : Place.skip 2 ⟨offset, '\x7b' :: '\x7b' ::
        (source.toList ++ ['\x7d', '\x7d'] ++ after)⟩ =
          ⟨offset + Text.byteLength ['\x7b', '\x7b'],
            source.toList ++ ['\x7d', '\x7d'] ++ after⟩ := rfl
    have hb := Place.Delimits.breakOn hp (offset + Text.byteLength ['\x7b', '\x7b']) after
    -- Two braces start nothing else.
    have hcomment : Place.startsWith "<!--" ⟨offset, (interpolation source start).print ++ after⟩ =
        false := by
      rw [hprint]
      exact Place.startsWith_cons_of_ne _ offset rfl (by decide)
    have hclose : Place.startsWith "</" ⟨offset, (interpolation source start).print ++ after⟩ =
        false := by
      rw [hprint]
      exact Place.startsWith_cons_of_ne _ offset rfl (by decide)
    have hmarkup : startsMarkup ((interpolation source start).print ++ after) = false := by
      rw [hprint]
      rfl
    have hbraces : Place.startsWith "\x7b\x7b" ⟨offset, (interpolation source start).print ++
        after⟩ = true :=
      Place.startsWith_iff.mpr ⟨_, hprint.symm⟩
    refine ⟨interpolation source (offset + Text.byteLength ['\x7b', '\x7b']),
      offset + Text.byteLength ['\x7b', '\x7b'] + Text.byteLength source.toList +
        Text.byteLength ['\x7d', '\x7d'], ?_, rfl⟩
    simp only [next, hcomment, hclose, hmarkup, hbraces, Bool.false_eq_true, if_false, if_true]
    rw [hprint, hskip, hb]
    simp only [String.ofList_toList]
  | comment value start => exact next_print offset hwf trivial fun ht => by cases ht
  | openTag tag attributes closed start => exact next_print offset hwf hp fun ht => by cases ht
  | closeTag tag start => exact next_print offset hwf trivial fun ht => by cases ht

theorem FollowsText.append {cs : List Char} (h : FollowsText cs) (hne : cs ≠ [])
    (more : List Char) : FollowsText (cs ++ more) := by
  rcases h with rfl | ⟨hhead, hstarts⟩
  · exact absurd rfl hne
  · obtain ⟨mark, hm, hp⟩ := startsMarkup_iff.mp hstarts
    refine .inr ⟨?_, startsMarkup_iff.mpr ⟨mark, hm, hp.trans (List.prefix_append cs more)⟩⟩
    rw [List.head?_append, hhead]
    rfl

/-- A tag or a comment can stand behind a text. -/
theorem followsText_closed {piece : Piece} (hwf : piece.WellFormed) (hw : piece.Writable)
    (he : piece.edge = .closed) (more : List Char) : FollowsText (piece.print ++ more) := by
  obtain ⟨hprintable, htext, hne⟩ :
      piece.Printable ∧ piece.isText = false ∧ piece.print ≠ [] := by
    cases piece with
    | text value start => cases he
    | interpolation source start => cases he
    | comment value start => exact ⟨trivial, rfl, by simp [Piece.print]⟩
    | openTag tag attributes closed start => exact ⟨hw, rfl, by simp [Piece.print]⟩
    | closeTag tag start => exact ⟨trivial, rfl, by simp [Piece.print]⟩
  have hone : FollowsText ([piece].flatMap Piece.print) :=
    followsText_print (by simpa using hwf) (by simpa using hprintable) (by simpa using htext)
  rw [List.flatMap_singleton] at hone
  exact hone.append hne more

/-- What is written behind a piece can stand behind it. -/
theorem followsEdge_print {e : Edge} {b : Bool} {pieces : List Piece} (he : e = .text b)
    (hwf : ∀ p ∈ pieces, p.WellFormed) (hw : ∀ p ∈ pieces, p.Writable)
    (hjoins : (e :: pieces.map Piece.edge).IsChain Edge.Joins) :
    FollowsEdge b (pieces.flatMap Piece.print) := by
  subst he
  cases pieces with
  | nil => exact .inl (.inl rfl)
  | cons piece pieces =>
    rw [List.forall_mem_cons] at hwf hw
    rw [List.map_cons, List.isChain_cons_cons] at hjoins
    cases piece with
    | text value start => exact absurd hjoins.1 (by cases b <;> exact id)
    | interpolation source start =>
      cases b with
      | true => exact absurd hjoins.1 id
      | false => exact .inr ⟨rfl, source.toList ++ "\x7d\x7d".toList ++ pieces.flatMap Piece.print,
          by simp [Piece.print]⟩
    | comment value start => exact .inl (followsText_closed hwf.1 hw.1 rfl _)
    | openTag tag attributes closed start => exact .inl (followsText_closed hwf.1 hw.1 rfl _)
    | closeTag tag start => exact .inl (followsText_closed hwf.1 hw.1 rfl _)

/-- Pieces are the ones of the text that they are written as, up to the places where they stand. -/
theorem pieces_write {written : List Piece} (offset : Nat) (hwf : ∀ p ∈ written, p.WellFormed)
    (hw : ∀ p ∈ written, p.Writable) (hjoins : (written.map Piece.edge).IsChain Edge.Joins) :
    ∃ read, pieces ⟨offset, written.flatMap Piece.print⟩ = (read, none) ∧
      read.map Piece.unlocated = written.map Piece.unlocated := by
  induction written generalizing offset with
  | nil => exact ⟨[], pieces_eq_nil offset, rfl⟩
  | cons piece written ih =>
    rw [List.forall_mem_cons] at hwf hw
    have hafter (b : Bool) (he : piece.edge = .text b) :
        FollowsEdge b (written.flatMap Piece.print) :=
      followsEdge_print he hwf.2 hw.2 hjoins
    obtain ⟨piece', o, hnext, hun⟩ := next_write offset hwf.1 hw.1 hafter
    obtain ⟨read, hread, hmore⟩ := ih o hwf.2 hw.2 hjoins.tail
    have hne : piece.print ++ written.flatMap Piece.print ≠ [] := by
      intro hnil
      cases piece with
      | text value start => exact hwf.1.1 (List.append_eq_nil_iff.mp hnil).1
      | _ => simp [Piece.print] at hnil
    refine ⟨piece' :: read, ?_, by rw [List.map_cons, List.map_cons, hun, hmore]⟩
    rw [List.flatMap_cons]
    exact pieces_eq_cons hne hnext hread

/-- A tree whose neighbours are apart is read back from the text that its pieces are written as, up
to places. -/
theorem Raw.read_print {rs : List Raw} (hproper : ProperAll rs)
    (hwf : ∀ p ∈ piecesAll rs, p.WellFormed) (hw : ∀ p ∈ piecesAll rs, p.Writable)
    (hjoined : JoinedAll rs) :
    ∃ rs', read ((piecesAll rs).flatMap Piece.print) = .ok rs' ∧
      unlocatedAll rs' = unlocatedAll rs := by
  obtain ⟨read, hread, hun⟩ := pieces_write 0 hwf hw ((joinedAll_iff rs hproper).mp hjoined)
  exact read_of_pieces hread hproper hun

end UiTemplate
