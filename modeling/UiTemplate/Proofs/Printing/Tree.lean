import UiTemplate.Template.Raw
import UiTemplate.Proofs.Printing.Printed

/-!
# The pieces of a tree

- `Raw.piecesAll`: the pieces that a tree is made of.
- `Raw.piecesAll_build`: the tree of pieces is made of these pieces.
- `Raw.build_piecesAll`: the pieces of a tree form this tree.
- `Raw.build_unlocated`: the places of pieces do not matter for the tree.
-/

namespace UiTemplate

/-- The piece, without the place if it is a closing tag: a tree does not say where these stand. -/
def Piece.settled : Piece → Piece
  | .closeTag tag _ => .closeTag tag 0
  | p => p

namespace Raw

mutual

/-- The pieces of a node. -/
def pieces : Raw → List Piece
  | element tag attributes selfClosing start children =>
    .openTag tag attributes selfClosing start ::
      if selfClosing then [] else piecesAll children ++ [.closeTag tag 0]
  | text value start => [.text value start]
  | interpolation source start => [.interpolation source start]
  | comment value start => [.comment value start]

/-- The pieces of siblings. -/
def piecesAll : List Raw → List Piece
  | [] => []
  | r :: rest => r.pieces ++ piecesAll rest

end

mutual

/-- In the node and below it no element that closes itself has children. -/
def Proper : Raw → Prop
  | element _ _ selfClosing _ children => (selfClosing = true → children = []) ∧ ProperAll children
  | _ => True

/-- No element in the siblings that closes itself has children. -/
def ProperAll : List Raw → Prop
  | [] => True
  | r :: rest => r.Proper ∧ ProperAll rest

end

theorem piecesAll_append (rs rs' : List Raw) :
    piecesAll (rs ++ rs') = piecesAll rs ++ piecesAll rs' := by
  induction rs with
  | nil => rfl
  | cons r rs ih => rw [List.cons_append, piecesAll, piecesAll, ih, List.append_assoc]

theorem piecesAll_concat (rs : List Raw) (r : Raw) :
    piecesAll (rs ++ [r]) = piecesAll rs ++ r.pieces := by
  rw [piecesAll_append, piecesAll, piecesAll, List.append_nil]

theorem properAll_append {rs rs' : List Raw} :
    ProperAll (rs ++ rs') ↔ ProperAll rs ∧ ProperAll rs' := by
  induction rs with
  | nil => simp [ProperAll]
  | cons r rs ih => rw [List.cons_append, ProperAll, ProperAll, ih, and_assoc]

theorem properAll_concat {rs : List Raw} {r : Raw} :
    ProperAll (rs ++ [r]) ↔ ProperAll rs ∧ r.Proper := by
  rw [properAll_append, ProperAll, ProperAll, and_true]

/-! ## Trees are made of their pieces -/

/-- The pieces of elements that are still open, the innermost first, with the siblings before each
of them. -/
def openPieces : List OpenElement → List Piece
  | [] => []
  | e :: outer =>
    openPieces outer ++ (piecesAll e.before.reverse ++ [.openTag e.tag e.attributes false e.start])

/-- The tree that pieces form is made of them, behind what was read before. -/
theorem piecesAll_build {opened : List OpenElement} {done : List Raw} {flaw : Option Flaw}
    {ps : List Piece} {rs : List Raw} (h : build opened done flaw ps = .ok rs)
    (hopened : ∀ e ∈ opened, ProperAll e.before.reverse) (hdone : ProperAll done.reverse) :
    piecesAll rs = openPieces opened ++ (piecesAll done.reverse ++ ps.map Piece.settled) ∧
      ProperAll rs := by
  induction ps generalizing opened done with
  | nil =>
    cases flaw with
    | some f => cases h
    | none =>
      cases opened with
      | nil =>
        cases h
        exact ⟨by simp [openPieces], hdone⟩
      | cons e outer => cases h
  | cons p ps ih =>
    -- A node that is complete goes behind the ones before it.
    have node {r : Raw} (hb : build opened (r :: done) flaw ps = .ok rs) (hr : r.Proper)
        (hp : r.pieces = [p.settled]) :
        piecesAll rs = openPieces opened ++ (piecesAll done.reverse ++ (p :: ps).map Piece.settled) ∧
          ProperAll rs := by
      have hdone' : ProperAll (r :: done).reverse := by
        rw [List.reverse_cons, properAll_concat]
        exact ⟨hdone, hr⟩
      obtain ⟨hpieces, hproper⟩ := ih hb hopened hdone'
      refine ⟨?_, hproper⟩
      rw [hpieces, List.reverse_cons, piecesAll_concat, hp]
      simp
    cases p with
    | text value start => exact node h trivial rfl
    | interpolation source start => exact node h trivial rfl
    | comment value start => exact node h trivial rfl
    | openTag tag attributes closed start =>
      rw [build] at h
      split at h
      · rename_i hclosed
        refine node h ⟨fun _ => rfl, trivial⟩ ?_
        rw [pieces, if_pos rfl, hclosed]
        rfl
      · rename_i hclosed
        obtain ⟨hpieces, hproper⟩ := ih h (List.forall_mem_cons.mpr ⟨hdone, hopened⟩) trivial
        refine ⟨?_, hproper⟩
        rw [hpieces]
        simp [openPieces, piecesAll, Piece.settled, hclosed]
    | closeTag tag start =>
      cases opened with
      | nil => cases h
      | cons e outer =>
        rw [build] at h
        split at h
        · rename_i htag
          rw [List.forall_mem_cons] at hopened
          have hdone' : ProperAll
              (element e.tag e.attributes false e.start done.reverse :: e.before).reverse := by
            rw [List.reverse_cons, properAll_concat]
            exact ⟨hopened.1, fun hc => (by cases hc), hdone⟩
          obtain ⟨hpieces, hproper⟩ := ih h hopened.2 hdone'
          refine ⟨?_, hproper⟩
          rw [hpieces, List.reverse_cons, piecesAll_concat]
          simp [openPieces, pieces, Piece.settled, htag]
        · cases h

/-- The tree of a text is made of the pieces of the text. -/
theorem read_pieces {source : List Char} {rs : List Raw} (h : read source = .ok rs) :
    piecesAll rs = (UiTemplate.pieces ⟨0, source⟩).1.map Piece.settled ∧ ProperAll rs :=
  piecesAll_build h (fun _ he => absurd he List.not_mem_nil) trivial

/-! ## Pieces form their tree -/

mutual

theorem build_pieces (opened : List OpenElement) (done : List Raw) (flaw : Option Flaw)
    (more : List Piece) (r : Raw) (h : r.Proper) :
    build opened done flaw (r.pieces ++ more) = build opened (r :: done) flaw more := by
  match r with
  | text .. => rfl
  | interpolation .. => rfl
  | comment .. => rfl
  | element tag attributes selfClosing start children =>
    cases selfClosing with
    | true =>
      obtain rfl := h.1 rfl
      rfl
    | false =>
      rw [pieces, if_neg (by simp), List.cons_append, build, if_neg (by simp), List.append_assoc,
        build_piecesAll _ _ _ _ children h.2]
      simp [build]

/-- The pieces of siblings form these siblings, whatever comes before or after. -/
theorem build_piecesAll (opened : List OpenElement) (done : List Raw) (flaw : Option Flaw)
    (more : List Piece) (rs : List Raw) (h : ProperAll rs) :
    build opened done flaw (piecesAll rs ++ more) = build opened (rs.reverse ++ done) flaw more := by
  match rs with
  | [] => rfl
  | r :: rest =>
    rw [piecesAll, List.append_assoc, build_pieces _ _ _ _ r h.1, build_piecesAll _ _ _ _ rest h.2]
    simp

end

/-! ## Places do not matter -/

mutual

/-- The node without its places. -/
def unlocated : Raw → Raw
  | element tag attributes selfClosing _ children =>
    element tag (attributes.map RawAttribute.unlocated) selfClosing 0 (unlocatedAll children)
  | text value _ => text value 0
  | interpolation source _ => interpolation source 0
  | comment value _ => comment value 0

/-- The siblings without their places. -/
def unlocatedAll : List Raw → List Raw
  | [] => []
  | r :: rest => r.unlocated :: unlocatedAll rest

end

theorem unlocatedAll_eq_map (rs : List Raw) : unlocatedAll rs = rs.map unlocated := by
  induction rs with
  | nil => rfl
  | cons r rs ih => rw [unlocatedAll, ih, List.map_cons]

theorem unlocatedAll_reverse (rs : List Raw) :
    unlocatedAll rs.reverse = (unlocatedAll rs).reverse := by
  rw [unlocatedAll_eq_map, unlocatedAll_eq_map, List.map_reverse]

end Raw

/-- The element without its places. -/
def OpenElement.unlocated (e : OpenElement) : OpenElement :=
  ⟨e.tag, e.attributes.map RawAttribute.unlocated, 0, Raw.unlocatedAll e.before⟩

namespace Raw

/-- The tree of pieces without their places is that of the pieces, without its places. -/
theorem build_unlocated (opened : List OpenElement) (done : List Raw) (ps : List Piece) :
    (build (opened.map OpenElement.unlocated) (unlocatedAll done) none
      (ps.map Piece.unlocated)).toOption = (build opened done none ps).toOption.map unlocatedAll := by
  induction ps generalizing opened done with
  | nil =>
    cases opened with
    | nil =>
      show some (unlocatedAll done).reverse = some (unlocatedAll done.reverse)
      rw [unlocatedAll_reverse]
    | cons e outer => rfl
  | cons p ps ih =>
    cases p with
    | text value start => exact ih opened (text value start :: done)
    | interpolation source start => exact ih opened (interpolation source start :: done)
    | comment value start => exact ih opened (comment value start :: done)
    | openTag tag attributes closed start =>
      cases closed with
      | true => exact ih opened (element tag attributes true start [] :: done)
      | false => exact ih (⟨tag, attributes, start, done⟩ :: opened) []
    | closeTag tag start =>
      cases opened with
      | nil => rfl
      | cons e outer =>
        have hb := ih outer (element e.tag e.attributes false e.start done.reverse :: e.before)
        rw [unlocatedAll, unlocated, unlocatedAll_reverse] at hb
        rw [List.map_cons, List.map_cons, build]
        rw [Piece.unlocated, build]
        show (if e.tag = tag then _ else _ : Except Flaw (List Raw)).toOption = _
        split
        · exact hb
        · rfl

/-- A text whose pieces are those of a tree up to places is read as this tree up to places. -/
theorem read_of_pieces {source : List Char} {ps : List Piece} {rs : List Raw}
    (h : UiTemplate.pieces ⟨0, source⟩ = (ps, none)) (hproper : ProperAll rs)
    (hps : ps.map Piece.unlocated = (piecesAll rs).map Piece.unlocated) :
    ∃ rs', read source = .ok rs' ∧ unlocatedAll rs' = unlocatedAll rs := by
  have hbuild : build [] [] none (piecesAll rs) = .ok rs := by
    have hb := build_piecesAll [] [] none [] rs hproper
    rw [List.append_nil, List.append_nil] at hb
    rw [hb, build, List.reverse_reverse]
  have hread := build_unlocated [] [] ps
  rw [hps, build_unlocated [] [] (piecesAll rs), hbuild] at hread
  unfold read ofPieces
  rw [h]
  cases hb : build [] [] none ps with
  | error flaw =>
    rw [hb] at hread
    cases hread
  | ok rs' =>
    rw [hb] at hread
    exact ⟨rs', rfl, (Option.some.inj hread).symm⟩

end Raw

end UiTemplate
