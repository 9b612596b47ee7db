import UiTemplate.Proofs.Printing.Tree

/-!
# Leaving blanks out

- `Raw.thinned_condenseAll`: what becomes of the pieces of a tree when blanks are left out; they stay
  well-formed and apart (`Thinned.wellFormed`, `Thinned.apart`).
- `Raw.condenseAll_condenseAll`: where blanks were left out, no more are.
- `Raw.unlocatedAll_condenseAll`: places do not matter for blanks.
-/

namespace UiTemplate

open Piece

/-! ## Texts -/

theorem isBlank_of_isAlpha {c : Char} (h : c.isAlpha = true) : Text.isBlank c = false := by
  have hletter : (65 ≤ c.toNat ∧ c.toNat ≤ 90) ∨ (97 ≤ c.toNat ∧ c.toNat ≤ 122) := by
    change (decide (65 ≤ c.val ∧ c.val ≤ 90) || decide (97 ≤ c.val) && decide (c.val ≤ 122)) = true
      at h
    rw [Bool.or_eq_true, Bool.and_eq_true, decide_eq_true_eq, decide_eq_true_eq,
      decide_eq_true_eq] at h
    exact h
  simp only [Text.isBlank, Bool.or_eq_false_iff, Bool.and_eq_false_iff, decide_eq_false_iff_not,
    beq_eq_false_iff_ne]
  omega

theorem IsMark.not_blank {mark : List Char} (h : IsMark mark) :
    ∀ c ∈ mark, Text.isBlank c = false := by
  -- A fixed mark is tried character by character.
  have fixed {cs : List Char} (h : cs.all (!Text.isBlank ·) = true) :
      ∀ c ∈ cs, Text.isBlank c = false := by
    simpa using h
  cases h with
  | braces => exact fixed rfl
  | tag h =>
    cases h with
    | comment => exact fixed rfl
    | close => exact fixed rfl
    | element c hc =>
      intro d hd
      rcases List.mem_cons.mp hd with rfl | hd
      · decide
      · rw [List.mem_singleton.mp hd]
        exact isBlank_of_isAlpha hc

namespace Raw

/-- What holds no blank stands in a text if it does when runs of blanks are made one blank. -/
theorem prefix_of_collapse {mark cs : List Char} (hm : ∀ c ∈ mark, Text.isBlank c = false)
    (h : mark <+: collapse false cs) : mark <+: cs := by
  induction mark generalizing cs with
  | nil => exact List.nil_prefix
  | cons d mark ih =>
    rw [List.forall_mem_cons] at hm
    cases cs with
    | nil => exact absurd h (by simp [collapse])
    | cons c cs =>
      rw [collapse] at h
      split at h
      · rw [if_neg (by simp), List.cons_prefix_cons] at h
        rw [h.1] at hm
        exact absurd hm.1 (by decide)
      · rw [List.cons_prefix_cons] at h ⊢
        exact ⟨h.1, ih hm.2 h.2⟩

theorem spanText_cons_iff {c : Char} {cs : List Char} :
    spanText (c :: cs) = (c :: cs, []) ↔
      startsPiece (c :: cs) = false ∧ spanText cs = (cs, []) := by
  rw [spanText]
  cases startsPiece (c :: cs) with
  | true => simp
  | false => simp [Prod.ext_iff]

/-- No mark comes about where runs of blanks are made one blank. -/
theorem spanText_collapse {cs : List Char} (inRun : Bool) (h : spanText cs = (cs, [])) :
    spanText (collapse inRun cs) = (collapse inRun cs, []) := by
  induction cs generalizing inRun with
  | nil => rfl
  | cons c cs ih =>
    rw [spanText_cons_iff] at h
    rw [collapse]
    split
    · cases inRun with
      | true => exact ih true h.2
      | false =>
        refine spanText_cons_iff.mpr ⟨?_, ih true h.2⟩
        rw [startsPiece_eq_false_iff]
        intro mark hm hp
        cases hm with
        | braces => exact absurd (List.cons_prefix_cons.mp hp).1 (by decide)
        | tag hm => cases hm <;> exact absurd (List.cons_prefix_cons.mp hp).1 (by decide)
    · rename_i hblank
      refine spanText_cons_iff.mpr ⟨?_, ih false h.2⟩
      have hstarts := h.1
      rw [startsPiece_eq_false_iff] at hstarts ⊢
      intro mark hm hp
      have hcollapse : collapse false (c :: cs) = c :: collapse false cs := by
        rw [collapse, if_neg hblank]
      rw [← hcollapse] at hp
      exact hstarts mark hm (prefix_of_collapse hm.not_blank hp)

theorem collapse_collapse (inRun : Bool) (cs : List Char) :
    collapse inRun (collapse inRun cs) = collapse inRun cs := by
  induction cs generalizing inRun with
  | nil => rfl
  | cons c cs ih =>
    rw [collapse]
    split
    · cases inRun with
      | true => exact ih true
      | false =>
        have hspace : Text.isBlank ' ' = true := by decide
        rw [if_neg (by simp), collapse, if_pos hspace, if_neg (by simp), ih]
    · rename_i hblank
      rw [collapse, if_neg hblank, ih]

theorem allBlank_collapse (inRun : Bool) (cs : List Char) :
    Text.allBlank (collapse inRun cs) = Text.allBlank cs := by
  have hspace : Text.isBlank ' ' = true := by decide
  induction cs generalizing inRun with
  | nil => rfl
  | cons c cs ih =>
    rw [collapse]
    cases hc : Text.isBlank c with
    | true =>
      have hcons : Text.allBlank (c :: cs) = Text.allBlank cs := by
        simp [Text.allBlank, hc]
      rw [if_pos rfl, hcons]
      cases inRun with
      | true => exact ih true
      | false =>
        rw [if_neg (by simp), ← ih true]
        simp [Text.allBlank, hspace]
    | false =>
      rw [if_neg (by simp)]
      simp [Text.allBlank, hc]

/-- A text without superfluous blanks is well-formed if the text is. -/
theorem condensedText_wellFormed {before after : Option Raw} {v v' : String} {start : Nat}
    (h : condensedText before after v = some v') (hv : (Piece.text v start).WellFormed) :
    (Piece.text v' start).WellFormed := by
  unfold condensedText at h
  split at h
  · split at h
    · cases h
    · cases h
      exact ⟨by decide, by decide⟩
  · cases h
    obtain ⟨hne, hspan⟩ := hv
    rw [Piece.WellFormed, String.toList_ofList]
    refine ⟨?_, spanText_collapse false hspan⟩
    obtain ⟨c, cs, hcs⟩ := List.exists_cons_of_ne_nil hne
    rw [hcs, collapse]
    split
    · simp
    · simp

end Raw

/-! ## Pieces -/

/-- The second pieces are the first with some texts left out and some changed. -/
inductive Thinned : List Piece → List Piece → Prop where
  | nil : Thinned [] []
  | keep {ps qs : List Piece} (p : Piece) : Thinned ps qs → Thinned (p :: ps) (p :: qs)
  | change {ps qs : List Piece} {v v' : String} {start : Nat}
      (h : (text v start).WellFormed → (text v' start).WellFormed) :
      Thinned ps qs → Thinned (text v start :: ps) (text v' start :: qs)
  | drop {ps qs : List Piece} (v : String) (start : Nat) :
      Thinned ps qs → Thinned (text v start :: ps) qs

namespace Thinned

variable {ps qs ps' qs' : List Piece}

theorem append (h : Thinned ps qs) (h' : Thinned ps' qs') : Thinned (ps ++ ps') (qs ++ qs') := by
  induction h with
  | nil => exact h'
  | keep p _ ih => exact .keep p ih
  | change hv _ ih => exact .change hv ih
  | drop v start _ ih => exact .drop v start ih

theorem wellFormed (h : Thinned ps qs) (hps : ∀ p ∈ ps, p.WellFormed) :
    ∀ q ∈ qs, q.WellFormed := by
  induction h with
  | nil => exact hps
  | keep p _ ih =>
    rw [List.forall_mem_cons] at hps ⊢
    exact ⟨hps.1, ih hps.2⟩
  | change hv _ ih =>
    rw [List.forall_mem_cons] at hps ⊢
    exact ⟨hv hps.1, ih hps.2⟩
  | drop v start _ ih => exact ih (List.forall_mem_cons.mp hps).2

/-- Only a text can be left out, so no text comes first where none did. -/
theorem head (h : Thinned ps qs) (hps : ∀ p ∈ ps.head?, p.isText = false) :
    ∀ q ∈ qs.head?, q.isText = false := by
  cases h with
  | nil => exact hps
  | keep p _ => exact hps
  | change _ _ => exact absurd (hps _ rfl) (by simp [Piece.isText])
  | drop v start _ => exact absurd (hps _ rfl) (by simp [Piece.isText])

theorem apart (h : Thinned ps qs) (hps : ps.IsChain Apart) : qs.IsChain Apart := by
  induction h with
  | nil => exact hps
  | keep p hrest ih =>
    rw [List.isChain_cons] at hps ⊢
    exact ⟨fun q hq ht => hrest.head (fun p hp => hps.1 p hp ht) q hq, ih hps.2⟩
  | change _ hrest ih =>
    rw [List.isChain_cons] at hps ⊢
    exact ⟨fun q hq _ => hrest.head (fun p hp => hps.1 p hp rfl) q hq, ih hps.2⟩
  | drop v start _ ih => exact ih (List.isChain_cons.mp hps).2

end Thinned

namespace Raw

mutual

theorem thinned_condense (r : Raw) : Thinned r.pieces r.condense.pieces := by
  match r with
  | .text value start => exact .keep _ .nil
  | .interpolation source start => exact .keep _ .nil
  | .comment value start => exact .keep _ .nil
  | .element tag attributes selfClosing start children =>
    rw [condense, pieces, pieces]
    refine .keep _ ?_
    split
    · exact .nil
    · exact (thinned_condenseAll none children).append (.keep _ .nil)

/-- Where blanks are left out, texts are left out or changed. -/
theorem thinned_condenseAll (before : Option Raw) (rs : List Raw) :
    Thinned (piecesAll rs) (piecesAll (condenseAll before rs)) := by
  match rs with
  | [] => exact .nil
  | .text value start :: rest =>
    have hrest := thinned_condenseAll (some (.text value start)) rest
    rw [condenseAll]
    split
    · rename_i v hv
      exact .change (condensedText_wellFormed hv) hrest
    · exact .drop value start hrest
  | .element tag attributes selfClosing start children :: rest =>
    exact (thinned_condense (.element tag attributes selfClosing start children)).append
      (thinned_condenseAll _ rest)
  | .interpolation source start :: rest => exact .keep _ (thinned_condenseAll _ rest)
  | .comment value start :: rest => exact .keep _ (thinned_condenseAll _ rest)

end

mutual

theorem proper_condense (r : Raw) (h : r.Proper) : r.condense.Proper := by
  match r with
  | .text .. => trivial
  | .interpolation .. => trivial
  | .comment .. => trivial
  | .element tag attributes selfClosing start children =>
    refine ⟨fun hc => ?_, properAll_condenseAll none children h.2⟩
    rw [h.1 hc]
    rfl

theorem properAll_condenseAll (before : Option Raw) (rs : List Raw) (h : ProperAll rs) :
    ProperAll (condenseAll before rs) := by
  match rs with
  | [] => trivial
  | .text value start :: rest =>
    have hrest := properAll_condenseAll (some (.text value start)) rest h.2
    rw [condenseAll]
    split
    · exact ⟨trivial, hrest⟩
    · exact hrest
  | .element tag attributes selfClosing start children :: rest =>
    exact ⟨proper_condense _ h.1, properAll_condenseAll _ rest h.2⟩
  | .interpolation source start :: rest => exact ⟨trivial, properAll_condenseAll _ rest h.2⟩
  | .comment value start :: rest => exact ⟨trivial, properAll_condenseAll _ rest h.2⟩

end

/-! ## Once is enough -/

theorem isComment_condense (r : Raw) : r.condense.isComment = r.isComment := by
  cases r <;> rfl

theorem condensedText_condense {before after : Option Raw} {v v' : String}
    (h : condensedText before after v = some v') :
    condensedText (before.map condense) (after.map condense) v' = some v' := by
  unfold condensedText at h
  split at h
  · split at h
    · cases h
    · rename_i hlayout
      cases h
      have hlayout' : ¬isLayout (before.map condense) (after.map condense) " ".toList = true := by
        cases before with
        | none => exact absurd rfl hlayout
        | some a =>
          cases after with
          | none => exact absurd rfl hlayout
          | some b =>
            simp only [isLayout, Bool.not_eq_true, Bool.or_eq_false_iff] at hlayout
            simp [isLayout, isComment_condense, hlayout.1.1, hlayout.1.2]
      unfold condensedText
      rw [if_pos (by decide), if_neg hlayout']
  · rename_i hblank
    cases h
    unfold condensedText
    rw [String.toList_ofList, if_neg (by rwa [allBlank_collapse]), collapse_collapse]

/-- Whether the node is a text. -/
def isText : Raw → Bool
  | text .. => true
  | _ => false

/-- Behind a text comes none, as none of its pieces does. -/
theorem isText_head? {v : String} {start : Nat} {rest : List Raw}
    (h : (piecesAll (text v start :: rest)).IsChain Apart) :
    ∀ r ∈ rest.head?, r.isText = false := by
  intro r hr
  cases rest with
  | nil => cases hr
  | cons r' rest =>
    cases hr
    cases r with
    | text v' start' => exact absurd ((List.isChain_cons.mp h).1 _ rfl rfl) (by simp [Piece.isText])
    | _ => rfl

theorem head?_condenseAll (before : Option Raw) {rs : List Raw}
    (h : ∀ r ∈ rs.head?, r.isText = false) :
    (condenseAll before rs).head? = rs.head?.map condense := by
  cases rs with
  | nil => rfl
  | cons r rs =>
    cases r with
    | text v start => exact absurd (h _ rfl) (by simp [isText])
    | _ => rfl

mutual

theorem condense_condense (r : Raw) (hapart : r.pieces.IsChain Apart) (hr : r.Proper) :
    r.condense.condense = r.condense := by
  match r with
  | .text .. => rfl
  | .interpolation .. => rfl
  | .comment .. => rfl
  | .element tag attributes selfClosing start children =>
    have hchildren : (piecesAll children).IsChain Apart := by
      cases selfClosing with
      | true =>
        rw [hr.1 rfl]
        exact .nil
      | false => exact (List.isChain_cons.mp hapart).2.left_of_append
    rw [condense, condense, condenseAll_condenseAll none none children hchildren hr.2 fun _ => rfl]

/-- Where blanks were left out, no more are. Of what comes before only a text takes note. -/
theorem condenseAll_condenseAll (before before' : Option Raw) (rs : List Raw)
    (hapart : (piecesAll rs).IsChain Apart) (hrs : ProperAll rs)
    (hbefore : (∃ r ∈ rs.head?, r.isText = true) → before' = before.map condense) :
    condenseAll before' (condenseAll before rs) = condenseAll before rs := by
  match rs with
  | [] => rfl
  | .text value start :: rest =>
    have hhead := isText_head? hapart
    have hrest (b : Option Raw) := condenseAll_condenseAll (some (.text value start)) b rest
      (List.isChain_cons.mp hapart).2 hrs.2
      fun ⟨r, hr, ht⟩ => absurd (hhead r hr) (by simp [ht])
    rw [condenseAll]
    split
    · rename_i v hv
      have hagain := condensedText_condense hv
      rw [← hbefore ⟨_, rfl, rfl⟩, ← head?_condenseAll (some (.text value start)) hhead] at hagain
      rw [condenseAll, hagain]
      exact congrArg _ (hrest _)
    · exact hrest _
  | .element tag attributes selfClosing start children :: rest =>
    have hr := condense_condense (.element tag attributes selfClosing start children)
      hapart.left_of_append hrs.1
    exact congrArg₂ List.cons hr
      (condenseAll_condenseAll _ _ rest hapart.right_of_append hrs.2 fun _ => rfl)
  | .interpolation source start :: rest =>
    exact congrArg (List.cons (interpolation source start))
      (condenseAll_condenseAll _ _ rest (List.isChain_cons.mp hapart).2 hrs.2 fun _ => rfl)
  | .comment value start :: rest =>
    exact congrArg (List.cons (comment value start))
      (condenseAll_condenseAll _ _ rest (List.isChain_cons.mp hapart).2 hrs.2 fun _ => rfl)

end

/-! ## Places do not matter -/

theorem isLayout_unlocated (before after : Option Raw) (value : List Char) :
    isLayout (before.map unlocated) (after.map unlocated) value = isLayout before after value := by
  cases before with
  | none => rfl
  | some a =>
    cases after with
    | none => rfl
    | some b => cases a <;> cases b <;> rfl

theorem head?_unlocatedAll (rs : List Raw) : (unlocatedAll rs).head? = rs.head?.map unlocated := by
  cases rs <;> rfl

mutual

theorem unlocated_condense (r : Raw) : r.condense.unlocated = r.unlocated.condense := by
  match r with
  | .text .. => rfl
  | .interpolation .. => rfl
  | .comment .. => rfl
  | .element tag attributes selfClosing start children =>
    rw [condense, unlocated, unlocated, condense, unlocatedAll_condenseAll none children]
    rfl

theorem unlocatedAll_condenseAll (before : Option Raw) (rs : List Raw) :
    unlocatedAll (condenseAll before rs) =
      condenseAll (before.map unlocated) (unlocatedAll rs) := by
  match rs with
  | [] => rfl
  | .text value start :: rest =>
    have hrest := unlocatedAll_condenseAll (some (.text value start)) rest
    have htext : condensedText (before.map unlocated) (unlocatedAll rest).head? value =
        condensedText before rest.head? value := by
      unfold condensedText
      rw [head?_unlocatedAll, isLayout_unlocated]
    rw [condenseAll, unlocatedAll, unlocated, condenseAll, htext]
    split
    · exact congrArg _ hrest
    · exact hrest
  | .element tag attributes selfClosing start children :: rest =>
    have hr := unlocated_condense (.element tag attributes selfClosing start children)
    exact congrArg₂ List.cons hr (unlocatedAll_condenseAll _ rest)
  | .interpolation source start :: rest =>
    exact congrArg _ (unlocatedAll_condenseAll (some (.interpolation source start)) rest)
  | .comment value start :: rest =>
    exact congrArg _ (unlocatedAll_condenseAll (some (.comment value start)) rest)

end

end Raw

end UiTemplate
