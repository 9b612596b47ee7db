import UiTemplate.Proofs.Template.LoopHead

/-!
# Loop heads and their pattern

The reader of loop heads never turns back, the matcher of their pattern does. Both find the same:
where the matcher gives characters back, what follows refuses them. Only the blanks before what is
iterated can be given back, and the reader knows which.

- `Pattern.most_eq`: all characters of a kind are taken if what follows refuses them.
- `LoopHead.run_names`: the names of a loop head match as they are read.
- `LoopHead.run_source`: so does what is iterated, where only blanks are left, too.
- `LoopHead.read?_eq_pattern`: a loop head is read as its pattern matches.
-/

namespace UiTemplate

open Text

/-! ## Texts and places -/

namespace Text

/-- Blanks at the end of a text are lost from its end only. -/
theorem trimRight_append_of_ne_nil {cs : List Char} (h : trimRight cs ≠ []) (before : List Char) :
    trimRight (before ++ cs) = before ++ trimRight cs := by
  have hleft : trimLeft cs.reverse ≠ [] := fun hnil => h (by rw [trimRight, hnil]; rfl)
  have hsplit :
      trimLeft (cs.reverse ++ before.reverse) = trimLeft cs.reverse ++ before.reverse := by
    rw [trimLeft, List.dropWhile_append, if_neg]
    · rfl
    · simpa [trimLeft] using hleft
  rw [trimRight, List.reverse_append, hsplit, List.reverse_append, List.reverse_reverse, trimRight]

theorem trimRight_eq_nil {cs : List Char} : trimRight cs = [] ↔ allBlank cs = true := by
  rw [trimRight, List.reverse_eq_nil_iff, trimLeft, List.dropWhile_eq_nil_iff, allBlank,
    List.all_eq_true]
  simp only [List.mem_reverse]

theorem trimRight_cons {c : Char} {cs : List Char} (h : ¬allBlank (c :: cs) = true) :
    trimRight (c :: cs) = c :: trimRight cs := by
  by_cases hcs : allBlank cs = true
  · have hc : isBlank c = false := by
      by_contra hc
      rw [Bool.not_eq_false] at hc
      exact h (List.all_eq_true.mpr (List.forall_mem_cons.mpr ⟨hc, List.all_eq_true.mp hcs⟩))
    rw [trimRight_eq_nil.mpr hcs, ← List.singleton_append, trimRight_append hcs]
    simp [trimRight, trimLeft, hc]
  · exact trimRight_append_of_ne_nil (mt trimRight_eq_nil.mp hcs) [c]

end Text

namespace Place

variable {p q : Place}

/-- What was taken, from the lengths of what is left. -/
theorem Reaches.take_eq {taken : List Char} (h : p.Reaches taken q) :
    p.rest.take (p.rest.length - q.rest.length) = taken := by
  rw [h.rest, List.length_append, Nat.add_sub_cancel, List.take_left]

/-- A character that is kept is the first one of those that are taken. -/
theorem span_cons {keep : Char → Bool} {start : Nat} {c : Char} (hc : keep c = true)
    (cs : List Char) :
    (Place.span keep ⟨start, c :: cs⟩).2 = ((Place.skip 1 ⟨start, c :: cs⟩).span keep).2 := by
  simp [Place.span, Place.skip, hc, byteLength, Nat.add_assoc]

theorem skip_succ {start n : Nat} {c : Char} {cs : List Char} :
    Place.skip (n + 1) ⟨start, c :: cs⟩ = (Place.skip 1 ⟨start, c :: cs⟩).skip n := by
  simp [Place.skip, byteLength, Nat.add_assoc]

theorem rest_skipBlanks_eq_nil : p.skipBlanks.rest = [] ↔ allBlank p.rest = true := by
  rw [skipBlanks, span, List.dropWhile_eq_nil_iff, allBlank, List.all_eq_true]

end Place

/-! ## Steps of the matcher -/

namespace Pattern

variable {next : Place → Option Captures} {p q : Place} {caps : Captures}
  {follow : Place → Captures → Option Captures} {keep : Char → Bool}

/-- What follows does not match before such a character. -/
def Refuses (keep : Char → Bool) (next : Place → Option Captures) : Prop :=
  ∀ q, ∀ c ∈ q.rest.head?, keep c = true → next q = none

theorem run_append (a b : Pattern) :
    (a ++ b).run p caps follow = a.run p caps fun q caps => b.run q caps follow := rfl

theorem run_one_cons {start : Nat} {c : Char} {cs : List Char} :
    (one keep).run ⟨start, c :: cs⟩ caps follow =
      if keep c then follow (Place.skip 1 ⟨start, c :: cs⟩) caps else none := rfl

/-- As many characters are taken as there are, if what follows rejects all of them. -/
theorem most_eq (h : Refuses keep next) (p : Place) :
    most keep next p p.rest = next (p.span keep).2 := by
  obtain ⟨start, rest⟩ := p
  induction rest generalizing start with
  | nil => rfl
  | cons c cs ih =>
    cases hc : keep c with
    | false => simp [most, Place.span, hc, byteLength]
    | true =>
      have htail : most keep next (Place.skip 1 ⟨start, c :: cs⟩) cs =
          next (Place.span keep ⟨start, c :: cs⟩).2 := by
        rw [Place.span_cons hc]
        exact ih _
      have hnone : next ⟨start, c :: cs⟩ = none := h _ c rfl hc
      rw [most, if_pos hc, htail, hnone]
      cases next (Place.span keep ⟨start, c :: cs⟩).2 <;> rfl

end Pattern

namespace LoopHead

open Pattern

variable {next : Place → Option Captures} {p q : Place} {caps : Captures}
  {follow : Place → Captures → Option Captures} {keep : Char → Bool}

theorem run_blanks (h : Refuses isBlank (follow · caps)) :
    blanks.run p caps follow = follow p.skipBlanks caps :=
  most_eq h p

/-- A gap starts with a blank, and is read like that. -/
theorem gap_cases (p : Place) :
    (blanks? p = none ∧ ∀ caps follow, gap.run p caps follow = none) ∨
      (blanks? p = some (p.skip 1).skipBlanks ∧
        ∀ caps follow, gap.run p caps follow = blanks.run (p.skip 1) caps follow) := by
  obtain ⟨start, rest⟩ := p
  cases rest with
  | nil =>
    refine .inl ⟨?_, fun _ _ => rfl⟩
    simp [blanks?, Place.skipBlanks, Place.span, byteLength]
  | cons c cs =>
    cases hc : isBlank c with
    | false =>
      refine .inl ⟨?_, fun caps follow => ?_⟩
      · simp [blanks?, Place.skipBlanks, Place.span, byteLength, hc]
      · rw [gap, run_append, run_one_cons, hc]
        rfl
    | true =>
      have hskip : Place.skipBlanks ⟨start, c :: cs⟩ = (Place.skip 1 ⟨start, c :: cs⟩).skipBlanks :=
        Place.span_cons hc cs
      have hlt : start < (Place.skip 1 ⟨start, c :: cs⟩).skipBlanks.offset := by
        have := c.utf8Size_pos
        simp only [Place.skipBlanks, Place.span, Place.skip, byteLength, List.take_succ_cons]
        omega
      refine .inr ⟨by simp [blanks?, hskip, hlt], fun caps follow => ?_⟩
      rw [gap, run_append, run_one_cons, if_pos hc]

/-- A gap matches as it is read. -/
theorem run_gap (h : Refuses isBlank (follow · caps)) :
    gap.run p caps follow = (blanks? p).bind fun q => follow q caps := by
  rcases gap_cases p with ⟨hread, hrun⟩ | ⟨hread, hrun⟩
  · rw [hread, hrun]
    rfl
  · rw [hread, hrun, run_blanks h]
    rfl

/-- So does a name. -/
theorem run_name {n : Nat} (h : ∀ caps, Refuses isNamePart (follow · caps)) :
    (name n).run p caps follow =
      (name? p).bind fun (text, q) => follow q ((n, text, p.offset) :: caps) := by
  obtain ⟨start, rest⟩ := p
  cases rest with
  | nil => simp [name, run_append, run, name?]
  | cons c cs =>
    cases hc : isNameStart c with
    | false => simp [name, run_append, run, name?, hc]
    | true =>
      let p : Place := ⟨start, c :: cs⟩
      have hspan : ((p.skip 1).span isNamePart).2 = (p.span isNamePart).2 :=
        (Place.span_cons (isNameStart_begins hc).1 cs).symm
      have htaken := (Place.reaches_span isNamePart p).take_eq
      have hname : name? p =
          some (String.ofList (p.span isNamePart).1, (p.span isNamePart).2) := by
        simp [p, name?, hc]
      have hrefuse : Refuses isNamePart fun q => follow q
          ((n, String.ofList (p.rest.take (p.rest.length - q.rest.length)), p.offset) :: caps) :=
        fun q d hd hkeep => h _ q d hd hkeep
      have hmany := most_eq hrefuse (p.skip 1)
      rw [hspan, htaken] at hmany
      rw [hname, name, run, run_append, run_one_cons, if_pos hc]
      exact hmany

theorem run_mark {c : Char} :
    (mark c).run p caps follow =
      if [c].isPrefixOf p.rest then follow (p.skip 1) caps else none := by
  obtain ⟨start, rest⟩ := p
  cases rest with
  | nil => rfl
  | cons d ds =>
    have hcomm : (d == c) = (c == d) := BEq.comm
    simp [mark, run_one_cons, List.isPrefixOf, hcomm]

theorem run_marks (c d : Char) :
    (mark c ++ mark d).run p caps follow =
      if [c, d].isPrefixOf p.rest then follow (p.skip 2) caps else none := by
  obtain ⟨start, rest⟩ := p
  match rest with
  | [] => rfl
  | [a] =>
    rw [run_append, run_mark, run_mark]
    simp [Place.skip]
  | a :: b :: cs =>
    have hskip : Place.skip 1 (Place.skip 1 ⟨start, a :: b :: cs⟩) =
        Place.skip 2 ⟨start, a :: b :: cs⟩ := by
      simp [Place.skip, byteLength, Nat.add_assoc]
    rw [run_append, run_mark, run_mark, hskip]
    by_cases ha : c = a <;> by_cases hb : d = b <;>
      simp [Place.skip, List.isPrefixOf, ha, hb, Ne.symm]

theorem keyword?_eq (p : Place) : keyword? p =
    if ['i', 'n'].isPrefixOf p.rest || ['o', 'f'].isPrefixOf p.rest then some (p.skip 2)
    else none := rfl

/-- Only one of the two words can match. -/
theorem run_keyword : keyword.run p caps follow = (keyword? p).bind fun q => follow q caps := by
  rw [keyword, run, run_marks, run_marks, keyword?_eq]
  by_cases hin : ['i', 'n'].isPrefixOf p.rest = true
  · obtain ⟨cs, hcs⟩ := List.isPrefixOf_iff_prefix.mp hin
    have hof : ['o', 'f'].isPrefixOf p.rest = false := by
      rw [← hcs]
      rfl
    simp [hin, hof]
  · cases hof : ['o', 'f'].isPrefixOf p.rest <;> simp [hin]

/-! ### What is iterated -/

/-- A line from a place on, without the blanks at its end. -/
def lineFrom (p : Place) : List Char → Option (String × Nat)
  | [] => none
  | c :: cs =>
    if '\n' ∈ c :: trimRight cs then none else some (String.ofList (c :: trimRight cs), p.offset)

/-- At the end there are blanks only. -/
theorem run_end :
    (blanks ++ atEnd).run p caps follow =
      if allBlank p.rest then follow p.skipBlanks caps else none := by
  have hrefuse : Refuses isBlank fun q => atEnd.run q caps follow := by
    rintro ⟨start, rest⟩ c hc -
    cases rest with
    | nil => cases hc
    | cons d ds => rfl
  rw [run_append, run_blanks hrefuse, run]
  simp only [List.isEmpty_iff, Place.rest_skipBlanks_eq_nil]

/-- As few characters as possible reach to the blanks at the end, if they are on one line. -/
theorem least_eq (after : Place → Captures) (p : Place) :
    least (· != '\n') (fun q => if allBlank q.rest then some (after q) else none) p p.rest =
      if '\n' ∈ trimRight p.rest then none
      else some (after (p.skip (trimRight p.rest).length)) := by
  obtain ⟨start, rest⟩ := p
  induction rest generalizing start with
  | nil => rfl
  | cons c cs ih =>
    by_cases hblank : allBlank (c :: cs) = true
    · have hnil := trimRight_eq_nil.mpr hblank
      simp [least, hblank, hnil, Place.skip, byteLength]
    · have hcons := trimRight_cons hblank
      have htail := ih (start + byteLength [c])
      rw [least, if_neg hblank, Option.none_or, hcons, List.length_cons,
        Place.skip_succ (n := (trimRight cs).length)]
      by_cases hc : c = '\n'
      · simp [hc]
      · rw [if_pos (bne_iff_ne.mpr hc)]
        simp only [List.mem_cons, Ne.symm hc, false_or]
        exact htail

/-- What is iterated matches up to the blanks at the end of its line. -/
theorem run_iterated :
    iterated.run p caps (fun _ caps => some caps) =
      (lineFrom p p.rest).map fun line => (4, line) :: caps := by
  obtain ⟨start, rest⟩ := p
  cases rest with
  | nil => rfl
  | cons c cs =>
    let p : Place := ⟨start, c :: cs⟩
    let after (q : Place) : Captures :=
      (4, String.ofList (p.rest.take (p.rest.length - q.rest.length)), start) :: caps
    have hrun : iterated.run p caps (fun _ caps => some caps) =
        if c != '\n' then
          least (· != '\n') (fun q => if allBlank q.rest then some (after q) else none) (p.skip 1)
            (p.skip 1).rest
        else none := by
      have hend (q : Place) : (blanks ++ atEnd).run q (after q) (fun _ caps => some caps) =
          if allBlank q.rest then some (after q) else none := run_end
      simp only [← hend]
      rfl
    rw [hrun, least_eq, lineFrom]
    by_cases hc : c = '\n'
    · simp [hc]
    · have hprefix : c :: trimRight cs <+: p.rest := List.cons_prefix_cons.mpr
        ⟨rfl, trimRight_prefix cs⟩
      have hreach := Place.reaches_skip hprefix
      rw [show p.skip (c :: trimRight cs).length = (p.skip 1).skip (trimRight cs).length from
        Place.skip_succ] at hreach
      have hafter : after ((p.skip 1).skip (trimRight cs).length) =
          (4, String.ofList (c :: trimRight cs), start) :: caps :=
        congrArg (fun text => (4, String.ofList text, start) :: caps) hreach.take_eq
      rw [if_pos (bne_iff_ne.mpr hc), show (p.skip 1).rest = cs from rfl, hafter]
      by_cases hline : '\n' ∈ trimRight cs <;> simp [hline, Ne.symm hc]

/-- Where only blanks are left, the last of them that is no line feed is taken. -/
theorem most_lineFrom_blank {after : String × Nat → Captures} (p : Place)
    (h : allBlank p.rest = true) :
    most isBlank (fun q => (lineFrom q q.rest).map after) p p.rest =
      (lastInLine? p p.rest).map fun q => after (String.ofList (q.rest.take 1), q.offset) := by
  obtain ⟨start, rest⟩ := p
  induction rest generalizing start with
  | nil => rfl
  | cons c cs ih =>
    obtain ⟨hc, hcs⟩ := List.forall_mem_cons.mp (List.all_eq_true.mp h)
    have hnil := trimRight_eq_nil.mpr (List.all_eq_true.mpr hcs)
    have htail : most isBlank (fun q => (lineFrom q q.rest).map after)
        (Place.skip 1 ⟨start, c :: cs⟩) cs =
          (lastInLine? (Place.skip 1 ⟨start, c :: cs⟩) cs).map fun q =>
            after (String.ofList (q.rest.take 1), q.offset) :=
      ih (start + byteLength [c]) (List.all_eq_true.mpr hcs)
    rw [most, if_pos hc, lastInLine?, htail]
    cases lastInLine? (Place.skip 1 ⟨start, c :: cs⟩) cs with
    | none =>
      by_cases hline : c = '\n'
      · simp [lineFrom, hline]
      · simp [lineFrom, hnil, hline, Ne.symm hline]
    | some q => rfl

/-- The line that starts behind blanks. -/
theorem lineFrom_skipBlanks (h : p.skipBlanks.rest ≠ []) :
    trimRight p.skipBlanks.rest ≠ [] ∧ lineFrom p.skipBlanks p.skipBlanks.rest =
      if '\n' ∈ trimRight p.skipBlanks.rest then none
      else some (String.ofList (trimRight p.skipBlanks.rest), p.skipBlanks.offset) := by
  obtain ⟨-, -, -, hstop⟩ := Place.skipBlanks_eq_iff.mp (rfl : p.skipBlanks = _)
  obtain ⟨d, ds, hrest⟩ := List.exists_cons_of_ne_nil h
  rw [hrest] at hstop ⊢
  have hcons : trimRight (d :: ds) = d :: trimRight ds := by
    refine trimRight_cons fun hblank => ?_
    exact Bool.false_ne_true
      ((hstop d rfl).symm.trans (List.all_eq_true.mp hblank d List.mem_cons_self))
  rw [hcons, lineFrom]
  exact ⟨List.cons_ne_nil _ _, rfl⟩

/-- Elsewhere no blank is left to what is iterated. -/
theorem most_lineFrom {after : String × Nat → Captures} (p : Place)
    (h : p.skipBlanks.rest ≠ []) :
    most isBlank (fun q => (lineFrom q q.rest).map after) p p.rest =
      (lineFrom p.skipBlanks p.skipBlanks.rest).map after := by
  obtain ⟨start, rest⟩ := p
  induction rest generalizing start with
  | nil => rfl
  | cons c cs ih =>
    cases hc : isBlank c with
    | false => simp [most, Place.skipBlanks, Place.span, hc, byteLength]
    | true =>
      have hskip : Place.skipBlanks ⟨start, c :: cs⟩ = (Place.skip 1 ⟨start, c :: cs⟩).skipBlanks :=
        Place.span_cons hc cs
      rw [hskip] at h ⊢
      have htail : most isBlank (fun q => (lineFrom q q.rest).map after)
          (Place.skip 1 ⟨start, c :: cs⟩) cs =
            (lineFrom (Place.skip 1 ⟨start, c :: cs⟩).skipBlanks
              (Place.skip 1 ⟨start, c :: cs⟩).skipBlanks.rest).map after :=
        ih (start + byteLength [c]) h
      obtain ⟨blanks, -, hreach⟩ := (Place.skip 1 ⟨start, c :: cs⟩).reaches_skipBlanks
      obtain ⟨hne, hline⟩ := lineFrom_skipBlanks h
      have hrest : trimRight cs =
          blanks ++ trimRight (Place.skip 1 ⟨start, c :: cs⟩).skipBlanks.rest := by
        rw [← trimRight_append_of_ne_nil hne, ← hreach.rest]
        rfl
      rw [most, if_pos hc, htail, hline]
      -- A line feed behind the blanks is one behind fewer blanks, too.
      split
      · rename_i hmem
        have hmore : '\n' ∈ c :: trimRight cs := by
          rw [hrest]
          exact List.mem_cons_of_mem c (List.mem_append_right blanks hmem)
        simp [lineFrom, hmore]
      · rfl

/-- What is iterated matches with the gap before it as it is read. -/
theorem run_source :
    (gap ++ iterated).run p caps (fun _ caps => some caps) =
      (source? p).map fun line => (4, line) :: caps := by
  rcases gap_cases p with ⟨hread, hrun⟩ | ⟨hread, hrun⟩
  · rw [run_append, hrun, source?, hread]
    rfl
  · have hmost : (gap ++ iterated).run p caps (fun _ caps => some caps) =
        most isBlank (fun q => (lineFrom q q.rest).map fun line => (4, line) :: caps) (p.skip 1)
          (p.skip 1).rest := by
      simp only [← run_iterated]
      rw [run_append, hrun]
      rfl
    rw [hmost, source?, hread, Option.bind_eq_bind, Option.bind_some]
    by_cases hempty : (p.skip 1).skipBlanks.rest = []
    · rw [most_lineFrom_blank _ (Place.rest_skipBlanks_eq_nil.mp hempty),
        if_pos (List.isEmpty_iff.mpr hempty)]
      dsimp only
      cases lastInLine? (p.skip 1) (p.skip 1).rest <;> rfl
    · rw [most_lineFrom _ hempty, (lineFrom_skipBlanks hempty).2,
        if_neg (mt List.isEmpty_iff.mp hempty)]
      by_cases hline : '\n' ∈ trimRight (p.skip 1).skipBlanks.rest <;> simp [hline]

/-! ### Names -/

/-- What is read behind the names. -/
def tail? (p : Place) : Option (String × Nat) :=
  (blanks? p).bind fun p => (keyword? p).bind source?

/-- No word stands where a blank stands. -/
theorem refuses_keyword {follow : Place → Option Captures} :
    Refuses isBlank fun p => (keyword? p).bind follow := by
  intro p c hc hblank
  dsimp only
  cases hread : keyword? p with
  | none => rfl
  | some q =>
    obtain ⟨word, hword, hreach⟩ := keyword?_eq_some.mp hread
    rw [hreach.rest] at hc
    rcases hword with rfl | rfl <;> cases hc <;> exact absurd hblank (by decide)

/-- What stands behind the names matches as it is read. -/
theorem run_tail :
    (gap ++ keyword ++ (gap ++ iterated)).run p caps (fun _ caps => some caps) =
      (tail? p).map fun line => (4, line) :: caps := by
  simp only [run_append gap keyword, run_append _ (gap ++ iterated), run_source, run_keyword]
  rw [run_gap refuses_keyword, tail?, Option.map_bind]
  refine congrArg (blanks? p).bind (funext fun q => ?_)
  exact Option.map_bind.symm

/-- No name goes on where a gap stands. -/
theorem refuses_tail (caps : Captures) :
    Refuses isNamePart fun p => (tail? p).map fun line => (4, line) :: caps := by
  intro p c hc hpart
  have hnone : blanks? p = none := by
    cases hread : blanks? p with
    | none => rfl
    | some q =>
      obtain ⟨gap, hgap, hreach, -⟩ := blanks?_eq_some.mp hread
      have hblank := hgap.head hreach c hc
      rw [isNamePart_eq_false_of_isBlank hblank] at hpart
      exact nomatch hpart
  dsimp only
  rw [tail?, hnone]
  rfl

/-- What follows matches neither before a blank nor before a character of a name. -/
def Parted (follow : Place → Captures → Option Captures) : Prop :=
  ∀ p caps, (∃ c ∈ p.rest.head?, isBlank c = true ∨ isNamePart c = true) → follow p caps = none

theorem name?_eq_none {c : Char} (hc : c ∈ p.rest.head?) (hblank : isBlank c = true) :
    name? p = none := by
  have hstart : isNameStart c = false := by
    by_contra hstart
    rw [Bool.not_eq_false] at hstart
    rw [isBlank_eq_false_of_isNamePart (isNameStart_begins hstart).1] at hblank
    exact nomatch hblank
  rw [name?, Option.mem_def.mp hc]
  simp [hstart]

/-- A name matches with the blanks around it as it is read. -/
theorem run_padded {n : Nat} (h : Parted follow) :
    (blanks ++ name n ++ blanks).run p caps follow =
      (name? p.skipBlanks).bind fun (text, q) =>
        follow q.skipBlanks ((n, text, p.skipBlanks.offset) :: caps) := by
  have hblank (caps : Captures) : Refuses isBlank (follow · caps) := fun q c hc hblank =>
    h q caps ⟨c, hc, .inl hblank⟩
  have hpart (caps : Captures) : Refuses isNamePart fun q => follow q.skipBlanks caps := by
    intro q c hc hpart
    have hskip : q.skipBlanks = q := by
      refine Place.skipBlanks_eq_iff.mpr ⟨[], rfl, ⟨rfl, rfl⟩, fun d hd => ?_⟩
      cases Option.some.inj (hc.symm.trans hd)
      exact isBlank_eq_false_of_isNamePart hpart
    dsimp only
    rw [hskip]
    exact h q caps ⟨c, hc, .inr hpart⟩
  have hname (caps : Captures) : Refuses isBlank fun q =>
      (name? q).bind fun (text, r) => follow r.skipBlanks ((n, text, q.offset) :: caps) := by
    intro q c hc hblank
    dsimp only
    rw [name?_eq_none hc hblank]
    rfl
  simp only [run_append, run_blanks (hblank _), run_name hpart]
  exact run_blanks (hname _)

/-- This is so if it can only match before a mark that ends names. -/
theorem parted_of_startsWith {marks : List String} {follow : Place → Captures → Option Captures}
    (hmarks : ∀ text ∈ marks, ∃ c, EndsName text c)
    (h : ∀ p caps, (∀ text ∈ marks, p.startsWith text = false) → follow p caps = none) :
    Parted follow := by
  rintro p caps ⟨d, hd, hkind⟩
  refine h p caps fun text htext => ?_
  obtain ⟨c, hmark, hblank, hpart⟩ := hmarks text htext
  by_contra hstarts
  rw [Bool.not_eq_false] at hstarts
  obtain ⟨after, hafter⟩ := Place.startsWith_iff.mp hstarts
  rw [← hafter, hmark] at hd
  cases hd
  simp [hblank, hpart] at hkind

theorem run_close :
    (mark ')').run p caps follow = if p.startsWith ")" then follow (p.skip 1) caps else none :=
  run_mark

/-- A comma or the closing parenthesis ends a name. -/
theorem parted_close : Parted fun q caps => (mark ')').run q caps follow := by
  have hmarks : ∀ text ∈ [")"], ∃ c, EndsName text c := by
    simpa using ⟨_, endsName_close⟩
  refine parted_of_startsWith hmarks fun q caps hq => ?_
  rw [run_close, hq ")" (by simp)]
  rfl

/-- What matches behind the first name in parentheses. -/
theorem run_more :
    (either (mark ',' ++ blanks ++ name 2 ++ blanks) nothing ++ mark ')').run p caps follow =
      if p.startsWith "," then
        (name? (p.skip 1).skipBlanks).bind fun (index, q) =>
          if q.skipBlanks.startsWith ")" then
            follow (q.skipBlanks.skip 1) ((2, index, (p.skip 1).skipBlanks.offset) :: caps)
          else none
      else if p.startsWith ")" then follow (p.skip 1) caps
      else none := by
  have hsecond : (mark ',' ++ blanks ++ name 2 ++ blanks).run p caps
      (fun q caps => (mark ')').run q caps follow) =
        if p.startsWith "," then
          (name? (p.skip 1).skipBlanks).bind fun (index, q) =>
            if q.skipBlanks.startsWith ")" then
              follow (q.skipBlanks.skip 1) ((2, index, (p.skip 1).skipBlanks.offset) :: caps)
            else none
        else none := by
    have hmark : (mark ',' ++ blanks ++ name 2 ++ blanks).run p caps
        (fun q caps => (mark ')').run q caps follow) = (mark ',').run p caps fun q caps =>
          (blanks ++ name 2 ++ blanks).run q caps fun q caps => (mark ')').run q caps follow := rfl
    rw [hmark, run_mark, run_padded parted_close]
    simp only [run_close]
    rfl
  rw [run_append, run, hsecond, run, run_close]
  by_cases hcomma : p.startsWith "," = true
  · obtain ⟨after, hafter⟩ := Place.startsWith_iff.mp hcomma
    have hno : p.startsWith ")" = false := by
      rw [Place.startsWith, ← hafter]
      rfl
    rw [if_pos hcomma, if_pos hcomma, hno]
    exact Option.or_none
  · rw [if_neg hcomma, if_neg hcomma]
    rfl

theorem parted_more :
    Parted fun q caps =>
      (either (mark ',' ++ blanks ++ name 2 ++ blanks) nothing ++ mark ')').run q caps follow := by
  have hmarks : ∀ text ∈ [",", ")"], ∃ c, EndsName text c := by
    simpa using ⟨⟨_, endsName_comma⟩, ⟨_, endsName_close⟩⟩
  refine parted_of_startsWith hmarks fun q caps hq => ?_
  rw [run_more, hq "," (by simp), hq ")" (by simp)]
  rfl

/-- The names in parentheses match as they are read. -/
theorem run_listed :
    listed.run p caps follow =
      if p.startsWith "(" then
        (name? (p.skip 1).skipBlanks).bind fun (item, q) =>
          (either (mark ',' ++ blanks ++ name 2 ++ blanks) nothing ++ mark ')').run q.skipBlanks
            ((1, item, (p.skip 1).skipBlanks.offset) :: caps) follow
      else none := by
  have hmark : listed.run p caps follow = (mark '(').run p caps fun q caps =>
      (blanks ++ name 1 ++ blanks).run q caps fun q caps =>
        (either (mark ',' ++ blanks ++ name 2 ++ blanks) nothing ++ mark ')').run q caps follow :=
    rfl
  rw [hmark, run_mark, run_padded parted_more]
  rfl

/-- The names of a loop head match as they are read, whatever numbers they are captured under. -/
theorem run_names (hrefuse : ∀ caps, Refuses isNamePart (follow · caps))
    {tail : Place → Option (String × Nat)}
    (hfollow : ∀ q caps, follow q caps = (tail q).map fun line => (4, line) :: caps) :
    ((either listed (name 3)).run p [] follow).bind ofCaptures? =
      (startNames? p).bind fun (item, index, q) =>
        (tail q).map fun line => ⟨item, index, line.1, line.2⟩ := by
  have captured {names : Captures} {item : String} {index : Option String} (q : Place)
      (h : ∀ line, ofCaptures? ((4, line) :: names) = some ⟨item, index, line.1, line.2⟩) :
      (follow q names).bind ofCaptures? =
        (tail q).map fun line => ⟨item, index, line.1, line.2⟩ := by
    rw [hfollow]
    cases tail q with
    | none => rfl
    | some line => exact h line
  rw [run, run_listed, run_name hrefuse, startNames?]
  by_cases hopen : p.startsWith "(" = true
  · have halone : name? p = none := by
      obtain ⟨after, hafter⟩ := Place.startsWith_iff.mp hopen
      rw [name?, ← hafter]
      rfl
    rw [if_pos hopen, if_pos hopen, halone, Option.bind_none, Option.or_none, names?]
    cases name? (p.skip 1).skipBlanks with
    | none => rfl
    | some first =>
      obtain ⟨item, q⟩ := first
      simp only [Option.bind_eq_bind, Option.bind_some, run_more]
      by_cases hcomma : q.skipBlanks.startsWith "," = true
      · rw [if_pos hcomma, if_pos hcomma]
        cases name? (q.skipBlanks.skip 1).skipBlanks with
        | none => rfl
        | some second =>
          obtain ⟨index, r⟩ := second
          simp only [Option.bind_some]
          split
          · exact captured _ fun _ => rfl
          · rfl
      · rw [if_neg hcomma, if_neg hcomma]
        split
        · exact captured _ fun _ => rfl
        · rfl
  · rw [if_neg hopen, if_neg hopen, Option.none_or]
    cases name? p with
    | none => rfl
    | some first => exact captured _ fun _ => rfl

/-- No names stand where a blank stands. -/
theorem refuses_names (hrefuse : ∀ caps, Refuses isNamePart (follow · caps)) (caps : Captures) :
    Refuses isBlank fun q => (either listed (name 3)).run q caps follow := by
  intro q c hc hblank
  have hopen : q.startsWith "(" = false := by
    by_contra hopen
    rw [Bool.not_eq_false] at hopen
    obtain ⟨after, hafter⟩ := Place.startsWith_iff.mp hopen
    rw [← hafter] at hc
    cases hc
    exact absurd hblank (by decide)
  dsimp only
  rw [run, run_listed, run_name hrefuse, hopen, name?_eq_none hc hblank]
  rfl

/-- A loop head is read as its pattern matches. -/
theorem read?_eq_pattern (value : String) (start : Nat) :
    read? value start = (pattern.captures? ⟨start, value.toList⟩).bind ofCaptures? := by
  have hrun (p : Place) : pattern.captures? p = blanks.run p [] fun q caps =>
      (either listed (name 3)).run q caps fun q caps =>
        (gap ++ keyword ++ (gap ++ iterated)).run q caps fun _ caps => some caps := rfl
  rw [hrun]
  simp only [run_tail]
  rw [run_blanks (refuses_names refuses_tail []), run_names refuses_tail fun _ _ => rfl, read?_eq]
  refine congrArg (startNames? _).bind (funext fun (item, index, q) => ?_)
  simp only [tail?]
  cases blanks? q with
  | none => rfl
  | some p =>
    simp only [Option.bind_some]
    cases keyword? p with
    | none => rfl
    | some r =>
      simp only [Option.bind_some]
      cases source? r <;> rfl

/-- Where nothing but blanks is left, one of them is given back to what is iterated. -/
example : pattern.captures? ⟨0, "(x, i) in  ".toList⟩ =
    some [(4, " ", 10), (2, "i", 4), (1, "x", 1)] := by
  decide +kernel

end LoopHead

end UiTemplate
