import UiTemplate.Proofs.Template.Rejected
import UiTemplate.Proofs.Template.Written

/-!
# The grammar of loop heads

What a loop head is as a text, said without a reader.

- `LoopHead.Names`: a name alone, or one or two names in parentheses.
- `LoopHead.Written`: the names, `in` or `of`, and what is iterated.
- `LoopHead.name?_eq_some`, `LoopHead.names?_eq_some`, `LoopHead.source?_eq_some`: every part of the
  reader takes the texts of its part of the grammar and no others.
- `LoopHead.read?_eq_some`: so does the reader, and `LoopHead.Written.unique`: there is one way only
  to take a text apart.
- `RawAttribute.loopRole_eq_ok`: a loop directive is accepted exactly if its value is written as a
  loop head and what is iterated is an expression.
-/

namespace UiTemplate

open Text

/-! ## Steps along a text -/

namespace Place

variable {p q r : Place}

/-- A text in two parts is taken one part after the other. -/
theorem Reaches.append_iff {taken more : List Char} :
    p.Reaches (taken ++ more) r ↔ ∃ q, p.Reaches taken q ∧ q.Reaches more r := by
  constructor
  · intro h
    refine ⟨⟨p.offset + byteLength taken, more ++ r.rest⟩, ⟨?_, rfl⟩, ⟨rfl, ?_⟩⟩
    · rw [h.rest, List.append_assoc]
    · rw [h.offset, byteLength_append, Nat.add_assoc]
  · rintro ⟨q, h, h'⟩
    exact h.trans h'

theorem Reaches.skip_eq {taken : List Char} (h : p.Reaches taken q) : p.skip taken.length = q := by
  obtain ⟨offset, rest⟩ := q
  obtain ⟨hrest, hoffset⟩ := h
  dsimp only at hrest hoffset
  rw [skip, hrest, List.take_left, List.drop_left, ← hoffset]

/-- A mark is taken where the place starts with it. -/
theorem reaches_mark_iff (mark : String) :
    p.Reaches mark.toList q ↔ p.startsWith mark = true ∧ p.skip mark.toList.length = q := by
  constructor
  · intro h
    exact ⟨startsWith_iff.mpr ⟨q.rest, h.rest.symm⟩, h.skip_eq⟩
  · rintro ⟨hmark, rfl⟩
    exact reaches_skip_of_startsWith hmark

/-- What is taken off the front is the longest text of characters that are kept. -/
theorem span_eq_iff {keep : Char → Bool} {taken : List Char} :
    p.span keep = (taken, q) ↔
      (∀ c ∈ taken, keep c = true) ∧ p.Reaches taken q ∧ ∀ c ∈ q.rest.head?, keep c = false := by
  constructor
  · intro h
    cases h
    refine ⟨List.all_eq_true.mp List.all_takeWhile, reaches_span keep p, fun c hc => ?_⟩
    have hstop := List.head?_dropWhile_not keep p.rest
    rw [show (p.rest.dropWhile keep).head? = some c from hc] at hstop
    exact hstop
  · rintro ⟨hkeep, hreach, hstop⟩
    obtain ⟨offset, rest⟩ := q
    obtain ⟨hrest, hoffset⟩ := hreach
    dsimp only at hrest hoffset hstop
    rw [show p = ⟨p.offset, taken ++ rest⟩ by rw [← hrest], span_append keep taken _ hkeep hstop,
      hoffset]

theorem skipBlanks_eq_iff :
    p.skipBlanks = q ↔ ∃ blanks, allBlank blanks = true ∧ p.Reaches blanks q ∧
      ∀ c ∈ q.rest.head?, isBlank c = false := by
  constructor
  · intro h
    obtain ⟨hkeep, hreach, hstop⟩ := span_eq_iff.mp (show p.span isBlank = (_, q) from
      Prod.ext rfl h)
    exact ⟨_, List.all_eq_true.mpr hkeep, hreach, hstop⟩
  · rintro ⟨blanks, hblanks, hreach, hstop⟩
    exact congrArg Prod.snd (span_eq_iff.mpr ⟨List.all_eq_true.mp hblanks, hreach, hstop⟩)

end Place

/-! ## Texts -/

namespace Text

theorem byteLength_pos {cs : List Char} (h : cs ≠ []) : 0 < byteLength cs := by
  cases cs with
  | nil => exact absurd rfl h
  | cons c cs =>
    have := c.utf8Size_pos
    simp only [byteLength]
    omega

theorem trimLeft_append {blanks : List Char} (h : allBlank blanks = true) (cs : List Char) :
    trimLeft (blanks ++ cs) = trimLeft cs :=
  List.dropWhile_append_of_pos (List.all_eq_true.mp h)

theorem trimRight_append {blanks : List Char} (h : allBlank blanks = true) (cs : List Char) :
    trimRight (cs ++ blanks) = trimRight cs := by
  have hreverse : allBlank blanks.reverse = true := by rwa [allBlank, List.all_reverse]
  rw [trimRight, List.reverse_append, trimLeft_append hreverse, trimRight]

theorem trim_eq_nil {cs : List Char} (h : allBlank cs = true) : trim cs = [] := by
  have hleft : trimLeft cs = [] := List.dropWhile_eq_nil_iff.mpr (List.all_eq_true.mp h)
  rw [trim, hleft]
  rfl

/-- What is lost at the end of a text is blank. -/
theorem eq_trimRight_append (cs : List Char) :
    ∃ trail, allBlank trail = true ∧ cs = trimRight cs ++ trail := by
  refine ⟨(cs.reverse.takeWhile isBlank).reverse, ?_, ?_⟩
  · rw [allBlank, List.all_reverse]
    exact List.all_takeWhile
  · have hsplit := List.takeWhile_append_dropWhile (p := isBlank) (l := cs.reverse)
    have hreverse := congrArg List.reverse hsplit
    rw [List.reverse_append, List.reverse_reverse] at hreverse
    exact hreverse.symm

end Text

/-- Blanks alone are no expression. -/
theorem Expression.trim_ne_nil {text : String} {e : Expression} (h : parse text = .ok e) :
    trim text.toList ≠ [] := by
  intro hnil
  simp only [parse, hnil, List.isEmpty_nil, ↓reduceIte] at h
  cases h

namespace LoopHead

/-! ## The grammar -/

/-- A name, with blanks around it or not. -/
inductive Padded : List Char → String → Prop where
  | mk {lead trail : List Char} {name : String} (hlead : allBlank lead = true)
      (hname : IsName name) (htrail : allBlank trail = true) :
      Padded (lead ++ (name.toList ++ trail)) name

/-- The text behind a parenthesis: a name, or two names with a comma between them, up to the closing
parenthesis. -/
inductive Listed : List Char → String → Option String → Prop where
  | one {first : List Char} {item : String} (hitem : Padded first item) :
      Listed (first ++ [')']) item none
  | two {first second : List Char} {item index : String} (hitem : Padded first item)
      (hindex : Padded second index) :
      Listed (first ++ ([','] ++ (second ++ [')']))) item (some index)

/-- The names of a loop head: that of the item alone, or the names in parentheses. -/
inductive Names : List Char → String → Option String → Prop where
  | alone {item : String} (hitem : IsName item) : Names item.toList item none
  | listed {text : List Char} {item : String} {index : Option String}
      (hlisted : Listed text item index) : Names (['('] ++ text) item index

/-- Blanks, at least one. -/
def IsGap (cs : List Char) : Prop :=
  cs ≠ [] ∧ allBlank cs = true

/-- The text of what is iterated: not blank, without blanks at its ends and on one line. -/
structure IsSource (cs : List Char) : Prop where
  ne_nil : cs ≠ []
  trimmed : trim cs = cs
  oneLine : '\n' ∉ cs

/-- A loop head as it is written: the names, `in` or `of`, and what is iterated. There are blanks on
both sides of the word, and there may be blanks at the ends. -/
inductive Written : List Char → String → Option String → String → Prop where
  | mk {lead names before word after trail : List Char} {item source : String}
      {index : Option String} (hlead : allBlank lead = true) (hnames : Names names item index)
      (hbefore : IsGap before) (hword : word = "in".toList ∨ word = "of".toList)
      (hafter : IsGap after) (hsource : IsSource source.toList) (htrail : allBlank trail = true) :
      Written (lead ++ (names ++ (before ++ (word ++ (after ++ (source.toList ++ trail)))))) item
        index source

/-! ## Its reader -/

variable {p q : Place}

theorem IsName.head {name : String} (h : IsName name) :
    ∃ c cs, name.toList = c :: cs ∧ isBlank c = false ∧ c ≠ '(' := by
  obtain ⟨c, cs, hname, hstart, -⟩ := h
  refine ⟨c, cs, hname, isBlank_eq_false_of_isNamePart (isNameStart_begins hstart).1, ?_⟩
  rintro rfl
  exact absurd hstart (by decide)

theorem isNamePart_eq_false_of_isBlank {c : Char} (h : isBlank c = true) :
    isNamePart c = false := by
  by_contra hpart
  rw [isBlank_eq_false_of_isNamePart (Bool.not_eq_false _ ▸ hpart)] at h
  exact Bool.false_ne_true h

/-- No name goes on with blanks. -/
theorem not_isNamePart_of_blanks {blanks : List Char} (hblanks : allBlank blanks = true)
    (h : p.Reaches blanks q) (hq : ∀ c ∈ q.rest.head?, isNamePart c = false) :
    ∀ c ∈ p.rest.head?, isNamePart c = false := by
  intro c hc
  rw [h.rest] at hc
  cases blanks with
  | nil => exact hq c hc
  | cons b blanks =>
    cases hc
    exact isNamePart_eq_false_of_isBlank (List.all_eq_true.mp hblanks c List.mem_cons_self)

/-- A name is read as far as it goes. -/
theorem name?_eq_some {name : String} :
    name? p = some (name, q) ↔
      IsName name ∧ p.Reaches name.toList q ∧ ∀ c ∈ q.rest.head?, isNamePart c = false := by
  constructor
  · intro h
    refine ⟨name?_isName h, ?_⟩
    unfold name? at h
    split at h
    · cases h
      rw [String.toList_ofList]
      exact (Place.span_eq_iff.mp rfl).2
    · cases h
  · rintro ⟨hname, hreach, hstop⟩
    have hspan := Place.span_eq_iff.mpr ⟨List.all_eq_true.mp hname.all_isNamePart, hreach, hstop⟩
    obtain ⟨c, cs, htext, hstart, -⟩ := hname
    have hhead : p.rest.head? = some c := by rw [hreach.rest, htext]; rfl
    rw [name?, hhead, hspan]
    simp [hstart]

/-- A name is read with the blanks around it up to a mark. -/
theorem name?_padded {name : String}
    (hq : ∀ c ∈ q.rest.head?, isBlank c = false ∧ isNamePart c = false) :
    (∃ r, name? p.skipBlanks = some (name, r) ∧ r.skipBlanks = q) ↔
      ∃ text, Padded text name ∧ p.Reaches text q := by
  constructor
  · rintro ⟨r, hr, rfl⟩
    obtain ⟨hname, htaken, -⟩ := name?_eq_some.mp hr
    obtain ⟨lead, hlead, hskip⟩ := p.reaches_skipBlanks
    obtain ⟨trail, htrail, hskip'⟩ := r.reaches_skipBlanks
    exact ⟨_, .mk hlead hname htrail, hskip.trans (htaken.trans hskip')⟩
  · rintro ⟨text, ⟨hlead, hname, htrail⟩, h⟩
    rw [Place.Reaches.append_iff] at h
    obtain ⟨p₁, hskip, h⟩ := h
    rw [Place.Reaches.append_iff] at h
    obtain ⟨r, htaken, hskip'⟩ := h
    have hfirst : p.skipBlanks = p₁ := by
      refine Place.skipBlanks_eq_iff.mpr ⟨_, hlead, hskip, fun d hd => ?_⟩
      obtain ⟨c, cs, htext, hblank, -⟩ := hname.head
      rw [htaken.rest, htext] at hd
      cases hd
      exact hblank
    refine ⟨r, ?_, Place.skipBlanks_eq_iff.mpr ⟨_, htrail, hskip', fun c hc => (hq c hc).1⟩⟩
    rw [hfirst, name?_eq_some]
    exact ⟨hname, htaken, not_isNamePart_of_blanks htrail hskip' fun c hc => (hq c hc).2⟩

/-- A mark that no name has: the names in parentheses are told apart by the one behind them. -/
structure EndsName (mark : String) (c : Char) : Prop where
  mark_eq : mark.toList = [c]
  not_blank : isBlank c = false
  not_part : isNamePart c = false

theorem endsName_comma : EndsName "," ',' := by
  constructor <;> decide +kernel

theorem endsName_close : EndsName ")" ')' := by
  constructor <;> decide +kernel

/-- A name and the mark behind it, with blanks before the mark and at the front or not. -/
theorem name?_mark {mark : String} {c : Char} (hc : EndsName mark c) {name : String} :
    (∃ r, name? p.skipBlanks = some (name, r) ∧ r.skipBlanks.startsWith mark = true ∧
        r.skipBlanks.skip 1 = q) ↔
      ∃ text, Padded text name ∧ p.Reaches (text ++ [c]) q := by
  have hreach {p : Place} : p.startsWith mark = true ∧ p.skip 1 = q ↔ p.Reaches [c] q := by
    have hmark := Place.reaches_mark_iff (p := p) (q := q) mark
    rw [hc.mark_eq] at hmark
    exact hmark.symm
  have hhead {p : Place} (h : p.Reaches [c] q) :
      ∀ d ∈ p.rest.head?, isBlank d = false ∧ isNamePart d = false := by
    rw [h.rest]
    rintro d ⟨⟩
    exact ⟨hc.not_blank, hc.not_part⟩
  constructor
  · rintro ⟨r, hr, hmark⟩
    have hend := hreach.mp hmark
    obtain ⟨text, htext, htaken⟩ := (name?_padded (hhead hend)).mp ⟨r, hr, rfl⟩
    exact ⟨text, htext, htaken.trans hend⟩
  · rintro ⟨text, htext, h⟩
    obtain ⟨r', htaken, hend⟩ := Place.Reaches.append_iff.mp h
    obtain ⟨r, hr, rfl⟩ := (name?_padded (hhead hend)).mpr ⟨text, htext, htaken⟩
    exact ⟨r, hr, hreach.mpr hend⟩

/-- The names in parentheses are read exactly by their grammar. -/
theorem names?_eq_some {item : String} {index : Option String} :
    names? p = some (item, index, q) ↔ ∃ text, Listed text item index ∧ p.Reaches text q := by
  constructor
  · intro h
    obtain ⟨⟨first, r⟩, hfirst, h⟩ := Option.bind_eq_some_iff.mp h
    dsimp only at h
    split at h
    · rename_i hcomma
      obtain ⟨⟨second, s⟩, hsecond, h⟩ := Option.bind_eq_some_iff.mp h
      dsimp only at h
      split at h
      · rename_i hclose
        cases h
        obtain ⟨text, htext, htaken⟩ :=
          (name?_mark endsName_comma).mp ⟨r, hfirst, hcomma, rfl⟩
        obtain ⟨more, hmore, htaken'⟩ :=
          (name?_mark endsName_close).mp ⟨s, hsecond, hclose, rfl⟩
        refine ⟨_, .two htext hmore, ?_⟩
        rw [← List.append_assoc]
        exact htaken.trans htaken'
      · cases h
    · split at h
      · rename_i hclose
        cases h
        obtain ⟨text, htext, htaken⟩ :=
          (name?_mark endsName_close).mp ⟨r, hfirst, hclose, rfl⟩
        exact ⟨_, .one htext, htaken⟩
      · cases h
  · rintro ⟨text, hlisted, h⟩
    cases hlisted with
    | one hitem =>
      obtain ⟨r, hr, hclose, hskip⟩ := (name?_mark endsName_close).mpr ⟨_, hitem, h⟩
      have hcomma : r.skipBlanks.startsWith "," = false := by
        obtain ⟨after, hafter⟩ := Place.startsWith_iff.mp hclose
        rw [Place.startsWith, ← hafter]
        rfl
      rw [names?, hr]
      simp [hcomma, hclose, hskip]
    | two hitem hindex =>
      rw [← List.append_assoc] at h
      obtain ⟨s, hfirst, hsecond⟩ := Place.Reaches.append_iff.mp h
      obtain ⟨r, hr, hcomma, rfl⟩ := (name?_mark endsName_comma).mpr ⟨_, hitem, hfirst⟩
      obtain ⟨t, ht, hclose, hskip⟩ := (name?_mark endsName_close).mpr ⟨_, hindex, hsecond⟩
      rw [names?, hr]
      simp [hcomma, ht, hclose, hskip]

/-- A gap is read up to the first character that is not blank. -/
theorem blanks?_eq_some :
    blanks? p = some q ↔ ∃ gap, IsGap gap ∧ p.Reaches gap q ∧
      ∀ c ∈ q.rest.head?, isBlank c = false := by
  constructor
  · intro h
    simp only [blanks?, Option.ite_none_right_eq_some, Option.some.injEq] at h
    obtain ⟨hlt, hskip⟩ := h
    obtain ⟨gap, hblank, hreach, hstop⟩ := Place.skipBlanks_eq_iff.mp hskip
    refine ⟨gap, ⟨?_, hblank⟩, hreach, hstop⟩
    rintro rfl
    rw [hskip, hreach.offset, byteLength, Nat.add_zero] at hlt
    exact Nat.lt_irrefl _ hlt
  · rintro ⟨gap, ⟨hne, hblank⟩, hreach, hstop⟩
    have hskip := Place.skipBlanks_eq_iff.mpr ⟨gap, hblank, hreach, hstop⟩
    have hpos := byteLength_pos hne
    have hoffset := hreach.offset
    have hlt : p.offset < q.offset := by omega
    simp only [blanks?, hskip, hlt, ↓reduceIte]

theorem keyword?_eq_some :
    keyword? p = some q ↔
      ∃ word, (word = "in".toList ∨ word = "of".toList) ∧ p.Reaches word q := by
  constructor
  · intro h
    simp only [keyword?, Option.ite_none_right_eq_some, Option.some.injEq, Bool.or_eq_true] at h
    obtain ⟨hin | hof, hskip⟩ := h
    · exact ⟨_, .inl rfl, (Place.reaches_mark_iff _).mpr ⟨hin, hskip⟩⟩
    · exact ⟨_, .inr rfl, (Place.reaches_mark_iff _).mpr ⟨hof, hskip⟩⟩
  · rintro ⟨word, rfl | rfl, h⟩
    · obtain ⟨hin, hskip⟩ := (Place.reaches_mark_iff _).mp h
      rw [keyword?, hin, ← hskip]
      rfl
    · obtain ⟨hof, hskip⟩ := (Place.reaches_mark_iff _).mp h
      rw [keyword?, hof, Bool.or_true, ← hskip]
      rfl

/-- Where only blanks are left, a blank stands for what is iterated. -/
theorem source?_blank {source : String} {start : Nat} (hblank : allBlank p.rest = true)
    (h : source? p = some (source, start)) : trim source.toList = [] := by
  obtain ⟨q, ⟨taken, hreach⟩, -, hfront⟩ := source?_leads h
  refine trim_eq_nil (List.all_eq_true.mpr fun c hc => ?_)
  refine List.all_eq_true.mp hblank c ?_
  rw [hreach.rest]
  exact List.mem_append_right taken (hfront.subset hc)

/-- What is iterated is read exactly by its grammar, unless a blank stands for it. -/
theorem source?_eq_some {source : String} :
    (∃ start, source? p = some (source, start)) ∧ trim source.toList ≠ [] ↔
      IsSource source.toList ∧ ∃ gap trail, IsGap gap ∧ allBlank trail = true ∧
        p.rest = gap ++ (source.toList ++ trail) := by
  constructor
  · rintro ⟨⟨start, h⟩, hne⟩
    have hblank : ¬allBlank p.rest = true := fun hblank => hne (source?_blank hblank h)
    obtain ⟨q, hq, h⟩ := Option.bind_eq_some_iff.mp h
    obtain ⟨gap, hgap, hreach, hstop⟩ := blanks?_eq_some.mp hq
    have hleft : trimLeft q.rest = q.rest := trimLeft_of_head hstop
    obtain ⟨trail, htrail, hsplit⟩ := eq_trimRight_append q.rest
    split at h
    · rename_i hempty
      rw [List.isEmpty_iff] at hempty
      rw [hreach.rest, hempty, List.append_nil] at hblank
      exact absurd hgap.2 hblank
    · dsimp only at h
      split at h
      · cases h
      · rename_i hline
        cases h
        rw [String.toList_ofList]
        rw [String.toList_ofList] at hne
        have htrim : trim q.rest = trimRight q.rest := by rw [trim, hleft]
        refine ⟨⟨?_, ?_, ?_⟩, gap, trail, hgap, htrail, ?_⟩
        · intro hnil
          rw [hnil] at hne
          exact hne rfl
        · rw [← htrim, trim_trim]
        · simpa using hline
        · rw [← hsplit, hreach.rest]
  · rintro ⟨hsource, gap, trail, hgap, htrail, hrest⟩
    have hleft : trimLeft source.toList = source.toList := by
      rw [← hsource.trimmed, trimLeft_trim]
    have hright : trimRight source.toList = source.toList := by
      have htrimmed := hsource.trimmed
      rwa [trim, hleft] at htrimmed
    have hstop : ∀ c ∈ (source.toList ++ trail).head?, isBlank c = false := by
      intro c hc
      rw [List.head?_append_of_ne_nil _ hsource.ne_nil, ← hleft] at hc
      exact head?_trimLeft _ c hc
    have hblanks : blanks? p = some ⟨p.offset + byteLength gap, source.toList ++ trail⟩ :=
      blanks?_eq_some.mpr ⟨gap, hgap, ⟨hrest, rfl⟩, hstop⟩
    have hne : source ≠ "" := fun hnil => hsource.ne_nil (congrArg String.toList hnil)
    refine ⟨⟨p.offset + byteLength gap, ?_⟩, hsource.trimmed.symm ▸ hsource.ne_nil⟩
    simp [source?, hblanks, hne, trimRight_append htrail, hright, hsource.oneLine]

theorem Names.head {text : List Char} {item : String} {index : Option String}
    (h : Names text item index) : ∃ c cs, text = c :: cs ∧ isBlank c = false := by
  cases h with
  | alone hitem =>
    obtain ⟨c, cs, htext, hblank, -⟩ := hitem.head
    exact ⟨c, cs, htext, hblank⟩
  | listed hlisted => exact ⟨'(', _, rfl, by decide⟩

/-- The names that a loop head starts with. -/
def startNames? (p : Place) : Option (String × Option String × Place) :=
  if p.startsWith "(" then names? (p.skip 1) else (name? p).map fun (item, p) => (item, none, p)

/-- The names are read exactly by their grammar, up to a character that no name has. -/
theorem startNames?_eq_some {item : String} {index : Option String}
    (hq : ∀ c ∈ q.rest.head?, isNamePart c = false) :
    startNames? p = some (item, index, q) ↔ ∃ text, Names text item index ∧ p.Reaches text q := by
  constructor
  · intro h
    unfold startNames? at h
    split at h
    · rename_i hopen
      obtain ⟨text, htext, htaken⟩ := names?_eq_some.mp h
      have hmark := Place.reaches_skip_of_startsWith hopen
      exact ⟨_, .listed htext, hmark.trans htaken⟩
    · obtain ⟨⟨name, r⟩, hname, h⟩ := Option.map_eq_some_iff.mp h
      cases h
      obtain ⟨hitem, htaken, -⟩ := name?_eq_some.mp hname
      exact ⟨_, .alone hitem, htaken⟩
  · rintro ⟨text, hnames, h⟩
    cases hnames with
    | alone hitem =>
      have hopen : p.startsWith "(" = false := by
        obtain ⟨c, cs, htext, -, hne⟩ := hitem.head
        refine Place.startsWith_eq_false.mpr ?_
        rw [h.rest, htext]
        rintro ⟨after, hafter⟩
        exact hne (List.cons.inj hafter).1.symm
      have hname : name? p = some (item, q) := name?_eq_some.mpr ⟨hitem, h, hq⟩
      simp [startNames?, hopen, hname]
    | listed hlisted =>
      obtain ⟨r, hmark, htaken⟩ := Place.Reaches.append_iff.mp h
      obtain ⟨hopen, hskip⟩ := (Place.reaches_mark_iff "(").mp hmark
      rw [startNames?, if_pos hopen, show p.skip 1 = r from hskip, names?_eq_some]
      exact ⟨_, hlisted, htaken⟩

/-- The parts of a loop head are read one after the other. -/
theorem read?_eq (value : String) (start : Nat) :
    read? value start =
      (startNames? (Place.skipBlanks ⟨start, value.toList⟩)).bind fun (item, index, p) =>
        (blanks? p).bind fun p => (keyword? p).bind fun p => (source? p).bind
          fun (source, sourceStart) => some ⟨item, index, source, sourceStart⟩ := by
  unfold read? startNames?
  dsimp only
  split <;> rfl

theorem IsGap.head {gap : List Char} (h : IsGap gap) (hreach : p.Reaches gap q) :
    ∀ c ∈ p.rest.head?, isBlank c = true := by
  obtain ⟨c, cs, rfl⟩ := List.exists_cons_of_ne_nil h.1
  rw [hreach.rest]
  rintro d ⟨⟩
  exact List.all_eq_true.mp h.2 c List.mem_cons_self

/-- A loop head is read exactly by its grammar, unless a blank stands for what is iterated. -/
theorem read?_eq_some (start : Nat) {value item source : String} {index : Option String} :
    (∃ sourceStart, read? value start = some ⟨item, index, source, sourceStart⟩) ∧
        trim source.toList ≠ [] ↔
      Written value.toList item index source := by
  constructor
  · rintro ⟨⟨sourceStart, h⟩, hne⟩
    rw [read?_eq] at h
    obtain ⟨⟨item, index, q⟩, hnames, h⟩ := Option.bind_eq_some_iff.mp h
    obtain ⟨r, hbefore, h⟩ := Option.bind_eq_some_iff.mp h
    obtain ⟨s, hword, h⟩ := Option.bind_eq_some_iff.mp h
    obtain ⟨⟨source, start⟩, hsource, h⟩ := Option.bind_eq_some_iff.mp h
    cases h
    obtain ⟨before, hbefore, hbeforeTaken, -⟩ := blanks?_eq_some.mp hbefore
    obtain ⟨word, hword, hwordTaken⟩ := keyword?_eq_some.mp hword
    obtain ⟨hsource, after, trail, hafter, htrail, hrest⟩ :=
      source?_eq_some.mp ⟨⟨_, hsource⟩, hne⟩
    have hstop : ∀ c ∈ q.rest.head?, isNamePart c = false := fun c hc =>
      isNamePart_eq_false_of_isBlank (hbefore.head hbeforeTaken c hc)
    obtain ⟨names, hnames, hnamesTaken⟩ := (startNames?_eq_some hstop).mp hnames
    obtain ⟨lead, hlead, hskip⟩ := Place.reaches_skipBlanks ⟨_, value.toList⟩
    have htaken := hskip.rest
    rw [hnamesTaken.rest, hbeforeTaken.rest, hwordTaken.rest, hrest] at htaken
    dsimp only at htaken
    rw [htaken]
    exact .mk hlead hnames hbefore hword hafter hsource htrail
  -- The other way round, the reader stops at each part because the next one starts differently.
  · generalize hvalue : value.toList = text
    rintro ⟨hlead, hnames, hbefore, hword, hafter, hsource, htrail⟩
    rename_i lead names before word after trail
    obtain ⟨s, hreach, hrest⟩ : ∃ s, Place.Reaches ⟨start, value.toList⟩
        (lead ++ (names ++ (before ++ word))) s ∧ s.rest = after ++ (source.toList ++ trail) :=
      ⟨⟨_, _⟩, ⟨by simp only [hvalue, List.append_assoc], rfl⟩, rfl⟩
    simp only [Place.Reaches.append_iff] at hreach
    obtain ⟨p, hleadTaken, q, hnamesTaken, r, hbeforeTaken, hwordTaken⟩ := hreach
    have hskip : Place.skipBlanks ⟨start, value.toList⟩ = p := by
      refine Place.skipBlanks_eq_iff.mpr ⟨lead, hlead, hleadTaken, ?_⟩
      obtain ⟨c, cs, htext, hblank⟩ := hnames.head
      rw [hnamesTaken.rest, htext]
      rintro d ⟨⟩
      exact hblank
    have hstop : ∀ c ∈ q.rest.head?, isNamePart c = false := fun c hc =>
      isNamePart_eq_false_of_isBlank (hbefore.head hbeforeTaken c hc)
    have hnames' : startNames? p = some (item, index, q) :=
      (startNames?_eq_some hstop).mpr ⟨names, hnames, hnamesTaken⟩
    have hbefore' : blanks? q = some r := by
      refine blanks?_eq_some.mpr ⟨before, hbefore, hbeforeTaken, ?_⟩
      rw [hwordTaken.rest]
      rcases hword with rfl | rfl <;> rintro d ⟨⟩ <;> decide
    have hword' := keyword?_eq_some.mpr ⟨word, hword, hwordTaken⟩
    obtain ⟨⟨sourceStart, hsource'⟩, hne⟩ :=
      source?_eq_some.mpr ⟨hsource, after, trail, hafter, htrail, hrest⟩
    refine ⟨⟨sourceStart, ?_⟩, hne⟩
    simp only [read?_eq, hskip, hnames', hbefore', hword', hsource', Option.bind_some]

theorem Written.not_blank {text : List Char} {item source : String} {index : Option String}
    (h : Written text item index source) : allBlank text = false := by
  obtain ⟨-, hnames, -, -, -, -, -⟩ := h
  obtain ⟨c, cs, rfl, hblank⟩ := hnames.head
  rw [Bool.eq_false_iff]
  intro hall
  have hc := List.all_eq_true.mp hall c (by simp)
  rw [hblank] at hc
  exact nomatch hc

/-- The words between the names and the source may be names and may stand in the source. -/
example : read? "in of of in in" 0 = some ⟨"in", none, "of in in", 6⟩ := by decide +kernel

/-- A loop head is written in one way only. -/
theorem Written.unique {text : List Char} {item item' source source' : String}
    {index index' : Option String} (h : Written text item index source)
    (h' : Written text item' index' source') :
    item = item' ∧ index = index' ∧ source = source' := by
  rw [← String.toList_ofList (l := text)] at h h'
  obtain ⟨⟨sourceStart, hread⟩, -⟩ := (read?_eq_some 0).mpr h
  obtain ⟨⟨sourceStart', hread'⟩, -⟩ := (read?_eq_some 0).mpr h'
  rw [hread, Option.some.injEq, mk.injEq] at hread'
  obtain ⟨hitem, hindex, hsource, -⟩ := hread'
  exact ⟨hitem, hindex, hsource⟩

end LoopHead

/-! ## Loop directives -/

theorem expressionAt_eq_ok {text : String} {start : Nat} {e : Expression} :
    expressionAt text start = .ok e ↔ Expression.parse text = .ok e := by
  unfold expressionAt
  split
  · rename_i hparse
    rw [hparse, Except.ok.injEq, Except.ok.injEq]
  · rename_i hparse
    rw [hparse]
    exact ⟨nofun, nofun⟩

namespace RawAttribute

variable {a : RawAttribute}

theorem requiredValue_eq_ok {value : String} :
    a.requiredValue = .ok value ↔ a.value = some value ∧ allBlank value.toList = false := by
  unfold requiredValue
  cases a.value with
  | none => exact ⟨nofun, nofun⟩
  | some v =>
    by_cases hblank : allBlank v.toList = true
    · simp only [hblank, if_true]
      refine ⟨nofun, ?_⟩
      rintro ⟨hv, hvalue⟩
      cases hv
      rw [hblank] at hvalue
      exact nomatch hvalue
    · simp only [hblank, Bool.false_eq_true, ↓reduceIte, Option.some.injEq, Except.ok.injEq]
      refine ⟨?_, And.left⟩
      rintro rfl
      exact ⟨rfl, Bool.not_eq_true _ ▸ hblank⟩

/-- What a loop directive is accepted for. -/
theorem written_of_loopRole {s : Structure} (h : a.loopRole = .ok s) :
    ∃ value item index source e, a.value = some value ∧
      LoopHead.Written value.toList item index source ∧ Expression.parse source = .ok e ∧
      s = .forEach e item index := by
  obtain ⟨value, hvalue, h⟩ := Except.bind_eq_ok.mp h
  split at h
  · cases h
  · rename_i head hhead
    obtain ⟨e, he, h⟩ := Except.bind_eq_ok.mp h
    cases h
    have hparse := expressionAt_eq_ok.mp he
    refine ⟨value, head.item, head.index, head.source, e, (requiredValue_eq_ok.mp hvalue).1, ?_,
      hparse, rfl⟩
    exact (LoopHead.read?_eq_some _).mp
      ⟨⟨head.sourceStart, hhead⟩, Expression.trim_ne_nil hparse⟩

theorem loopRole_of_written {value item source : String} {index : Option String} {e : Expression}
    (hvalue : a.value = some value) (hwritten : LoopHead.Written value.toList item index source)
    (hparse : Expression.parse source = .ok e) : a.loopRole = .ok (.forEach e item index) := by
  obtain ⟨⟨sourceStart, hread⟩, -⟩ := (LoopHead.read?_eq_some a.valueStart).mpr hwritten
  have hrequired : a.requiredValue = .ok value :=
    requiredValue_eq_ok.mpr ⟨hvalue, hwritten.not_blank⟩
  have hsource : expressionAt source sourceStart = .ok e := expressionAt_eq_ok.mpr hparse
  refine Except.bind_eq_ok.mpr ⟨value, hrequired, ?_⟩
  rw [hread]
  exact Except.bind_eq_ok.mpr ⟨e, hsource, rfl⟩

/-- A loop directive is accepted exactly if its value is written as a loop head and what is iterated
is an expression. It then repeats over that expression, under the names that the head has. -/
theorem loopRole_eq_ok (a : RawAttribute) (s : Structure) :
    a.loopRole = .ok s ↔
      ∃ value item index source e, a.value = some value ∧
        LoopHead.Written value.toList item index source ∧
        Expression.parse source = .ok e ∧ s = .forEach e item index := by
  constructor
  · exact written_of_loopRole
  · rintro ⟨value, item, index, source, e, hvalue, hwritten, hparse, rfl⟩
    exact loopRole_of_written hvalue hwritten hparse

end RawAttribute

end UiTemplate
