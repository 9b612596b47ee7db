import UiTemplate.Proofs.Expression.Source
import UiTemplate.Proofs.Template.Cover

/-!
# Where things stand in a template

- `Stands`: what stands in a text from a byte on.
- `Raw.IsPlaced`: a node as it is written, and all below it, stand where they say.
- `Raw.isPlacedAll_of_read`: so do the nodes of a template, also without superfluous blanks.
- `LoopHead.read?_stands`: the text of what is iterated stands where the loop head says.
- `Raw.expressionTextsAll`: the texts of nodes that are read as expressions, with their places.
-/

namespace UiTemplate

/-- The mark stands in the text from byte `start` on. -/
def Stands (source : List Char) (start : Nat) (mark : List Char) : Prop :=
  ∃ before after, source = before ++ mark ++ after ∧ start = Text.byteLength before

namespace Stands

variable {source : List Char} {start : Nat}

/-- What stands in a text that stands in another one. -/
theorem inner {text mark : List Char} {i : Nat} (h : Stands source start text)
    (hmark : Stands text i mark) : Stands source (start + i) mark := by
  obtain ⟨before, after, rfl, rfl⟩ := h
  obtain ⟨before', after', rfl, rfl⟩ := hmark
  refine ⟨before ++ before', after' ++ after, ?_, (Text.byteLength_append before before').symm⟩
  simp only [List.append_assoc]

/-- A mark stands where the text starts with it. -/
theorem front {mark : List Char} (after : List Char) : Stands (mark ++ after) 0 mark :=
  ⟨[], after, rfl, rfl⟩

/-- The front of what stands there stands there. -/
theorem of_prefix {mark text : List Char} (h : Stands source start text) (hp : mark <+: text) :
    Stands source start mark := by
  obtain ⟨after, rfl⟩ := hp
  exact h.inner (front after)

/-- What follows another text stands after its bytes. -/
theorem drop {first mark : List Char} (h : Stands source start (first ++ mark)) :
    Stands source (start + Text.byteLength first) mark :=
  h.inner ⟨first, [], (List.append_nil _).symm, rfl⟩

/-- A text without the blanks at its ends stands after the blanks at its front. -/
theorem trim {text : List Char} (h : Stands source start text) :
    Stands source (start + Text.byteLength (text.takeWhile Text.isBlank)) (Text.trim text) := by
  obtain ⟨after, hafter⟩ := Text.eq_append_trim text
  have hsplit : Stands source start
      (text.takeWhile Text.isBlank ++ (Text.trim text ++ after)) := by
    rwa [← hafter]
  exact hsplit.drop.of_prefix ⟨after, rfl⟩

end Stands

/-! ## Nodes as they are written -/

/-- An attribute stands where it says, and so does its value. -/
structure RawAttribute.IsPlaced (source : List Char) (a : RawAttribute) : Prop where
  name : Stands source a.start a.name.toList
  value : ∀ v ∈ a.value, Stands source a.valueStart v.toList

namespace Raw

mutual

/-- A node and those below it stand where they say. An interpolation stands between its braces. -/
def IsPlaced (source : List Char) : Raw → Prop
  | element tag attributes _ start children =>
    Stands source start ('<' :: tag.toList) ∧ (∀ a ∈ attributes, a.IsPlaced source) ∧
      IsPlacedAll source children
  | text _ start => Stands source start []
  | interpolation code start =>
    ∃ before after, start = Text.byteLength (before ++ "\x7b\x7b".toList) ∧
      source = before ++ "\x7b\x7b".toList ++ code.toList ++ "\x7d\x7d".toList ++ after
  | comment value start =>
    Stands source start ("<!--".toList ++ value.toList ++ "-->".toList)

/-- Siblings and the nodes below them stand where they say. -/
def IsPlacedAll (source : List Char) : List Raw → Prop
  | [] => True
  | r :: rest => r.IsPlaced source ∧ IsPlacedAll source rest

end

end Raw

section Covers

variable {source : List Char}

/-- An attribute is placed where its text stands. -/
theorem RawAttribute.Covers.isPlaced {start : Nat} {a : RawAttribute} {text : List Char}
    (h : a.Covers start text) (hs : Stands source start text) : a.IsPlaced source := by
  cases h with
  | bare => exact ⟨hs, nofun⟩
  | @plain name value equals _ =>
    refine ⟨hs.of_prefix ⟨equals ++ value.toList, (List.append_assoc ..).symm⟩, ?_⟩
    rintro v ⟨⟩
    exact hs.drop
  | @quoted name value equals quote _ _ =>
    refine ⟨hs.of_prefix ⟨equals ++ ([quote] ++ (value.toList ++ [quote])), ?_⟩, ?_⟩
    · simp only [List.append_assoc]
    · rintro v ⟨⟩
      have hvalue := (hs.of_prefix ⟨[quote], rfl⟩).drop
      exact hvalue

/-- So are all attributes of a tag. -/
theorem RawAttribute.CoversAll.isPlaced {start : Nat} {attributes : List RawAttribute}
    {text : List Char} (h : RawAttribute.CoversAll start attributes text)
    (hs : Stands source start text) :
    ∀ a ∈ attributes, a.IsPlaced source := by
  induction h with
  | nil => exact fun a ha => absurd ha List.not_mem_nil
  | @cons start blanks text rest a attributes _ first others ih =>
    refine List.forall_mem_cons.mpr ⟨first.isPlaced ?_, ih hs.drop⟩
    have hfront : Stands source start (blanks ++ text) := hs.of_prefix ⟨rest, rfl⟩
    exact hfront.drop

/-- A start tag stands with its name and its attributes where its text does. -/
theorem StartTag.isPlaced {start : Nat} {tag : String} {attributes : List RawAttribute}
    {finish text : List Char} (h : StartTag start tag attributes finish text)
    (hs : Stands source start text) :
    Stands source start ('<' :: tag.toList) ∧ ∀ a ∈ attributes, a.IsPlaced source := by
  cases h with
  | @mk between _ hall =>
    have hfront : Stands source start ('<' :: tag.toList ++ between) := hs.of_prefix ⟨finish, rfl⟩
    exact ⟨hfront.of_prefix ⟨between, rfl⟩, hall.isPlaced hfront.drop⟩

mutual

/-- What was read from a text that stands in a template stands there. -/
theorem Raw.Covers.isPlaced {start : Nat} {text : List Char} (r : Raw) (h : r.Covers start text)
    (hs : Stands source start text) : r.IsPlaced source := by
  match r, h with
  | .text .., .text _ => exact hs.of_prefix List.nil_prefix
  | .comment .., .comment _ => exact hs
  | .interpolation .., .interpolation _ =>
    obtain ⟨before, after, hsource, rfl⟩ := hs
    refine ⟨before, after, (Text.byteLength_append before "\x7b\x7b".toList).symm, ?_⟩
    rw [hsource]
    simp only [List.append_assoc]
  | .element tag attributes _ _ _, .selfClosing h =>
    obtain ⟨htag, hattributes⟩ := h.isPlaced hs
    exact ⟨htag, hattributes, trivial⟩
  | .element tag attributes _ _ _, .void _ h =>
    obtain ⟨htag, hattributes⟩ := h.isPlaced hs
    exact ⟨htag, hattributes, trivial⟩
  | .element tag attributes _ _ children, .element hopening below _ =>
    have hfront := hs.of_prefix ⟨_, rfl⟩
    obtain ⟨htag, hattributes⟩ := hopening.isPlaced (hfront.of_prefix ⟨_, rfl⟩)
    exact ⟨htag, hattributes, Raw.CoversAll.isPlaced children below hfront.drop⟩

/-- What covers a text is placed in it. -/
theorem Raw.CoversAll.isPlaced {start : Nat} {text : List Char} (rs : List Raw)
    (h : Raw.CoversAll start rs text) (hs : Stands source start text) :
    Raw.IsPlacedAll source rs := by
  match rs, h with
  | [], _ => trivial
  | r :: rest, .cons first others _ =>
    exact ⟨Raw.Covers.isPlaced r first (hs.of_prefix ⟨_, rfl⟩),
      Raw.CoversAll.isPlaced rest others hs.drop⟩

end

end Covers

namespace Raw

section

variable {source : List Char}

mutual

/-- Condensing moves nothing. -/
theorem isPlaced_condense (r : Raw) (h : r.IsPlaced source) : r.condense.IsPlaced source := by
  match r with
  | .text .. => exact h
  | .comment .. => exact h
  | .interpolation .. => exact h
  | .element _ _ _ _ children =>
    exact ⟨h.1, h.2.1, isPlacedAll_condenseAll none children h.2.2⟩

/-- Nor does it move siblings. -/
theorem isPlacedAll_condenseAll (before : Option Raw) (rs : List Raw)
    (h : IsPlacedAll source rs) : IsPlacedAll source (condenseAll before rs) := by
  match rs with
  | [] => trivial
  | .text value start :: rest =>
    have hrest := isPlacedAll_condenseAll (some (.text value start)) rest h.2
    rw [condenseAll]
    split
    · exact ⟨h.1, hrest⟩
    · exact hrest
  | .comment value start :: rest =>
    exact ⟨h.1, isPlacedAll_condenseAll (some (.comment value start)) rest h.2⟩
  | .interpolation code start :: rest =>
    exact ⟨h.1, isPlacedAll_condenseAll (some (.interpolation code start)) rest h.2⟩
  | .element tag attributes selfClosing start children :: rest =>
    exact ⟨isPlaced_condense (.element tag attributes selfClosing start children) h.1,
      isPlacedAll_condenseAll (some (.element tag attributes selfClosing start children)) rest h.2⟩

end

/-- The nodes of a template stand where they say, also without superfluous blanks. -/
theorem isPlacedAll_of_read {rs : List Raw} (h : read source = .ok rs) (whitespace : Whitespace) :
    IsPlacedAll source (whitespace.kept rs) := by
  have hall := CoversAll.isPlaced rs (read_covers h) ⟨[], [], (List.append_nil _).symm, rfl⟩
  cases whitespace with
  | preserve => exact hall
  | condense => exact isPlacedAll_condenseAll none rs hall

end

end Raw

/-! ## Loop heads -/

/-- The second place is at or behind the first. -/
def Place.Leads (p q : Place) : Prop :=
  ∃ taken, p.Reaches taken q

namespace Place.Leads

variable {p q r : Place}

theorem refl (p : Place) : p.Leads p :=
  ⟨[], rfl, rfl⟩

theorem trans (h : p.Leads q) (h' : q.Leads r) : p.Leads r := by
  obtain ⟨taken, h⟩ := h
  obtain ⟨more, h'⟩ := h'
  exact ⟨taken ++ more, h.trans h'⟩

theorem skip (n : Nat) (p : Place) : p.Leads (p.skip n) :=
  ⟨_, reaches_take n p⟩

theorem span (keep : Char → Bool) (p : Place) : p.Leads (p.span keep).2 :=
  ⟨_, reaches_span keep p⟩

theorem skipBlanks (p : Place) : p.Leads p.skipBlanks :=
  span Text.isBlank p

end Place.Leads

namespace LoopHead

variable {p q : Place}

/-- Reading a name leads on through the text. -/
theorem name?_leads {name : String} (h : name? p = some (name, q)) : p.Leads q := by
  unfold name? at h
  split at h
  · cases h
    exact .span isNamePart p
  · cases h

theorem names?_leads {item : String} {index : Option String}
    (h : names? p = some (item, index, q)) : p.Leads q := by
  simp only [names?, Option.bind_eq_bind, Option.bind_eq_some_iff] at h
  obtain ⟨⟨first, r⟩, hfirst, h⟩ := h
  have hitem := ((Place.Leads.skipBlanks p).trans (name?_leads hfirst)).trans (.skipBlanks r)
  dsimp only at h
  split at h
  · simp only [Option.bind_eq_some_iff] at h
    obtain ⟨⟨second, r'⟩, hsecond, h⟩ := h
    have hindex := ((hitem.trans (.skip 1 _)).trans (.skipBlanks _)).trans (name?_leads hsecond)
    dsimp only at h
    split at h
    · cases h
      exact (hindex.trans (.skipBlanks r')).trans (.skip 1 _)
    · cases h
  · split at h
    · cases h
      exact hitem.trans (.skip 1 _)
    · cases h

/-- So does reading blanks. -/
theorem blanks?_leads (h : blanks? p = some q) : p.Leads q := by
  unfold blanks? at h
  dsimp only at h
  split at h
  · cases h
    exact .skipBlanks p
  · cases h

theorem keyword?_leads (h : keyword? p = some q) : p.Leads q := by
  unfold keyword? at h
  split at h
  · cases h
    exact .skip 2 p
  · cases h

theorem lastInLine?_leads {cs : List Char} (h : lastInLine? p cs = some q) : p.Leads q := by
  induction cs generalizing p with
  | nil => cases h
  | cons c cs ih =>
    rw [lastInLine?] at h
    split at h
    · rename_i hlast
      cases h
      exact (Place.Leads.skip 1 p).trans (ih hlast)
    · split at h
      · cases h
      · cases h
        exact .refl _

/-- The text of the source stands at a later place. -/
theorem source?_leads {source : String} {start : Nat} (h : source? p = some (source, start)) :
    ∃ q, p.Leads q ∧ q.offset = start ∧ source.toList <+: q.rest := by
  simp only [source?, Option.bind_eq_bind, Option.bind_eq_some_iff] at h
  obtain ⟨q, hq, h⟩ := h
  have hblanks := blanks?_leads hq
  split at h
  · simp only [Option.bind_eq_some_iff] at h
    obtain ⟨r, hr, h⟩ := h
    cases h
    refine ⟨r, (Place.Leads.skip 1 p).trans (lastInLine?_leads hr), rfl, ?_⟩
    rw [String.toList_ofList]
    exact List.take_prefix 1 r.rest
  · split at h
    · cases h
    · cases h
      refine ⟨q, hblanks, rfl, ?_⟩
      rw [String.toList_ofList]
      exact Text.trimRight_prefix q.rest

/-- The text of what is iterated stands behind the names. -/
theorem stands_of_leads {text : List Char} {start : Nat} {item : String} {index : Option String}
    {head : LoopHead} (hp : Place.Leads ⟨start, text⟩ p)
    (h : (do
      let q ← blanks? p
      let q ← keyword? q
      let (source, sourceStart) ← source? q
      some ⟨item, index, source, sourceStart⟩) = some head) :
    ∃ i, head.sourceStart = start + i ∧ Stands text i head.source.toList := by
  simp only [Option.bind_eq_bind, Option.bind_eq_some_iff] at h
  obtain ⟨r, hr, s, hs, ⟨source, sourceStart⟩, hsource, h⟩ := h
  cases h
  obtain ⟨q, hq, hoffset, after, hafter⟩ := source?_leads hsource
  obtain ⟨taken, hreach⟩ := ((hp.trans (blanks?_leads hr)).trans (keyword?_leads hs)).trans hq
  refine ⟨Text.byteLength taken, ?_, taken, after, ?_, rfl⟩
  · rw [← hoffset, hreach.offset]
  · rw [List.append_assoc, hafter]
    exact hreach.rest

/-- The text of what is iterated stands in the value of the loop directive. -/
theorem read?_stands {value : String} {start : Nat} {head : LoopHead}
    (h : read? value start = some head) :
    ∃ i, head.sourceStart = start + i ∧ Stands value.toList i head.source.toList := by
  have hfirst := Place.Leads.skipBlanks ⟨start, value.toList⟩
  simp only [read?] at h
  split at h
  · obtain ⟨⟨item, index, r⟩, hnames, h⟩ := Option.bind_eq_some_iff.mp h
    exact stands_of_leads ((hfirst.trans (.skip 1 _)).trans (names?_leads hnames)) h
  · obtain ⟨⟨item, index, r⟩, hnames, h⟩ := Option.bind_eq_some_iff.mp h
    obtain ⟨⟨name, r'⟩, hname, heq⟩ := Option.map_eq_some_iff.mp hnames
    cases heq
    exact stands_of_leads (hfirst.trans (name?_leads hname)) h

end LoopHead

/-! ## Texts of expressions -/

/-- The text that an attribute may hold an expression in, with its place: the text of what is
iterated for a loop, and else the value. -/
def RawAttribute.expressionText? (a : RawAttribute) : Option (String × Nat) :=
  a.value.bind fun v =>
    if a.isLoop then (LoopHead.read? v a.valueStart).map fun head => (head.source, head.sourceStart)
    else some (v, a.valueStart)

/-- The text of an expression in an attribute stands where its place says. -/
theorem RawAttribute.IsPlaced.expressionText? {source : List Char} {a : RawAttribute}
    (h : a.IsPlaced source) : ∀ t ∈ a.expressionText?, Stands source t.2 t.1.toList := by
  intro t ht
  obtain ⟨v, hv, ht⟩ := Option.bind_eq_some_iff.mp ht
  have hvalue := h.value v hv
  split at ht
  · obtain ⟨head, hhead, rfl⟩ := Option.map_eq_some_iff.mp ht
    obtain ⟨i, hstart, hstands⟩ := LoopHead.read?_stands hhead
    rw [hstart]
    exact hvalue.inner hstands
  · cases ht
    exact hvalue

namespace Raw

mutual

/-- The texts of a node and those below it that expressions are read from, with their places. -/
def expressionTexts : Raw → List (String × Nat)
  | element _ attributes _ _ children =>
    attributes.filterMap RawAttribute.expressionText? ++ expressionTextsAll children
  | interpolation code start => [(code, start)]
  | _ => []

/-- The texts of siblings and the nodes below them that expressions are read from. -/
def expressionTextsAll : List Raw → List (String × Nat)
  | [] => []
  | r :: rest => r.expressionTexts ++ expressionTextsAll rest

end

section

variable {source : List Char}

mutual

/-- All texts of expressions stand where their places say. -/
theorem expressionTexts_stand (r : Raw) (h : r.IsPlaced source) :
    ∀ t ∈ r.expressionTexts, Stands source t.2 t.1.toList := by
  match r with
  | .text .. => exact fun t ht => absurd ht List.not_mem_nil
  | .comment .. => exact fun t ht => absurd ht List.not_mem_nil
  | .interpolation code start =>
    obtain ⟨before, after, hstart, hsource⟩ := h
    refine List.forall_mem_singleton.mpr ⟨_, "\x7d\x7d".toList ++ after, ?_, hstart⟩
    rw [hsource]
    simp only [List.append_assoc]
  | .element _ attributes _ _ children =>
    refine List.forall_mem_append.mpr ⟨fun t ht => ?_, expressionTextsAll_stand children h.2.2⟩
    obtain ⟨a, ha, ht⟩ := List.mem_filterMap.mp ht
    exact (h.2.1 a ha).expressionText? t ht

theorem expressionTextsAll_stand (rs : List Raw) (h : IsPlacedAll source rs) :
    ∀ t ∈ expressionTextsAll rs, Stands source t.2 t.1.toList := by
  match rs with
  | [] => exact fun t ht => absurd ht List.not_mem_nil
  | r :: rest =>
    exact List.forall_mem_append.mpr
      ⟨expressionTexts_stand r h.1, expressionTextsAll_stand rest h.2⟩

end

end

mutual

/-- Condensing leaves the texts of expressions. -/
theorem expressionTexts_condense (r : Raw) : r.condense.expressionTexts = r.expressionTexts := by
  match r with
  | .text .. => rfl
  | .comment .. => rfl
  | .interpolation .. => rfl
  | .element _ _ _ _ children =>
    rw [condense, expressionTexts, expressionTexts, expressionTextsAll_condenseAll none children]

theorem expressionTextsAll_condenseAll (before : Option Raw) (rs : List Raw) :
    expressionTextsAll (condenseAll before rs) = expressionTextsAll rs := by
  match rs with
  | [] => rfl
  | .text value start :: rest =>
    have hrest := expressionTextsAll_condenseAll (some (.text value start)) rest
    rw [condenseAll]
    split <;> exact hrest
  | .comment value start :: rest =>
    exact expressionTextsAll_condenseAll (some (.comment value start)) rest
  | .interpolation code start :: rest =>
    exact congrArg (List.cons _)
      (expressionTextsAll_condenseAll (some (.interpolation code start)) rest)
  | .element tag attributes selfClosing start children :: rest =>
    exact congrArg₂ List.append
      (expressionTexts_condense (.element tag attributes selfClosing start children))
      (expressionTextsAll_condenseAll (some (.element tag attributes selfClosing start children))
        rest)

end

/-- Superfluous blanks hold no expressions. -/
theorem expressionTextsAll_kept (whitespace : Whitespace) (rs : List Raw) :
    expressionTextsAll (whitespace.kept rs) = expressionTextsAll rs := by
  cases whitespace with
  | preserve => rfl
  | condense => exact expressionTextsAll_condenseAll none rs

end Raw

end UiTemplate
