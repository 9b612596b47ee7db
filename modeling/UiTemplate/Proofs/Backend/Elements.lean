import UiTemplate.Proofs.Backend.References

/-!
# Markup as trees

Markup is put together from texts. Here the texts are shown to be those of trees of markup, in which
every placeholder is one that the compiler made.

- `Emits`: a text is the one of siblings that can be read again and whose placeholders were made by
  the compiler, with one lemma for each way to put markup together.
- `Markup.IsMade`, `Markup.Waits`: the same for an attribute, and for attributes that wait for the
  node they govern.
- `Edge.FillAll`: what stands in the place of nodes. Neighbours stay apart.
-/

namespace UiTemplate

open Piece

/-! ## Trees of markup -/

/-- The node can be written and read again, and every placeholder in it is one that the compiler
made, if it stands where `v` is seen. -/
structure Raw.Sound (settings : MarkupSettings) (nodes : List Node) (v : View) (r : Raw) :
    Prop where
  proper : r.Proper
  wellFormed : ∀ p ∈ r.pieces, p.WellFormed
  writable : ∀ p ∈ r.pieces, p.Writable
  joined : r.Joined
  resolves : r.Resolves settings nodes v

/-- The markup is the text of such siblings. -/
structure Emits (settings : MarkupSettings) (nodes : List Node) (v : View) (markup : String)
    (rs : List Raw) : Prop where
  text : markup.toList = (Raw.piecesAll rs).flatMap Piece.print
  sound : ∀ r ∈ rs, r.Sound settings nodes v

namespace Raw

variable {rs : List Raw}

theorem properAll_iff : ProperAll rs ↔ ∀ r ∈ rs, r.Proper := by
  induction rs with
  | nil => simp [ProperAll]
  | cons r rs ih => rw [ProperAll, List.forall_mem_cons, ih]

theorem forall_piecesAll {P : Piece → Prop} :
    (∀ p ∈ piecesAll rs, P p) ↔ ∀ r ∈ rs, ∀ p ∈ r.pieces, P p := by
  induction rs with
  | nil => simp [piecesAll]
  | cons r rs ih => rw [piecesAll, List.forall_mem_append, List.forall_mem_cons, ih]

theorem joinedAll_of_isChain (h : ∀ r ∈ rs, r.Joined) (hedges : (rs.map edge).IsChain Edge.Joins) :
    JoinedAll rs := by
  induction rs with
  | nil => trivial
  | cons r rs ih =>
    rw [List.forall_mem_cons] at h
    rw [List.map_cons, List.isChain_cons, List.head?_map] at hedges
    refine ⟨h.1, fun s hs => hedges.1 s.edge ?_, ih h.2 hedges.2⟩
    exact Option.mem_map_of_mem edge hs

end Raw

/-- The name of a tag has no brace. -/
theorem IsTagName.brace_notMem {tag : String} (h : IsTagName tag) : '\x7b' ∉ tag.toList :=
  fun hm => absurd (h.2 _ hm) (by decide +kernel)

/-! ## Attributes -/

namespace Markup

variable {settings : MarkupSettings} {nodes : List Node} {tag : String} {outer inner : View}

/-- The attribute of markup can be written, and every placeholder in it is one that the compiler
made. -/
structure IsMade (settings : MarkupSettings) (nodes : List Node) (tag : String) (outer inner : View)
    (a : MarkupAttribute) : Prop where
  name : IsAttributeName a.1
  resolves : (written a).Resolves settings nodes tag outer inner

/-- An attribute that stands in markup as it stood in the template. -/
theorem IsMade.fixed {name : String} {value : Option String} (hname : IsAttributeName name)
    (hplain : placeholders name.toList = [])
    (hvalue : ∀ v ∈ value, placeholders v.toList = []) :
    IsMade settings nodes tag outer inner (name, value) := by
  refine ⟨hname, hplain, fun w hw body hbody => ?_⟩
  obtain ⟨v, hv, rfl⟩ := Option.map_eq_some_iff.mp hw
  rw [String.toList_ofList, placeholders_escaped, hvalue v hv] at hbody
  exact absurd hbody List.not_mem_nil

/-- An attribute with a placeholder that the compiler made. -/
theorem IsMade.placeholder {name body : String} (hname : IsAttributeName name)
    (hplain : placeholders name.toList = [])
    (hbody : Place.Delimits ['\x7d', '\x7d'] body.toList)
    (hmade : Made settings nodes tag name outer inner body) :
    IsMade settings nodes tag outer inner (name, some (placeholder body)) := by
  refine ⟨hname, hplain, fun w hw body' hbody' => ⟨body, ?_, hmade⟩⟩
  obtain rfl : String.ofList (escaped (Markup.placeholder body).toList) = w := Option.some.inj hw
  have hone : (Markup.placeholder body).toList =
      ['\x7b', '\x7b'] ++ body.toList ++ ['\x7d', '\x7d'] := by
    simp [Markup.placeholder]
  rw [String.toList_ofList, placeholders_escaped, hone, placeholders_braced hbody, List.map_cons,
    List.map_nil, List.mem_singleton] at hbody'
  exact hbody'

/-- Attributes of markup are those of a start tag that can be read. -/
theorem written_wellFormed {as : List MarkupAttribute} (h : ∀ a ∈ as, IsAttributeName a.1) :
    (∀ a ∈ as.map written, a.WellFormed) ∧
      (as.map written).Pairwise fun a b => a.start ≤ b.start := by
  refine ⟨List.forall_mem_map.mpr fun a ha => ⟨(h a ha).1, (h a ha).2⟩, ?_⟩
  exact List.pairwise_map.mpr (List.pairwise_of_forall fun _ _ => Nat.le_refl 0)

end Markup

/-! ## Markup put together -/

namespace Emits

open Markup

variable {settings : MarkupSettings} {nodes : List Node} {v inner : View} {markup markup' : String}
  {rs rs' : List Raw} {tag content : String} {as : List MarkupAttribute}

theorem nil : Emits settings nodes v "" [] :=
  ⟨rfl, fun _ hr => absurd hr List.not_mem_nil⟩

theorem append (h : Emits settings nodes v markup rs) (h' : Emits settings nodes v markup' rs') :
    Emits settings nodes v (markup ++ markup') (rs ++ rs') := by
  refine ⟨?_, List.forall_mem_append.mpr ⟨h.sound, h'.sound⟩⟩
  rw [String.toList_append, Raw.piecesAll_append, List.flatMap_append, h.text, h'.text]

theorem single {r : Raw} (htext : markup.toList = r.pieces.flatMap Piece.print)
    (h : r.Sound settings nodes v) : Emits settings nodes v markup [r] := by
  refine ⟨?_, List.forall_mem_singleton.mpr h⟩
  rw [Raw.piecesAll, Raw.piecesAll, List.append_nil, htext]

theorem text_ofSpan (hne : markup.toList ≠ []) (h : spanText markup.toList = (markup.toList, [])) :
    Emits settings nodes v markup [.text markup 0] := by
  refine single (by simp [Raw.pieces, Piece.print]) ⟨trivial, ?_, ?_, trivial, ?_⟩
  · exact List.forall_mem_singleton.mpr ⟨hne, h⟩
  · exact List.forall_mem_singleton.mpr trivial
  · exact placeholders_of_span h

theorem interpolation {source : String} {t : Thunk} (h : v.Refers source t)
    (hsource : Place.Delimits ['\x7d', '\x7d'] source.toList) :
    Emits settings nodes v (placeholder source) [.interpolation source 0] := by
  refine single (by simp [Raw.pieces, Piece.print, placeholder]) ⟨trivial, ?_, ?_, trivial, t, h⟩
  · exact List.forall_mem_singleton.mpr trivial
  · exact List.forall_mem_singleton.mpr hsource

theorem comment {value : String} (h : Place.Delimits ['-', '-', '>'] value.toList) :
    Emits settings nodes v ("<!--" ++ value ++ "-->") [.comment value 0] := by
  refine single (by simp [Raw.pieces, Piece.print]) ⟨trivial, ?_, ?_, trivial, trivial⟩
  · exact List.forall_mem_singleton.mpr h
  · exact List.forall_mem_singleton.mpr trivial

section Tags

variable (htag : IsTagName tag) (has : ∀ a ∈ as, IsMade settings nodes tag v inner a)
  (henters : Enters settings.dialect (as.map written) v inner)

include htag has henters

/-- An element that closes itself. -/
theorem closed : Emits settings nodes v ("<" ++ tag ++ attributesText as ++ "/>")
    [.element tag (as.map written) true 0 []] := by
  refine single ?_ ⟨⟨fun _ => rfl, trivial⟩, ?_, ?_, trivial, ?_⟩
  · simp [Raw.pieces, Piece.print, attributesText_written, tagEnd]
  · obtain ⟨hwf, hordered⟩ := written_wellFormed fun a ha => (has a ha).name
    exact List.forall_mem_singleton.mpr ⟨htag, hwf, hordered, fun h => (nomatch h)⟩
  · exact List.forall_mem_singleton.mpr (List.forall_mem_map.mpr fun a _ => written_quotable a)
  · refine ⟨placeholders_eq_nil htag.brace_notMem, inner, henters, ?_, trivial⟩
    exact List.forall_mem_map.mpr fun a ha => (has a ha).resolves

/-- An element with what is inside it. -/
theorem element (hvoid : tag ∉ voidTags) (hcontent : Emits settings nodes inner content rs)
    (hedges : (rs.map Raw.edge).IsChain Edge.Joins) :
    Emits settings nodes v
      ("<" ++ tag ++ attributesText as ++ ">" ++ content ++ "</" ++ tag ++ ">")
      [.element tag (as.map written) false 0 rs] := by
  refine single ?_ ⟨⟨fun h => (nomatch h), ?_⟩, ?_, ?_, ?_, ?_⟩
  · simp [Raw.pieces, Piece.print, attributesText_written, tagEnd, hcontent.text]
  · exact Raw.properAll_iff.mpr fun r hr => (hcontent.sound r hr).proper
  · obtain ⟨hwf, hordered⟩ := written_wellFormed fun a ha => (has a ha).name
    refine List.forall_mem_cons.mpr ⟨⟨htag, hwf, hordered, fun _ => hvoid⟩, ?_⟩
    refine List.forall_mem_append.mpr ⟨?_, List.forall_mem_singleton.mpr htag⟩
    exact Raw.forall_piecesAll.mpr fun r hr => (hcontent.sound r hr).wellFormed
  · refine List.forall_mem_cons.mpr ⟨List.forall_mem_map.mpr fun a _ => written_quotable a, ?_⟩
    refine List.forall_mem_append.mpr ⟨?_, List.forall_mem_singleton.mpr trivial⟩
    exact Raw.forall_piecesAll.mpr fun r hr => (hcontent.sound r hr).writable
  · exact Raw.joinedAll_of_isChain (fun r hr => (hcontent.sound r hr).joined) hedges
  · refine ⟨placeholders_eq_nil htag.brace_notMem, inner, henters, ?_, ?_⟩
    · exact List.forall_mem_map.mpr fun a ha => (has a ha).resolves
    · exact Raw.resolveAll_iff.mpr fun r hr => (hcontent.sound r hr).resolves

end Tags

/-- A block with what is inside it. -/
theorem block (has : ∀ a ∈ as, IsMade settings nodes "block" v inner a)
    (henters : Enters settings.dialect (as.map written) v inner)
    (hcontent : Emits settings nodes inner content rs)
    (hedges : (rs.map Raw.edge).IsChain Edge.Joins) :
    Emits settings nodes v ("<block" ++ attributesText as ++ ">" ++ content ++ "</block>")
      [.element "block" (as.map written) false 0 rs] := by
  have htag : IsTagName "block" := by decide +kernel
  have heq : "<block" ++ attributesText as ++ ">" ++ content ++ "</block>" =
      "<" ++ "block" ++ attributesText as ++ ">" ++ content ++ "</" ++ "block" ++ ">" := by
    simp [← String.toList_inj]
  rw [heq]
  exact element htag has henters (by decide) hcontent hedges

/-- A slot. -/
theorem slot (has : ∀ a ∈ as, IsMade settings nodes "slot" v inner a)
    (henters : Enters settings.dialect (as.map written) v inner) :
    Emits settings nodes v ("<slot" ++ attributesText as ++ "/>")
      [.element "slot" (as.map written) true 0 []] := by
  have htag : IsTagName "slot" := by decide +kernel
  have heq : "<slot" ++ attributesText as ++ "/>" =
      "<" ++ "slot" ++ attributesText as ++ "/>" := by
    simp
  rw [heq]
  exact closed htag has henters

/-- The markup is read again, as siblings in which every placeholder is one that the compiler
made. -/
theorem read (h : Emits settings nodes v markup rs)
    (hedges : (rs.map Raw.edge).IsChain Edge.Joins) :
    ∃ rs', Raw.read markup.toList = .ok rs' ∧ Raw.ResolveAll settings nodes v rs' := by
  obtain ⟨rs', hread, hun⟩ := Raw.read_print
    (Raw.properAll_iff.mpr fun r hr => (h.sound r hr).proper)
    (Raw.forall_piecesAll.mpr fun r hr => (h.sound r hr).wellFormed)
    (Raw.forall_piecesAll.mpr fun r hr => (h.sound r hr).writable)
    (Raw.joinedAll_of_isChain (fun r hr => (h.sound r hr).joined) hedges)
  refine ⟨rs', by rw [h.text, hread], ?_⟩
  have hall : Raw.ResolveAll settings nodes v rs :=
    Raw.resolveAll_iff.mpr fun r hr => (h.sound r hr).resolves
  rwa [← Raw.resolveAll_unlocated v rs', hun, Raw.resolveAll_unlocated v rs]

end Emits

/-! ## Attributes that wait -/

namespace Markup

variable {settings : MarkupSettings} {nodes : List Node} {outer inner : View}
  {pending : List MarkupAttribute}

/-- The attributes wait for a node which they lead into, wherever they will stand. -/
structure Waits (settings : MarkupSettings) (nodes : List Node) (pending : List MarkupAttribute)
    (outer inner : View) : Prop where
  enters : Enters settings.dialect (pending.map written) outer inner
  made : ∀ a ∈ pending, ∀ tag, IsMade settings nodes tag outer inner a

/-- No attribute that the compiler makes for what is inside an element repeats the element: the list
that a loop runs over is a placeholder of nothing else. -/
theorem not_repeats_of_isMade {v : View} (hv : v.IsBare) {tag : String} {own : List MarkupAttribute}
    (hown : ∀ a ∈ own, IsMade settings nodes tag ⟨[], []⟩ v a) :
    ¬Repeats settings.dialect (own.map written) v := by
  rintro ⟨key, source, item, index, depth, record, hkey, a, ha, hname, hvalue⟩
  obtain ⟨a, hmem, rfl⟩ := List.mem_map.mp ha
  have hbare := hv.reference hkey
  have hbody : (reference v.way (some key)).toList ∈
      placeholders (placeholder (reference v.way (some key))).toList := by
    have hone : (placeholder (reference v.way (some key))).toList =
        ['\x7b', '\x7b'] ++ (reference v.way (some key)).toList ++ ['\x7d', '\x7d'] := by
      simp [placeholder]
    rw [hone, placeholders_braced (Place.delimits_braces (hbare.notMem (by decide)))]
    exact List.mem_cons_self
  obtain ⟨made, hmade, hmakes⟩ := (hown a hmem).resolves.2 _ hvalue _ hbody
  rw [hname] at hmakes
  cases hmakes with
  | reference href hplain =>
    obtain ⟨key', rfl, hkey'⟩ := href
    have hsame : reference v.way (some key) = reference v.way (some key') := by
      refine String.toList_inj.mp (hmade.trans ?_)
      exact escaped_of_notMem ((hv.reference hkey').notMem (by decide))
    obtain rfl := reference_injective hsame
    obtain rfl := Option.some.inj (hkey.symm.trans hkey')
    cases hplain
  | source _ href =>
    obtain ⟨_, -, hnone⟩ := href
    cases hnone
  | props hprops => exact absurd hprops (by cases settings.dialect <;> decide)
  | presence hif => exact absurd hif (by cases settings.dialect <;> decide)
  | content hcontent => exact absurd hcontent (by cases settings.dialect <;> decide)

theorem Waits.nil (v : View) : Waits settings nodes [] v v := by
  refine ⟨.stays ?_, fun _ ha => absurd ha List.not_mem_nil⟩
  rintro ⟨_, _, _, _, _, _, -, a, ha, -⟩
  exact absurd ha List.not_mem_nil

/-- Where nothing waits, nothing is entered. -/
theorem Waits.eq_of_nil (h : Waits settings nodes [] outer inner) : inner = outer := by
  have hno {name : String} {value : Option String}
      (h : Carries (([] : List MarkupAttribute).map written) name value) : False := by
    obtain ⟨a, ha, -⟩ := h
    exact absurd ha List.not_mem_nil
  cases h.enters with
  | stays => rfl
  | branch _ _ _ htest => exact (hno htest).elim
  | otherwise _ _ helse => exact (hno helse).elim
  | loop _ hfor _ => exact (hno hfor).elim

/-- The attributes lead into the node that carries them, whatever else it carries. -/
theorem Waits.enters_append (h : Waits settings nodes pending outer inner) (hinner : inner.IsBare)
    {tag : String} {own : List MarkupAttribute}
    (hown : ∀ a ∈ own, IsMade settings nodes tag ⟨[], []⟩ inner a) :
    Enters settings.dialect ((pending ++ own).map written) outer inner := by
  rw [List.map_append]
  refine h.enters.mono (fun a ha => ⟨a, List.mem_append_left _ ha, rfl, rfl⟩) ?_
  rintro rfl ⟨key, source, item, index, depth, record, hkey, a, ha, hfor⟩
  rcases List.mem_append.mp ha with ha | ha
  · exact ⟨key, source, item, index, depth, record, hkey, a, ha, hfor⟩
  · refine absurd ?_ (not_repeats_of_isMade hinner hown)
    exact ⟨key, source, item, index, depth, record, hkey, a, ha, hfor⟩

/-- Siblings inside a block that carries attributes, if there are any. -/
def wrapped (pending : List MarkupAttribute) (rs : List Raw) : List Raw :=
  if pending.isEmpty then rs else [.element "block" (pending.map written) false 0 rs]

/-- Markup inside a block that carries what waits. -/
theorem Waits.wrap (h : Waits settings nodes pending outer inner) {markup : String}
    {rs : List Raw} (hmarkup : Emits settings nodes inner markup rs)
    (hedges : (rs.map Raw.edge).IsChain Edge.Joins) :
    Emits settings nodes outer (Markup.wrap pending markup) (wrapped pending rs) := by
  cases pending with
  | nil => exact h.eq_of_nil ▸ hmarkup
  | cons a rest =>
    exact .block (fun a ha => h.made a ha "block") h.enters hmarkup hedges

end Markup

/-! ## What stands in the place of nodes -/

namespace Edge

/-- What stands in the place of a node: a node with the same edge, or elements. -/
def Fills (e : Edge) (fs : List Edge) : Prop :=
  fs = [e] ∨ fs ≠ [] ∧ ∀ f ∈ fs, f = .closed

/-- What stands in the places of siblings. -/
inductive FillAll : List Edge → List Edge → Prop
  | nil : FillAll [] []
  | cons {e : Edge} {fs es gs : List Edge} (h : e.Fills fs) (hs : FillAll es gs) :
      FillAll (e :: es) (fs ++ gs)

theorem Fills.closed {fs : List Edge} (h : closed.Fills fs) : fs ≠ [] ∧ ∀ f ∈ fs, f = closed := by
  rcases h with rfl | h
  · exact ⟨by simp, List.forall_mem_singleton.mpr rfl⟩
  · exact h

theorem isChain_closed {fs : List Edge} (h : ∀ f ∈ fs, f = closed) : fs.IsChain Joins := by
  induction fs with
  | nil => exact .nil
  | cons f fs ih =>
    rw [List.forall_mem_cons] at h
    rw [h.1, List.isChain_cons]
    exact ⟨fun _ _ => closed_joins, ih h.2⟩

/-- Siblings stay apart behind elements. -/
theorem isChain_closed_append {fs gs : List Edge} (e : Edge) (hne : fs ≠ [])
    (h : ∀ f ∈ fs, f = closed) (hs : (closed :: gs).IsChain Joins) :
    (e :: (fs ++ gs)).IsChain Joins := by
  induction fs generalizing e with
  | nil => exact absurd rfl hne
  | cons f fs ih =>
    obtain ⟨rfl, hfs⟩ := List.forall_mem_cons.mp h
    rw [List.cons_append, List.isChain_cons_cons]
    refine ⟨joins_closed, ?_⟩
    cases fs with
    | nil => exact hs
    | cons g fs => exact ih closed (List.cons_ne_nil _ _) hfs

/-- Siblings stay apart if others stand in their places. -/
theorem FillAll.isChain {es fs : List Edge} (h : FillAll es fs) (hes : es.IsChain Joins) :
    fs.IsChain Joins := by
  -- The edge before the siblings makes the claim strong enough for the induction.
  suffices hall : ∀ e : Edge, (e :: es).IsChain Joins → (e :: fs).IsChain Joins from
    (hall closed (List.isChain_cons.mpr ⟨fun _ _ => closed_joins, hes⟩)).tail
  clear hes
  induction h with
  | nil => exact fun e he => he
  | @cons f fs es gs hf hs ih =>
    intro e he
    rw [List.isChain_cons_cons] at he
    rcases hf with rfl | ⟨hne, hclosed⟩
    · exact List.isChain_cons_cons.mpr ⟨he.1, ih f he.2⟩
    · refine isChain_closed_append e hne hclosed (ih closed ?_)
      exact List.isChain_cons.mpr ⟨fun _ _ => closed_joins, he.2.tail⟩

/-- The edge of a node for which attributes wait, which may be put inside a block. -/
def behind (pending : List MarkupAttribute) (e : Edge) : Edge :=
  if pending.isEmpty then e else .closed

/-- Something that is no text stands in the place of a node that is none, whatever waits for it. -/
theorem fills_behind {pending : List MarkupAttribute} {r : Raw} (h : r.edge = .closed) :
    (behind pending .closed).Fills ([r].map Raw.edge) := by
  refine .inl ?_
  rw [behind, ite_self, List.map_singleton, h]

theorem fills_wrapped {pending : List MarkupAttribute} {e : Edge} {rs : List Raw}
    (h : e.Fills (rs.map Raw.edge)) :
    (behind pending e).Fills ((Markup.wrapped pending rs).map Raw.edge) := by
  cases pending with
  | nil => exact h
  | cons a rest => exact .inl rfl

end Edge

end UiTemplate
