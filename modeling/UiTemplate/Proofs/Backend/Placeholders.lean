import UiTemplate.Proofs.Backend.Elements
import UiTemplate.Proofs.Backend.Taken
import UiTemplate.Proofs.Compile.Given
import UiTemplate.Proofs.Script.Words

/-!
# Nodes become markup with placeholders of the compiler

- `Markup.Prepared`: what is known of a node of a tree that was read and annotated.
- `Markup.emit_emits`: the markup of such a node is the text of siblings in which every placeholder
  is one that the compiler made.
- `Markup.generate_emits`: the same for a template.
-/

namespace UiTemplate

open Piece

/-- A handler that is a name is made of characters of names. -/
def Node.NamesHandlers : Node → Prop
  | .element info _ => ∀ b ∈ bindings info.directives, ∀ handler,
    b.expression.tree = .ident handler → Script.IsWord handler
  | _ => True

theorem BindingContext.Finds.get? {c : BindingContext} {record : Record} {p : Part}
    (h : c.Finds record p) (hl : c.localKeys = true) :
    ∃ key, p.1 = some key ∧ record.get? key = some p.2 := by
  obtain ⟨key, hkey, ht⟩ := h
  rw [BindingContext.lookup, if_pos hl] at ht
  exact ⟨key, hkey, ht⟩

theorem mem_directiveParts {directives : List Directive} {b : Binding}
    (hb : b ∈ bindings directives) (hkind : b.kind ≠ .event) :
    (b.key, .field b.expression) ∈ directiveParts directives := by
  obtain ⟨d, hd, hbinding⟩ := List.mem_filterMap.mp hb
  cases d with
  | binding b' =>
    cases hbinding
    exact List.mem_filterMap.mpr ⟨_, hd, by rw [Directive.part?, if_neg hkind]⟩
  | structural s l => cases hbinding
  | unsupported name value l => cases hbinding

namespace Markup

/-- What is known of a node of a tree that was read and annotated. -/
structure Prepared (settings : MarkupSettings) (nodes : List Node) (n : Node) : Prop where
  mem : n ∈ Node.withinAll nodes
  written : n.Written
  single : n.IsSingle
  annotated : n.IsAnnotated Family.markup.capabilities
  governs : n.Governs
  braceFree : n.BraceFree settings.dialect
  handlers : n.NamesHandlers

/-- A step is run where `v` is seen. -/
structure At (s : MarkupState) (v : View) : Prop where
  scope : s.scope = v.way
  bare : v.IsBare

variable {settings : MarkupSettings} {nodes : List Node} {c : BindingContext}

/-! ## Attributes -/

section Attributes

variable {tag : String} {outer v : View} {key : Key} {t : Thunk}

/-- Braces do not stand in the names of directives. -/
theorem placeholders_directive (d : Dialect) {name : String} (h : '\x7b' ∉ name.toList) :
    placeholders (d.directive name).toList = [] := by
  refine placeholders_eq_nil fun hm => ?_
  cases d with
  | weixin => exact h (by simpa [Dialect.directive] using hm)
  | alipay => exact h (by simpa [Dialect.directive] using hm)

/-- An attribute of a directive, with a placeholder. -/
theorem isMade_directive {name body : String} (hname : IsAttributeName name)
    (hplain : '\x7b' ∉ name.toList) (hbody : Place.Delimits ['\x7d', '\x7d'] body.toList)
    (hmade : Made settings nodes tag (settings.dialect.directive name) outer v body) :
    IsMade settings nodes tag outer v
      (settings.dialect.directive name, some (placeholder body)) :=
  .placeholder (settings.dialect.isAttributeName_directive hname)
    (placeholders_directive settings.dialect hplain) hbody hmade

/-- An attribute of a directive, without a placeholder. -/
theorem isMade_directive_fixed {name : String} {value : Option String} (hname : IsAttributeName name)
    (hplain : '\x7b' ∉ name.toList) (hvalue : ∀ w ∈ value, '\x7b' ∉ w.toList) :
    IsMade settings nodes tag outer v (settings.dialect.directive name, value) :=
  .fixed (settings.dialect.isAttributeName_directive hname)
    (placeholders_directive settings.dialect hplain)
    fun w hw => placeholders_eq_nil (hvalue w hw)

theorem isMade_reference {name : String} (hname : IsAttributeName name)
    (hplain : placeholders name.toList = []) (hv : v.IsBare) (ht : v.record.get? key = some t)
    (hloop : t.isLoop = false) :
    IsMade settings nodes tag outer v
      (name, some (placeholder (reference v.way (some key)))) :=
  .placeholder hname hplain (Place.delimits_braces ((hv.reference ht).notMem (by decide)))
    (.reference ⟨key, rfl, ht⟩ hloop)

/-- A value that is carried with a placeholder whose body has no quotes. -/
theorem carries_placeholder {as : List MarkupAttribute} {name body : String}
    (hmem : (name, some (placeholder body)) ∈ as) (hbody : Bare body.toList) :
    Carries (as.map written) name (some (placeholder body)) := by
  refine ⟨_, List.mem_map_of_mem hmem, rfl, ?_⟩
  have hquote : '"' ∉ (placeholder body).toList := by
    simpa [placeholder] using hbody.notMem (by decide)
  show some (String.ofList (escaped (placeholder body).toList)) = _
  rw [escaped_of_notMem hquote, String.ofList_toList]

end Attributes

/-! ## Elements -/

section Elements

variable {outer v : View} {path : Path}

theorem boundAttribute_isMade {tag : String} {owner : Bool} {b : Binding} {a : MarkupAttribute}
    {directives : List Directive} (hb : b ∈ bindings directives)
    (hname : IsAttributeName b.name)
    (hplain : placeholders (settings.dialect.boundName b).toList = [])
    (hhandler : ∀ handler, b.expression.tree = .ident handler → Script.IsWord handler)
    (hl : c.localKeys = true) (hback : ∀ p ∈ directiveParts directives, c.Finds v.record p)
    (hv : v.IsBare) (h : boundAttribute settings v.way path owner b = .ok (some a)) :
    IsMade settings nodes tag outer v a := by
  unfold boundAttribute at h
  cases hkind : b.kind with
  | prop =>
    rw [hkind] at h
    rw [Dialect.boundName, hkind, if_neg (by decide)] at hplain
    obtain ⟨key, hkey, ht⟩ := (hback _ (mem_directiveParts hb (by rw [hkind]; decide))).get? hl
    dsimp only at h hkey ht
    split at h
    · cases h
    · cases h
      rw [hkey]
      exact isMade_reference hname hplain hv ht rfl
  | event =>
    rw [hkind] at h
    rw [Dialect.boundName, if_pos hkind] at hplain
    dsimp only at h
    split at h
    · rename_i handler htree
      cases h
      refine .fixed (settings.dialect.isAttributeName_event hname) hplain ?_
      rintro w ⟨⟩
      refine placeholders_eq_nil fun hm => ?_
      exact absurd (hhandler handler htree _ hm) (by decide +kernel)
    · cases h
  | html =>
    rw [hkind] at h
    cases h

theorem contentAttribute_isMade {info : ElementInfo} {children : List Node}
    (hm : Node.element info children ∈ Node.withinAll nodes)
    (hdefault : '\x7d' ∉ settings.defaultOutlet.toList) :
    ∀ a ∈ contentAttribute settings info children,
      IsMade settings nodes (tagOf info) outer v a := by
  intro a ha
  unfold contentAttribute at ha
  split at ha
  · rename_i hc
    simp only [Bool.and_eq_true, beq_iff_eq, Bool.not_eq_true', List.isEmpty_eq_false_iff] at hc
    obtain rfl := List.mem_singleton.mp ha
    have htag : info.tag = tagOf info := by
      simp [tagOf, hc.1]
    refine .placeholder (by decide +kernel) (placeholders_eq_nil (by decide)) ?_
      (.content rfl hm hc.1 hc.2 htag)
    refine Place.delimits_braces ?_
    simpa using hdefault
  · exact absurd ha List.not_mem_nil

/-- The attributes of an element itself were made by the compiler or hold no placeholder. -/
theorem ownAttributes_isMade {info : ElementInfo} {children : List Node} {s : MarkupState}
    {own : List MarkupAttribute} (hn : Prepared settings nodes (.element info children))
    (hdefault : '\x7d' ∉ settings.defaultOutlet.toList) (hl : c.localKeys = true)
    (hback : ∀ p ∈ directiveParts info.directives, c.Finds v.record p) (hat : At s v)
    (hown : elementAttributes settings s.scope path s.loopOwner info = .ok own) :
    ∀ a ∈ own ++ contentAttribute settings info children,
      IsMade settings nodes (tagOf info) outer v a := by
  refine List.forall_mem_append.mpr ⟨fun a ha => ?_, contentAttribute_isMade hn.mem hdefault⟩
  rw [hat.scope] at hown
  rcases elementAttributes_eq_ok hown a ha with ⟨x, hx, rfl⟩ | ⟨b, hb, hbound⟩
  · obtain ⟨hplain, hvalue⟩ := hn.braceFree.1 x hx
    exact .fixed (hn.written.attributes x hx) hplain hvalue
  · exact boundAttribute_isMade hb (hn.written.bindings b hb) (hn.braceFree.2 b hb)
      (hn.handlers b hb) hl hback hat.bare hbound

theorem isTagName_tagOf {info : ElementInfo} (h : IsTagName info.tag) : IsTagName (tagOf info) := by
  unfold tagOf
  split
  · decide +kernel
  · exact h

theorem tagOf_notMem_voidTags {info : ElementInfo} (h : info.tag ∉ voidTags) :
    tagOf info ∉ voidTags := by
  unfold tagOf
  split
  · decide
  · exact h

/-- Children are emitted, where `v` is seen, as siblings of which every placeholder was made by the
compiler. -/
abbrev EmitsAll (settings : MarkupSettings) (nodes : List Node) (v : View) (ns : List Node)
    (step : EmitMarkup (List String)) : Prop :=
  ∀ s s' content, s.Settled → At s v → step.run s = (.ok content, s') →
    ∃ rs, Emits settings nodes v (String.join content) rs ∧
      Edge.FillAll (ns.map Node.edge) (rs.map Raw.edge)

/-- A node is emitted as siblings of which every placeholder was made by the compiler. -/
abbrev EmitsNode (settings : MarkupSettings) (nodes : List Node) (v : View) (n : Node)
    (step : EmitMarkup String) : Prop :=
  ∀ s s' markup outer, Fits n s → At s v → Waits settings nodes s.pending outer v →
    step.run s = (.ok markup, s') →
    ∃ rs, Emits settings nodes outer markup rs ∧
      (Edge.behind s.pending n.edge).Fills (rs.map Raw.edge)

theorem elementMarkup_emits {info : ElementInfo} {children : List Node}
    {emitChildren : EmitMarkup (List String)}
    (hn : Prepared settings nodes (.element info children))
    (hdefault : '\x7d' ∉ settings.defaultOutlet.toList) (hl : c.localKeys = true)
    (hback : ∀ p ∈ directiveParts info.directives, c.Finds v.record p)
    (hchildren : EmitsAll settings nodes v children emitChildren) :
    EmitsNode settings nodes v (.element info children)
      (elementMarkup settings path info children emitChildren) := by
  intro s s' markup outer _ hat hwaits h
  obtain ⟨own, hown, h⟩ := elementMarkup_eq_ok h
  have has : ∀ a ∈ allAttributes settings s.pending own info children,
      IsMade settings nodes (tagOf info) outer v a := by
    rw [allAttributes, List.append_assoc]
    refine List.forall_mem_append.mpr ⟨fun a ha => hwaits.made a ha (tagOf info), ?_⟩
    exact ownAttributes_isMade hn hdefault hl hback hat hown
  have henters : Enters settings.dialect
      ((allAttributes settings s.pending own info children).map written) outer v := by
    rw [allAttributes, List.append_assoc]
    exact hwaits.enters_append hat.bare (ownAttributes_isMade hn hdefault hl hback hat hown)
  have htag := isTagName_tagOf hn.written.tag
  split at h
  · subst h
    exact ⟨_, .closed htag has henters, Edge.fills_behind rfl⟩
  · rename_i hopen
    obtain ⟨content, hrun, rfl⟩ := h
    have hself : info.selfClosing = false := by
      by_contra hself
      rw [Bool.not_eq_false] at hself
      simp [hn.written.closed hself, hself] at hopen
    obtain ⟨rs, hcontent, hfill⟩ := hchildren { s with pending := [], loopOwner := false } s' content
      ⟨rfl, rfl⟩ ⟨hat.scope, hat.bare⟩ hrun
    have hvoid := tagOf_notMem_voidTags (hn.written.void hself)
    exact ⟨_, .element htag has henters hvoid hcontent (hfill.isChain hn.written.joined),
      Edge.fills_behind rfl⟩

end Elements

/-! ## Slots -/

section Slots

variable {outer v : View} {path : Path} {tag : String} {info : SlotInfo} {fallback : List Node}
  {r : Resolution}

/-- The name of an outlet is not what a loop runs over. -/
theorem isLoop_of_identity? {t : Thunk} (h : info.identity? .markup = some t) :
    t.isLoop = false := by
  unfold SlotInfo.identity? at h
  split at h
  · split at h
    · split at h
      · cases h
        rfl
      · cases h
    · cases h
      split <;> rfl
  · cases h

theorem slot_name_found (hgiven : info.keys.IsGiven .markup info) (hl : c.localKeys = true)
    (hback : ∀ p ∈ info.parts .markup, c.Finds v.record p) {key : Key}
    (hkey : info.keys.name = some key) : ∃ t, v.record.get? key = some t ∧ t.isLoop = false := by
  have hsome := hgiven.name
  rw [hkey, Option.isSome_some, eq_comm, Option.isSome_iff_exists] at hsome
  obtain ⟨t, ht⟩ := hsome
  have hpart : (info.keys.name, t) ∈ info.parts .markup := by
    simp [SlotInfo.parts, ht]
  obtain ⟨key', hkey', hfound⟩ := (hback _ hpart).get? hl
  obtain rfl := Option.some.inj (hkey.symm.trans hkey')
  exact ⟨t, hfound, isLoop_of_identity? ht⟩

theorem slot_outlet_found (hgiven : info.keys.IsGiven .markup info) (hl : c.localKeys = true)
    (hback : ∀ p ∈ info.parts .markup, c.Finds v.record p) {key : Key}
    (hkey : info.keys.outlet = some key) : ∃ call, v.record.get? key = some (.outlet call) := by
  have hsome := hgiven.outlet
  rw [hkey, Option.isSome_some, eq_comm, Option.isSome_iff_exists] at hsome
  obtain ⟨t, ht⟩ := hsome
  have hpart : (info.keys.outlet, t) ∈ info.parts .markup := by
    simp [SlotInfo.parts, ht]
  obtain ⟨key', hkey', hfound⟩ := (hback _ hpart).get? hl
  obtain rfl := Option.some.inj (hkey.symm.trans hkey')
  unfold SlotInfo.outlet? at ht
  split at ht
  · split at ht
    · cases ht
      exact ⟨_, hfound⟩
    · cases ht
  · cases ht

/-- A name that is computed is bound. -/
theorem slot_name_bound (hgiven : info.keys.IsGiven .markup info) (hr : info.resolution = some r)
    (hkey : info.keys.name = none) : ∃ name, r.base = .fixed name := by
  have hnone := hgiven.name
  cases hbase : r.base with
  | fixed name => exact ⟨name, rfl⟩
  | computed e => simp [hkey, SlotInfo.identity?, hr, hbase] at hnone

theorem slotAttributes_isMade (hn : Prepared settings nodes (.slot info fallback))
    (hr : info.resolution = some r) (hl : c.localKeys = true)
    (hback : ∀ p ∈ info.parts .markup, c.Finds v.record p) (hv : v.IsBare) :
    ∀ a ∈ slotAttributes settings v.way info r.base, IsMade settings nodes tag outer v a := by
  have hgiven : info.keys.IsGiven .markup info := hn.annotated.1
  have hname : IsAttributeName "name" := by decide +kernel
  have hprops : IsAttributeName "props" := by decide +kernel
  refine List.forall_mem_append.mpr ⟨?_, ?_⟩
  · cases hkey : info.keys.name with
    | some key =>
      obtain ⟨t, ht, hloop⟩ := slot_name_found hgiven hl hback hkey
      exact List.forall_mem_singleton.mpr
        (isMade_reference hname (placeholders_eq_nil (by decide)) hv ht hloop)
    | none =>
      obtain ⟨name, hbase⟩ := slot_name_bound hgiven hr hkey
      have hliteral : info.literalName? = some name := by
        simp [SlotInfo.literalName?, hkey, hr, hbase, OutletBase.fixed?]
      rw [hbase]
      dsimp only
      split
      · exact fun a ha => absurd ha List.not_mem_nil
      · refine List.forall_mem_singleton.mpr (.fixed hname (placeholders_eq_nil (by decide)) ?_)
        rintro w ⟨⟩
        exact (hn.braceFree name hliteral).1
  · cases hkey : info.keys.outlet with
    | none => exact fun a ha => absurd ha List.not_mem_nil
    | some key =>
      obtain ⟨call, hcall⟩ := slot_outlet_found hgiven hl hback hkey
      dsimp only
      split
      · refine List.forall_mem_singleton.mpr
          (.placeholder hprops (placeholders_eq_nil (by decide)) ?_ (.props rfl ⟨key, rfl, hcall⟩))
        refine Place.delimits_braces ?_
        simpa using (hv.reference hcall).notMem (by decide)
      · exact fun a ha => absurd ha List.not_mem_nil

/-- A name that is its own key in an object does not end in a brace. -/
theorem getLast?_of_fieldKey {name : String} (h : Code.fieldKey name = name) :
    name.toList.getLast? ≠ some '\x7d' := by
  intro hlast
  have hplain := Code.isPlain_of_isPlainName (Code.fieldKey_eq_self.mp h) _
    (List.mem_of_getLast? hlast)
  exact absurd hplain (by decide +kernel)

/-- No closing braces come about where a name without them stands behind a mark. -/
theorem breakList_marked {mark name : String} (hmark : '\x7d' ∉ mark.toList)
    (h : Place.breakList ['\x7d', '\x7d'] name.toList = none) :
    Place.breakList ['\x7d', '\x7d'] (mark ++ name).toList = none := by
  have hjoint : mark.toList.getLast? = some '\x7d' → name.toList.head? ≠ some '\x7d' :=
    fun hlast => absurd (List.mem_of_getLast? hlast) hmark
  rw [String.toList_append, Place.breakList_append_of_none (breakList_eq_none hmark) hjoint, h]
  rfl

theorem delimits_field {name : String} (h : Place.breakList ['\x7d', '\x7d'] name.toList = none)
    (hplain : Code.fieldKey name = name) :
    Place.Delimits ['\x7d', '\x7d'] ("$slots." ++ name).toList := by
  refine Place.delimits_of_none (breakList_marked (by decide) h) fun hlast => ?_
  rw [String.toList_append, List.getLast?_append] at hlast
  cases hname : name.toList.getLast? with
  | none =>
    rw [hname] at hlast
    exact absurd hlast (by decide)
  | some d =>
    rw [hname] at hlast
    exact getLast?_of_fieldKey hplain (hname.trans hlast)

theorem delimits_quoted {name : String} (h : Place.breakList ['\x7d', '\x7d'] name.toList = none) :
    Place.Delimits ['\x7d', '\x7d'] ("$slots['" ++ name ++ "']").toList := by
  have hmarked : Place.breakList ['\x7d', '\x7d'] ("$slots['" ++ name).toList = none :=
    breakList_marked (by decide) h
  refine Place.delimits_of_none ?_ fun hlast => ?_
  · rw [String.toList_append, Place.breakList_append_of_none hmarked fun _ => by decide]
    rfl
  · rw [String.toList_append, List.getLast?_append] at hlast
    exact absurd hlast (by simp)

theorem presence_isMade (hn : Prepared settings nodes (.slot info fallback))
    (hr : info.resolution = some r) (hfallback : fallback ≠ []) (hl : c.localKeys = true)
    (hback : ∀ p ∈ info.parts .markup, c.Finds v.record p) (hv : v.IsBare) :
    IsMade settings nodes tag outer v
      (settings.dialect.directive "if", some (placeholder (presence v.way info r.base))) := by
  have hgiven : info.keys.IsGiven .markup info := hn.annotated.1
  have made {test : String} (hdelimits : Place.Delimits ['\x7d', '\x7d'] test.toList)
      (htest : v.Tests info test) :
      IsMade settings nodes tag outer v
        (settings.dialect.directive "if", some (placeholder test)) :=
    isMade_directive (by decide +kernel) (by decide) hdelimits
      (.presence rfl hn.mem hfallback htest)
  unfold presence
  cases houtlet : info.keys.outlet with
  | some outlet =>
    obtain ⟨call, hcall⟩ := slot_outlet_found hgiven hl hback houtlet
    exact isMade_directive (by decide +kernel) (by decide)
      (Place.delimits_braces ((hv.reference hcall).notMem (by decide)))
      (.reference ⟨outlet, rfl, hcall⟩ rfl)
  | none =>
    cases hkey : info.keys.name with
    | some key =>
      obtain ⟨t, ht, -⟩ := slot_name_found hgiven hl hback hkey
      refine made (Place.delimits_braces ?_) (.bound hkey ht)
      simpa using (hv.reference ht).notMem (by decide)
    | none =>
      obtain ⟨name, hbase⟩ := slot_name_bound hgiven hr hkey
      have hliteral : info.literalName? = some name := by
        simp [SlotInfo.literalName?, hkey, hr, hbase, OutletBase.fixed?]
      have hclose := (hn.braceFree name hliteral).2 hfallback houtlet
      rw [hbase]
      dsimp only
      split
      · rename_i hplain
        exact made (delimits_field hclose hplain) (.field hr hbase hplain)
      · rename_i hplain
        exact made (delimits_quoted hclose) (.quoted hr hbase hplain)

theorem bothMarkup_eq (settings : MarkupSettings) (scope : List String) (info : SlotInfo)
    (base : OutletBase) (fallback : String) :
    bothMarkup settings scope info base fallback =
      "<block" ++ attributesText [(settings.dialect.directive "if",
          some (placeholder (presence scope info base)))] ++ ">" ++
        ("<slot" ++ attributesText (slotAttributes settings scope info base) ++ "/>") ++
          "</block>" ++
        ("<block" ++ attributesText [(settings.dialect.directive "else", none)] ++ ">" ++ fallback ++
          "</block>") := by
  unfold bothMarkup
  simp [attributesText, ← String.toList_inj]

theorem slotMarkup_emits {emitFallback : EmitMarkup (List String)}
    (hn : Prepared settings nodes (.slot info fallback)) (hl : c.localKeys = true)
    (hback : ∀ p ∈ info.parts .markup, c.Finds v.record p)
    (hfallback : EmitsAll settings nodes v fallback emitFallback) :
    EmitsNode settings nodes v (.slot info fallback)
      (slotMarkup settings path info emitFallback) := by
  intro s s' markup outer hfits hat hwaits h
  obtain ⟨r, hr, hpolicy⟩ := hn.annotated.2
  have h := slotMarkup_eq_ok hr h
  have hown {tag : String} {outer : View} :
      ∀ a ∈ slotAttributes settings v.way info r.base, IsMade settings nodes tag outer v a :=
    slotAttributes_isMade hn hr hl hback hat.bare
  have hslotOwn : ∀ a ∈ slotAttributes settings v.way info r.base,
      IsMade settings nodes "slot" ⟨[], []⟩ v a := hown
  rw [hat.scope] at h
  split at h
  · subst h
    have henters := hwaits.enters_append hat.bare hslotOwn
    refine ⟨_, .slot (List.forall_mem_append.mpr ⟨?_, hown⟩) henters, Edge.fills_behind rfl⟩
    exact fun a ha => hwaits.made a ha "slot"
  · rename_i hdual
    obtain ⟨content, hrun, rfl⟩ := h
    have hne : fallback ≠ [] := by
      rintro rfl
      exact hdual (by rw [hpolicy]; decide)
    obtain ⟨rs, hcontent, hfill⟩ := hfallback
      { s with scope := v.way, pending := [] } s' content
      ⟨rfl, hfits.unowned rfl⟩ ⟨rfl, hat.bare⟩ hrun
    -- Two blocks, the slot in one and the fallback in the other, as the outlet is filled or not.
    have stays {tag : String} {as : List MarkupAttribute}
        (has : ∀ a ∈ as, IsMade settings nodes tag ⟨[], []⟩ v a) :
        Enters settings.dialect (as.map written) v v :=
      .stays (not_repeats_of_isMade hat.bare has)
    have htest {outer : View} : ∀ a ∈ [_], IsMade settings nodes "block" outer v a :=
      List.forall_mem_singleton.mpr (presence_isMade hn hr hne hl hback hat.bare)
    have helse {outer : View} : ∀ a ∈ [(settings.dialect.directive "else", none)],
        IsMade settings nodes "block" outer v a :=
      List.forall_mem_singleton.mpr
        (isMade_directive_fixed (by decide +kernel) (by decide) (by simp))
    have hslot : Emits settings nodes v _ _ := .slot hown (stays hslotOwn)
    have hboth := (Emits.block htest (stays htest) hslot (.singleton _)).append
      (.block helse (stays helse) hcontent (hfill.isChain hn.written))
    rw [← bothMarkup_eq] at hboth
    exact ⟨_, hwaits.wrap hboth (Edge.isChain_closed (by simp [Raw.edge])),
      Edge.fills_wrapped (.inr (by simp [Raw.edge]))⟩

end Slots

/-! ## Branches and loops -/

section Governed

variable {v : View} {key : Key} {record : Record}

/-- What is known of a branch of a chain that was read and annotated. -/
structure PreparedBranch (b : Branch) : Prop where
  single : ∃ n, b.children = [n] ∧ n.isComment = false
  keyed : b.info.key.isSome = b.info.condition.isSome
  tested : b.info.kind = .otherwise ↔ b.info.condition = none

/-- The test of a branch leads into it. -/
theorem waits_test {name : String} {all : List MergeBranch} {condition : Option Expression} {k : Key}
    {t : Thunk} (hname : name = "if" ∨ name = "elif") (hv : View.IsBare ⟨v.way ++ [key], record⟩)
    (hkey : v.record.get? key = some (.merge all)) (hbranch : .mk condition (some k) record ∈ all)
    (ht : record.get? k = some t) (hloop : t.isLoop = false) :
    Waits settings nodes
      [(settings.dialect.directive name,
        some (placeholder (reference (v.way ++ [key]) (some k))))] v ⟨v.way ++ [key], record⟩ := by
  have hbare := hv.reference ht
  have hdirective : IsAttributeName name ∧ '\x7b' ∉ name.toList := by
    rcases hname with rfl | rfl
    · exact ⟨by decide +kernel, by decide⟩
    · exact ⟨by decide +kernel, by decide⟩
  refine ⟨.branch hkey hbranch hname (carries_placeholder List.mem_cons_self hbare), ?_⟩
  refine List.forall_mem_singleton.mpr fun tag => ?_
  exact isMade_directive hdirective.1 hdirective.2
    (Place.delimits_braces (hbare.notMem (by decide))) (.reference ⟨k, rfl, ht⟩ hloop)

/-- The attribute of a branch leads into it. -/
theorem waits_branch {b : Branch} {all : List MergeBranch} (hb : PreparedBranch b)
    (hv : View.IsBare ⟨v.way ++ [key], record⟩) (hkey : v.record.get? key = some (.merge all))
    (hbranch : .mk b.info.condition b.info.key record ∈ all) (hl : c.localKeys = true)
    (hback : ∀ p ∈ b.info.parts, c.Finds record p) :
    Waits settings nodes [branchAttribute settings (v.way ++ [key]) b.info] v
      ⟨v.way ++ [key], record⟩ := by
  have hkeyed := hb.keyed
  cases hcondition : b.info.condition with
  | none =>
    have hkind : b.info.kind = .otherwise := hb.tested.mpr hcondition
    rw [hcondition, Option.isSome_none, Option.isSome_eq_false_iff, Option.isNone_iff_eq_none]
      at hkeyed
    rw [hcondition, hkeyed] at hbranch
    rw [branchAttribute, hkind]
    refine ⟨.otherwise hkey hbranch ⟨_, List.mem_cons_self, rfl, rfl⟩, ?_⟩
    refine List.forall_mem_singleton.mpr fun tag => ?_
    exact isMade_directive_fixed (by decide +kernel) (by decide) (by simp)
  | some e =>
    rw [hcondition, Option.isSome_some, Option.isSome_iff_exists] at hkeyed
    obtain ⟨k, hk⟩ := hkeyed
    have hpart : (b.info.key, .field e) ∈ b.info.parts := by
      simp [BranchInfo.parts, hcondition]
    obtain ⟨k', hk', ht⟩ := (hback _ hpart).get? hl
    obtain rfl := Option.some.inj (hk.symm.trans hk')
    rw [hk] at hbranch
    rw [branchAttribute, hk]
    cases hkind : b.info.kind with
    | onlyIf => exact waits_test (.inl rfl) hv hkey hbranch ht rfl
    | elseIf => exact waits_test (.inr rfl) hv hkey hbranch ht rfl
    | otherwise =>
      rw [hb.tested.mp hkind] at hcondition
      cases hcondition

/-- The attributes of a loop lead into it. The key of the node that it repeats is a key. -/
theorem waits_loop {info : LoopInfo} {children : List Node} (hitem : LoopHead.IsName info.item)
    (hv : v.IsBare) (hinner : View.IsBare ⟨[info.item], record⟩)
    (hkey : v.record.get? key =
      some (.loop info.source info.item info.index info.depth record))
    (hloop : info.key = some key) (hl : c.localKeys = true)
    (hback : Node.LeadsBackAll c .markup record children) :
    Waits settings nodes (loopAttributes settings v.way info children) v ⟨[info.item], record⟩ := by
  have hbare := hv.reference hkey
  unfold loopAttributes
  rw [hloop]
  refine ⟨.loop hkey (carries_placeholder List.mem_cons_self hbare)
    ⟨_, List.mem_cons_of_mem _ List.mem_cons_self, rfl, ?_⟩, ?_⟩
  · show some (String.ofList (escaped info.item.toList)) = _
    rw [escaped_of_notMem (hitem.bare.notMem (by decide)), String.ofList_toList]
  · refine List.forall_mem_append.mpr ⟨?_, List.forall_mem_map.mpr fun k hk => ?_⟩
    · refine List.forall_mem_cons.mpr ⟨fun tag => ?_, List.forall_mem_singleton.mpr fun tag => ?_⟩
      · exact isMade_directive (by decide +kernel) (by decide)
          (Place.delimits_braces (hbare.notMem (by decide))) (.source rfl ⟨key, rfl, hkey⟩)
      · refine isMade_directive_fixed (by decide +kernel) (by decide) ?_
        rintro w ⟨⟩
        exact hitem.bare.notMem (by decide)
    · refine fun tag => isMade_directive_fixed (by decide +kernel) (by decide) ?_
      rintro w ⟨⟩
      refine Bare.notMem ?_ (by decide)
      rw [Option.mem_toList] at hk
      -- The key is the one of a bound value of the node, which is found in the record of the loop.
      split at hk
      · rename_i owner below others
        obtain ⟨b, hb, hbk⟩ := Option.bind_eq_some_iff.mp hk
        have hmem := List.mem_of_find?_eq_some hb
        have hprop := List.find?_some hb
        have hkind : b.kind ≠ .event := by
          intro hkind
          simp [hkind] at hprop
        obtain ⟨k', hk', ht⟩ := (hback.1.1 _ (mem_directiveParts hmem hkind)).get? hl
        obtain rfl := Option.some.inj (hbk.symm.trans hk')
        exact hinner.get? ht
      · cases hk

end Governed

/-! ## Nodes -/

section Nodes

/-- No fault is tolerated, the name of the default outlet has no closing brace, and keys are looked
up in the record of a scope. -/
structure Setup (settings : MarkupSettings) (c : BindingContext) : Prop where
  strict : settings.tolerant = false
  outlet : '\x7d' ∉ settings.defaultOutlet.toList
  localKeys : c.localKeys = true

/-- The nodes and all nodes below them are prepared. -/
abbrev PreparedAll (settings : MarkupSettings) (nodes ns : List Node) : Prop :=
  ∀ m ∈ Node.withinAll ns, Prepared settings nodes m

theorem Prepared.branches {branches : List Branch} {key : Option Key} {l : Location}
    (h : Prepared settings nodes (.chain branches key l)) :
    ∀ b ∈ branches, PreparedBranch b := fun b hb =>
  ⟨h.single b hb, h.annotated b hb, h.governs.2 _ (List.mem_map_of_mem hb)⟩

/-- A loop leaves nothing waiting behind the node that it repeats. -/
theorem loopMarkup_emits {v : View} {info : LoopInfo} {n : Node} {record : Record}
    {emitNode : EmitMarkup String} (hcomment : n.isComment = false)
    (hwaits : v.IsBare →
      Waits settings nodes (loopAttributes settings v.way info [n]) v ⟨[info.item], record⟩)
    (hbare : v.IsBare → View.IsBare ⟨[info.item], record⟩)
    (hsettles : Settles (Fits n) emitNode)
    (hnode : EmitsNode settings nodes ⟨[info.item], record⟩ n emitNode) :
    EmitsNode settings nodes v (.loop info [n]) (loopMarkup settings info [n] emitNode) := by
  intro s s' markup outer _ hat houter h
  obtain ⟨child, t, hrun, rfl⟩ := loopMarkup_eq_ok h
  rw [hat.scope] at hrun
  have hfits : Fits n { s with
      scope := [info.item]
      pending := loopAttributes settings v.way info [n]
      loopOwner := startsWithElement [n] } := by
    refine ⟨fun howner => ?_, fun hc => ?_⟩
    · cases n with
      | element info children => rfl
      | _ => exact absurd howner Bool.false_ne_true
    · rw [hcomment] at hc
      cases hc
  obtain ⟨rs, hchild, hfill⟩ := hnode _ _ _ v hfits ⟨rfl, hbare hat.bare⟩ (hwaits hat.bare) hrun
  have hsettled := hsettles _ _ _ hfits hrun
  obtain ⟨hne, hclosed⟩ := Edge.Fills.closed hfill
  rw [hsettled.pending]
  exact ⟨_, houter.wrap hchild (Edge.isChain_closed hclosed),
    Edge.fills_wrapped (.inr ⟨hne, hclosed⟩)⟩

variable (hsetup : Setup settings c)

include hsetup

mutual

theorem emit_emits (path : Path) (n : Node) (hn : ∀ m ∈ n.within, Prepared settings nodes m)
    {v : View} (hback : n.LeadsBack c .markup v.record) :
    EmitsNode settings nodes v n (emit settings path n) := by
  match n with
  | .element info children =>
    obtain ⟨hself, hchildren⟩ := List.forall_mem_cons.mp hn
    rw [emit]
    exact elementMarkup_emits hself hsetup.outlet hsetup.localKeys hback.1
      (emitAll_emits path 0 children hchildren hback.2)
  | .text value l =>
    intro s s' markup outer _ _ hwaits h
    rw [emit] at h
    obtain ⟨pending, t, hpending, h⟩ := Emit.run_bind_inv h
    obtain ⟨rfl, -⟩ := takePending_eq_ok hpending
    obtain ⟨rfl, -⟩ := pure_eq_ok h
    have hself := (List.forall_mem_singleton.mp hn).written
    have hmarkup : Emits settings nodes v value [.text value 0] := .text_ofSpan hself.1 hself.2
    exact ⟨_, hwaits.wrap hmarkup (.singleton _), Edge.fills_wrapped (.inl rfl)⟩
  | .interpolation e key l =>
    -- What waits for the next element is wrapped around the placeholder in an element of its own.
    intro s s' markup outer _ hat hwaits h
    rw [emit] at h
    obtain ⟨pending, t, hpending, hrest⟩ := Emit.run_bind_inv h
    obtain ⟨rfl, rfl⟩ := takePending_eq_ok hpending
    obtain ⟨t', t'', hget, hrest⟩ := Emit.run_bind_inv hrest
    obtain ⟨rfl, -⟩ := get_eq_ok hget
    obtain ⟨rfl, -⟩ := pure_eq_ok hrest
    obtain ⟨k, rfl, hk⟩ := BindingContext.Finds.get? hback hsetup.localKeys
    have hmarkup : Emits settings nodes v (placeholder (reference v.way (some k)))
        [.interpolation (reference v.way (some k)) 0] :=
      .interpolation ⟨k, rfl, hk⟩
        (Place.delimits_braces ((hat.bare.reference hk).notMem (by decide)))
    rw [← hat.scope] at hmarkup
    exact ⟨_, hwaits.wrap hmarkup (.singleton _), Edge.fills_wrapped (.inl rfl)⟩
  | .slot info fallback =>
    obtain ⟨hself, hfallback⟩ := List.forall_mem_cons.mp hn
    rw [emit]
    exact slotMarkup_emits hself hsetup.localKeys hback.1
      (emitAll_emits path 0 fallback hfallback hback.2)
  | .chain branches key l =>
    obtain ⟨hself, hbranches⟩ := List.forall_mem_cons.mp hn
    obtain ⟨merged, hfound, hmerged⟩ := hback
    obtain ⟨k, rfl, hk⟩ := hfound.get? hsetup.localKeys
    intro s s' markup outer hfits hat hwaits h
    rw [emit] at h
    obtain ⟨pending, t, hpending, hrest⟩ := Emit.run_bind_inv h
    obtain ⟨rfl, rfl⟩ := takePending_eq_ok hpending
    obtain ⟨inside, t', hinside, hrest⟩ := Emit.run_bind_inv hrest
    obtain ⟨rfl, -⟩ := pure_eq_ok hrest
    obtain ⟨rs, hmarkup, hclosed, hne⟩ := emitBranches_emits path 0 branches hself.branches hbranches
      hk (List.Subset.refl _) hmerged { s with pending := [] } t' inside
      ⟨rfl, hfits.unowned rfl⟩ ⟨hat.scope, hat.bare⟩ hinside
    exact ⟨_, hwaits.wrap hmarkup (Edge.isChain_closed hclosed),
      Edge.fills_wrapped (.inr ⟨hne hself.governs.1, hclosed⟩)⟩
  -- A loop has one child, as it is parsed.
  | .loop info [] =>
    obtain ⟨m, hm⟩ := (List.forall_mem_cons.mp hn).1.single
    cases hm
  | .loop info (_ :: _ :: _) =>
    obtain ⟨m, hm⟩ := (List.forall_mem_cons.mp hn).1.single
    cases hm
  | .loop info [m] =>
    obtain ⟨hself, hchildren⟩ := List.forall_mem_cons.mp hn
    obtain ⟨record, hfound, hinner⟩ := hback
    obtain ⟨k, hkey, hk⟩ := hfound.get? hsetup.localKeys
    rw [emit]
    have hitem : LoopHead.IsName info.item := hself.written.1
    rw [Node.withinAll, Node.withinAll, List.append_nil] at hchildren
    have hbare (hv : v.IsBare) : View.IsBare ⟨[info.item], record⟩ := hv.loop hk hitem
    refine loopMarkup_emits (hself.governs m List.mem_cons_self) (fun hv => ?_) hbare
      (emit_settles settings _ m fun m hm => (hchildren m hm).single)
      (emit_emits (path.child 0) m hchildren hinner.1)
    exact waits_loop hitem hv (hbare hv) hk hkey hsetup.localKeys hinner
  -- Nothing waits for a comment.
  | .comment value l =>
    intro s s' markup outer hfits _ hwaits h
    rw [emit] at h
    obtain ⟨rfl, -⟩ := pure_eq_ok h
    have hpending : s.pending = [] := hfits.comment rfl
    rw [hpending] at hwaits ⊢
    have hmarkup : Emits settings nodes v ("<!--" ++ value ++ "-->") [.comment value 0] :=
      .comment (List.forall_mem_singleton.mp hn).written
    rw [hwaits.eq_of_nil] at hmarkup
    exact ⟨_, hmarkup, .inl rfl⟩

theorem emitAll_emits (parent : Path) (index : Nat) (ns : List Node)
    (hn : PreparedAll settings nodes ns) {v : View}
    (hback : Node.LeadsBackAll c .markup v.record ns) :
    EmitsAll settings nodes v ns (emitAll settings parent index ns) := by
  match ns with
  | [] =>
    intro s s' content _ _ h
    rw [emitAll] at h
    obtain ⟨rfl, -⟩ := pure_eq_ok h
    exact ⟨[], .nil, .nil⟩
  | n :: rest =>
    obtain ⟨hself, hrest⟩ := List.forall_mem_append.mp hn
    intro s s' content hs hat h
    rw [emitAll_cons] at h
    obtain ⟨result, t, hchild, hrest'⟩ := Emit.run_bind_inv h
    obtain ⟨markup, rfl, hrun⟩ := emitChild_eq_ok hsetup.strict hchild
    obtain ⟨more, t', hmore, hpure⟩ := Emit.run_bind_inv hrest'
    obtain ⟨rfl, -⟩ := pure_eq_ok hpure
    have hfits : Fits n s := Fits.of_settled hs n
    have hwaits : Waits settings nodes s.pending v v := by
      rw [hs.pending]
      exact .nil v
    obtain ⟨rs, hmarkup, hfill⟩ := emit_emits (parent.child index) n hself hback.1 s t markup v hfits
      hat hwaits hrun
    rw [hs.pending] at hfill
    have ht : t.Settled :=
      emit_settles settings _ n (fun m hm => (hself m hm).single) s markup t hfits hrun
    have hscope : t.scope = s.scope := by
      have hkeeps := emit_keepsScope settings (parent.child index) n s
      rwa [hrun] at hkeeps
    obtain ⟨rs', hmarkup', hfill'⟩ := emitAll_emits parent (index + 1) rest hrest hback.2 t t' more ht
      ⟨hscope.trans hat.scope, hat.bare⟩ hmore
    refine ⟨rs ++ rs', ?_, ?_⟩
    · have hjoin : String.join ((some markup).toList ++ more) = markup ++ String.join more := by
        simp
      rw [hjoin]
      exact hmarkup.append hmarkup'
    · rw [List.map_cons, List.map_append]
      exact .cons hfill hfill'

theorem emitBranches_emits (parent : Path) (index : Nat) (branches : List Branch)
    (hb : ∀ b ∈ branches, PreparedBranch b)
    (hn : ∀ m ∈ Branch.withinAll branches, Prepared settings nodes m) {v : View} {key : Key}
    {all merged : List MergeBranch} (hkey : v.record.get? key = some (.merge all))
    (hsub : merged ⊆ all) (hback : Branch.LeadsBackAll c .markup merged branches) :
    ∀ s s' markup, s.Settled → At s v →
      (emitBranches settings parent index (some key) branches).run s = (.ok markup, s') →
      ∃ rs, Emits settings nodes v markup rs ∧ (∀ f ∈ rs.map Raw.edge, f = .closed) ∧
        (branches ≠ [] → rs.map Raw.edge ≠ []) := by
  match branches with
  | [] =>
    intro s s' markup _ _ h
    rw [emitBranches] at h
    obtain ⟨rfl, -⟩ := pure_eq_ok h
    exact ⟨[], .nil, fun f hf => absurd hf List.not_mem_nil, fun hne => absurd rfl hne⟩
  | .mk info [] :: rest =>
    obtain ⟨n, hchildren, -⟩ := (hb _ List.mem_cons_self).single
    cases hchildren
  | .mk info (n :: more) :: rest =>
    rw [List.forall_mem_cons] at hb
    obtain ⟨m, hchildren, hcomment⟩ := hb.1.single
    cases hchildren
    obtain ⟨hself, hrest⟩ := List.forall_mem_append.mp hn
    rw [Node.withinAll, Node.withinAll, List.append_nil] at hself
    match merged with
    | [] => exact absurd hback id
    | .mk condition k record :: merged =>
    obtain ⟨rfl, rfl, hparts, hinner, hback⟩ := hback
    obtain ⟨hbranch, hsub⟩ := List.cons_subset.mp hsub
    intro s s' markup hs hat h
    rw [emitBranches] at h
    obtain ⟨markup, t, hrun, hrest'⟩ := Emit.run_bind_inv h
    obtain ⟨markup', t', hmore, hpure⟩ := Emit.run_bind_inv hrest'
    obtain ⟨rfl, -⟩ := pure_eq_ok hpure
    obtain ⟨u, hnode, rfl⟩ := branchMarkup_eq_ok hrun
    rw [hat.scope] at hnode
    have hbare := hat.bare.branch hkey hbranch
    -- The condition of the branch waits for its element, in the scope of what the branch shows.
    have hfits : Fits n { s with
        scope := v.way ++ [key]
        pending := [branchAttribute settings (v.way ++ [key]) info] } :=
      .of_unowned hs.loopOwner hcomment
    have hwaits : Waits settings nodes _ _ _ :=
      waits_branch hb.1 hbare hkey hbranch hsetup.localKeys hparts
    obtain ⟨rs, hmarkup, hfill⟩ := emit_emits _ n hself hinner.1 _ _ _ v hfits ⟨rfl, hbare⟩ hwaits
      hnode
    obtain ⟨hne, hclosed⟩ := Edge.Fills.closed hfill
    have ht := emit_settles settings _ n (fun m hm => (hself m hm).single) _ _ _ hfits hnode
    obtain ⟨rs', hmarkup', hclosed', -⟩ := emitBranches_emits parent (index + 1) rest hb.2 hrest hkey
      hsub hback { u with scope := s.scope } t' markup' ⟨ht.pending, ht.loopOwner⟩
      ⟨hat.scope, hat.bare⟩ hmore
    refine ⟨rs ++ rs', hmarkup.append hmarkup', ?_, fun _ => ?_⟩
    · rw [List.map_append]
      exact List.forall_mem_append.mpr ⟨hclosed, hclosed'⟩
    · rw [List.map_append]
      exact List.append_ne_nil_of_left_ne_nil hne _

end

/-- The markup of a template is read again, as siblings in which every placeholder is one that the
compiler made. -/
theorem generate_emits {markup : String} {errors : List Diagnostic}
    (h : generate settings nodes = .ok (markup, errors)) (hn : PreparedAll settings nodes nodes)
    (hjoined : Node.Joined nodes) (hback : Node.LeadsBackAll c .markup c.root nodes)
    (hbare : (View.root c).IsBare) :
    ∃ rs, Raw.read markup.toList = .ok rs ∧ Raw.ResolveAll settings nodes (View.root c) rs := by
  unfold generate at h
  rcases hrun : (emitAll settings [] 0 nodes).run {} with ⟨r, s⟩
  rw [hrun] at h
  cases r with
  | error d => cases h
  | ok content =>
    cases h
    obtain ⟨rs, hmarkup, hfill⟩ :=
      emitAll_emits hsetup [] 0 nodes hn hback {} s content ⟨rfl, rfl⟩ ⟨rfl, hbare⟩ hrun
    exact hmarkup.read (hfill.isChain hjoined)

end Nodes

end Markup

end UiTemplate
