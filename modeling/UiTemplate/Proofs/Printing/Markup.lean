import UiTemplate.Backend.Markup
import UiTemplate.Proofs.Printing.Plain
import UiTemplate.Proofs.Tolerance.Step

/-!
# Markup of static trees

- `Markup.emitAll_plain`: the markup of a plain tree is what its pieces are written as.
- `Markup.generate_plain`: the same for a template.
-/

namespace UiTemplate

open Raw

/-- Items that are in order stay so. -/
theorem inTextOrder_of_pairwise {α : Type} {items : List (Nat × α)}
    (h : items.Pairwise fun a b => a.1 ≤ b.1) : inTextOrder items = items.map Prod.snd := by
  have hsorted : items.Pairwise fun a b => decide (a.1 ≤ b.1) = true :=
    h.imp fun hle => decide_eq_true hle
  rw [inTextOrder, List.mergeSort_of_pairwise hsorted]

namespace Markup

/-! ## Attributes -/

theorem quotedValue_eq {v : String} (h : '"' ∉ v.toList) :
    (quotedValue v).toList = '"' :: (v.toList ++ ['"']) := by
  have hkeep : v.toList.flatMap (fun c => if c = '"' then "&quot;".toList else [c]) = v.toList := by
    have hone : ∀ c ∈ v.toList, (if c = '"' then "&quot;".toList else [c]) = [c] := by
      intro c hc
      rw [if_neg]
      rintro rfl
      exact h hc
    rw [List.flatMap_congr hone, List.flatMap_singleton']
  unfold quotedValue
  rw [hkeep, String.ofList_toList]
  simp

theorem attributeText_eq {a : RawAttribute} (h : a.Quotable) :
    (attributeText (a.name, a.value)).toList = a.print := by
  unfold attributeText RawAttribute.print
  cases hv : a.value with
  | none => simp
  | some v => simp [quotedValue_eq (h v hv)]

theorem attributesText_eq {as : List RawAttribute} (h : ∀ a ∈ as, a.Quotable) :
    (attributesText (as.map fun a => (a.name, a.value))).toList = as.flatMap RawAttribute.print := by
  induction as with
  | nil => rfl
  | cons a as ih =>
    rw [List.forall_mem_cons] at h
    have hrest := ih h.2
    rw [attributesText, String.toList_join] at hrest ⊢
    rw [List.map_cons, List.map_cons, List.flatMap_cons, List.flatMap_cons, attributeText_eq h.1,
      hrest]

/-- The attributes of a plain element are in the order of the text. -/
theorem elementAttributes_plain {locate : Nat → Location} (hlocate : ∀ n, (locate n).offset = n)
    {as : List RawAttribute} (h : as.Pairwise fun a b => a.start ≤ b.start)
    (settings : MarkupSettings) (scope : List String) (path : Path) (loopOwner : Bool)
    {info : ElementInfo} (hattributes : info.attributes = as.map (RawAttribute.fixed locate))
    (hdirectives : info.directives = []) :
    elementAttributes settings scope path loopOwner info =
      .ok (as.map fun a => (a.name, a.value)) := by
  have hsorted : (as.map fun a => ((locate a.start).offset, a.name, a.value)).Pairwise
      fun x y => x.1 ≤ y.1 := by
    rw [List.pairwise_map]
    exact h.imp fun hle => by simpa [hlocate] using hle
  have horder := inTextOrder_of_pairwise hsorted
  rw [List.map_map] at horder
  rw [elementAttributes, hattributes, hdirectives]
  show Except.ok (inTextOrder ((as.map (RawAttribute.fixed locate)).map _ ++ [])) = _
  rw [List.append_nil, List.map_map]
  exact congrArg Except.ok horder

/-! ## Nodes -/

section Element

variable {settings : MarkupSettings} {path : Path} {info : ElementInfo}
  {attributes : List MarkupAttribute} (hkind : info.kind = .native)
  (hdirectives : info.directives = [])
  (hown : elementAttributes settings [] path false info = .ok attributes)

include hkind hdirectives hown

/-- What comes before the children of an element of the host without directives. -/
theorem elementMarkup_native (children : List Node) (emitChildren : EmitMarkup (List String)) :
    (elementMarkup settings path info children emitChildren).run {} =
      ((if children.isEmpty && info.selfClosing then
          pure ("<" ++ info.tag ++ attributesText attributes ++ "/>")
        else do
          let content ← emitChildren
          return "<" ++ info.tag ++ attributesText attributes ++ ">" ++ String.join content ++ "</" ++
            info.tag ++ ">" : EmitMarkup String)).run {} := by
  have hcheck : (Emit.checkDirectives info.directives path : EmitMarkup Unit).run {} =
      (.ok (), {}) := by
    rw [hdirectives]
    rfl
  have howner : takeLoopOwner.run {} = (.ok false, {}) := rfl
  have hpending : takePending.run {} = (.ok [], {}) := rfl
  have hget : (get : EmitMarkup MarkupState).run {} = (.ok {}, {}) := rfl
  have hattributes : (ExceptT.mk (pure (elementAttributes settings [] path false info)) :
      EmitMarkup (List MarkupAttribute)).run {} = (.ok attributes, {}) := by
    rw [hown]
    rfl
  have hcontent : contentAttribute settings info children = [] := by
    rw [contentAttribute, hkind]
    rfl
  have htag : (if info.kind == .fragment then "block" else info.tag) = info.tag := by
    rw [hkind]
    rfl
  unfold elementMarkup
  rw [Emit.run_bind_ok hcheck, Emit.run_bind_ok howner, Emit.run_bind_ok hpending,
    Emit.run_bind_ok hget, Emit.run_bind_ok hattributes]
  simp only [hcontent, htag, List.nil_append, List.append_nil]

end Element

section

variable {locate : Nat → Location} (settings : MarkupSettings)

mutual

theorem emit_plain (hlocate : ∀ n, (locate n).offset = n) (path : Path) (r : Raw) (hr : r.Proper)
    (hwf : ∀ p ∈ r.pieces, p.WellFormed) (hp : ∀ p ∈ r.pieces, p.Printable) :
    ∃ m, (emit settings path (plain locate r)).run {} = (.ok m, {}) ∧
      m.toList = r.pieces.flatMap Piece.print := by
  match r with
  | .text value start => exact ⟨value, rfl, by simp [Raw.pieces, Piece.print]⟩
  | .comment value start =>
    exact ⟨"<!--" ++ value ++ "-->", rfl, by simp [Raw.pieces, Piece.print]⟩
  | .interpolation source start => exact absurd (hp _ List.mem_cons_self) id
  | .element tag attributes selfClosing start children =>
    have hstart := hwf _ List.mem_cons_self
    have hquotable := hp _ List.mem_cons_self
    let info : ElementInfo :=
      { tag, kind := .native, attributes := attributes.map (RawAttribute.fixed locate)
        directives := [], selfClosing, isStatic := true, location := locate start }
    have hown : elementAttributes settings [] path false info = _ :=
      elementAttributes_plain hlocate hstart.2.2.1 settings [] path false rfl rfl
    have hrun := elementMarkup_native rfl rfl hown (plainAll locate children)
      (emitAll settings path 0 (plainAll locate children))
    have hattributes := attributesText_eq hquotable
    rw [plain, emit, hrun]
    cases selfClosing with
    | true =>
      obtain rfl := hr.1 rfl
      refine ⟨_, rfl, ?_⟩
      simp [Raw.pieces, Piece.print, tagEnd, hattributes, info]
    | false =>
      have hpieces : (element tag attributes false start children).pieces =
          .openTag tag attributes false start :: (piecesAll children ++ [.closeTag tag 0]) := by
        simp [Raw.pieces]
      rw [hpieces, List.forall_mem_cons, List.forall_mem_append] at hwf hp
      obtain ⟨ms, hms, hmarkup⟩ := emitAll_plain hlocate path 0 children hr.2 hwf.2.1 hp.2.1
      rw [if_neg (by simp [info]), Emit.run_bind_ok hms]
      refine ⟨_, rfl, ?_⟩
      rw [hpieces]
      simp [Piece.print, tagEnd, hattributes, hmarkup, info]

/-- The markup of plain siblings is what their pieces are written as. -/
theorem emitAll_plain (hlocate : ∀ n, (locate n).offset = n) (parent : Path) (index : Nat) (rs : List Raw) (hrs : ProperAll rs)
    (hwf : ∀ p ∈ piecesAll rs, p.WellFormed) (hp : ∀ p ∈ piecesAll rs, p.Printable) :
    ∃ ms, (emitAll settings parent index (plainAll locate rs)).run {} = (.ok ms, {}) ∧
      (String.join ms).toList = (piecesAll rs).flatMap Piece.print := by
  match rs with
  | [] => exact ⟨[], rfl, rfl⟩
  | r :: rest =>
    rw [piecesAll, List.forall_mem_append] at hwf hp
    obtain ⟨m, hm, hmarkup⟩ := emit_plain hlocate (parent.child index) r hrs.1 hwf.1 hp.1
    obtain ⟨ms, hms, hmore⟩ := emitAll_plain hlocate parent (index + 1) rest hrs.2 hwf.2 hp.2
    refine ⟨m :: ms, ?_, ?_⟩
    · rw [plainAll, emitAll, Emit.run_bind_ok (Emit.run_attempt hm)]
      dsimp only
      rw [Emit.run_bind_ok hms]
      rfl
    · rw [String.toList_join] at hmore ⊢
      rw [List.flatMap_cons, piecesAll, List.flatMap_append, hmarkup, hmore]

end

/-- The markup of a plain template is what its pieces are written as. -/
theorem generate_plain (hlocate : ∀ n, (locate n).offset = n) {rs : List Raw} (hrs : ProperAll rs)
    (hwf : ∀ p ∈ piecesAll rs, p.WellFormed) (hp : ∀ p ∈ piecesAll rs, p.Printable) :
    ∃ markup, generate settings (plainAll locate rs) = .ok (markup, []) ∧
      markup.toList = (piecesAll rs).flatMap Piece.print := by
  obtain ⟨ms, hms, hmarkup⟩ := emitAll_plain settings hlocate [] 0 rs hrs hwf hp
  refine ⟨String.join ms, ?_, hmarkup⟩
  rw [generate, hms]

end

end Markup

end UiTemplate
