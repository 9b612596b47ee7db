import UiTemplate.Backend.Markup
import UiTemplate.Proofs.Printing.Placeholders
import UiTemplate.Proofs.Template.Written

/-!
# Attributes in markup

- `Markup.attributesText_written`: attributes of markup are written as those of a start tag, quotes
  in their values as references.
- `placeholders_escaped`: that changes no placeholder, but for quotes in it.
- `Dialect.isAttributeName_event`: the name of an event becomes the name of an attribute.
-/

namespace UiTemplate

open Piece

namespace Markup

/-! ## Quotes -/

/-- What stands between double quotes for a value: quotes in it are written as references. -/
def escaped (value : List Char) : List Char :=
  value.flatMap fun c => if c = '"' then "&quot;".toList else [c]

theorem escaped_quote (cs : List Char) : escaped ('"' :: cs) = "&quot;".toList ++ escaped cs := rfl

theorem escaped_cons {c : Char} (hc : c ≠ '"') (cs : List Char) :
    escaped (c :: cs) = c :: escaped cs := by
  rw [escaped, List.flatMap_cons, if_neg hc]
  rfl

theorem escaped_of_notMem {cs : List Char} (h : '"' ∉ cs) : escaped cs = cs := by
  induction cs with
  | nil => rfl
  | cons c cs ih =>
    rw [List.mem_cons, not_or] at h
    rw [escaped_cons (Ne.symm h.1), ih h.2]

theorem quote_notMem_escaped (cs : List Char) : '"' ∉ escaped cs := by
  induction cs with
  | nil => exact List.not_mem_nil
  | cons c cs ih =>
    by_cases hc : c = '"'
    · subst hc
      rw [escaped_quote, List.mem_append, not_or]
      exact ⟨by decide, ih⟩
    · rw [escaped_cons hc, List.mem_cons, not_or]
      exact ⟨Ne.symm hc, ih⟩

theorem quotedValue_escaped (v : String) :
    (quotedValue v).toList = '"' :: (escaped v.toList ++ ['"']) := by
  rw [quotedValue, String.toList_append, String.toList_append, String.toList_ofList,
    String.toList_ofList]
  rfl

/-! ## Attributes -/

/-- The attribute as it stands in a start tag. -/
def written (a : MarkupAttribute) : RawAttribute :=
  ⟨a.1, a.2.map fun v => String.ofList (escaped v.toList), 0, 0⟩

theorem attributeText_written (a : MarkupAttribute) :
    (attributeText a).toList = (written a).print := by
  obtain ⟨name, value⟩ := a
  cases value with
  | none => simp [attributeText, written, RawAttribute.print]
  | some v => simp [attributeText, written, RawAttribute.print, quotedValue_escaped]

/-- Attributes of markup are written as those of a start tag. -/
theorem attributesText_written (as : List MarkupAttribute) :
    (attributesText as).toList = (as.map written).flatMap RawAttribute.print := by
  induction as with
  | nil => rfl
  | cons a as ih =>
    rw [attributesText, String.toList_join] at ih ⊢
    rw [List.map_cons, List.map_cons, List.flatMap_cons, List.flatMap_cons, ih,
      attributeText_written]

theorem written_quotable (a : MarkupAttribute) : (written a).Quotable := by
  intro v hv
  obtain ⟨v', -, rfl⟩ := Option.map_eq_some_iff.mp hv
  rw [String.toList_ofList]
  exact quote_notMem_escaped v'.toList

/-! ## Placeholders -/

section Escaped

variable {c : Char}

theorem head?_escaped (hquote : c ≠ '"') (hmark : c ≠ '&') (cs : List Char) :
    (escaped cs).head? = some c ↔ cs.head? = some c := by
  cases cs with
  | nil => rfl
  | cons d cs =>
    by_cases hd : d = '"'
    · subst hd
      rw [escaped_quote]
      simp [hquote.symm, hmark.symm]
    · rw [escaped_cons hd]
      rfl

/-- Two characters alike that are no marks of a reference stand where they stood. -/
theorem breakList_escaped (hc : c ∉ "&quot;".toList) (hquote : c ≠ '"') (cs : List Char) :
    Place.breakList [c, c] (escaped cs) =
      (Place.breakList [c, c] cs).map fun p => (escaped p.1, escaped p.2) := by
  have hmark : c ≠ '&' := by
    rintro rfl
    exact hc (by decide)
  induction cs with
  | nil => rfl
  | cons d cs ih =>
    by_cases hd : d = '"'
    · subst hd
      have hno : ¬[c, c].isPrefixOf ('"' :: cs) = true := by
        rw [isPrefixOf_pair]
        exact fun hp => hquote hp.1.symm
      have hlast : "&quot;".toList.getLast? = some c → (escaped cs).head? ≠ some c := by
        intro hlast
        exact absurd (List.mem_of_getLast? hlast) hc
      rw [escaped_quote, Place.breakList_append_of_none (breakList_eq_none hc) hlast, ih,
        Place.breakList, if_neg hno, Option.map_map, Option.map_map]
      rfl
    · rw [escaped_cons hd, Place.breakList, Place.breakList]
      by_cases hp : [c, c].isPrefixOf (d :: cs) = true
      · obtain ⟨rfl, hhead⟩ := isPrefixOf_pair.mp hp
        obtain ⟨rest, rfl⟩ := List.head?_eq_some_iff.mp hhead
        rw [if_pos hp, if_pos (isPrefixOf_pair.mpr ⟨rfl, (head?_escaped hquote hmark _).mpr rfl⟩),
          escaped_cons hd]
        rfl
      · have hp' : ¬[c, c].isPrefixOf (d :: escaped cs) = true := by
          rw [isPrefixOf_pair] at hp ⊢
          rwa [head?_escaped hquote hmark]
        rw [if_neg hp, if_neg hp', ih, Option.map_map, Option.map_map]
        congr 1
        funext p
        simp [escaped_cons hd]

/-- The placeholders of a value are those of what stands for it, quotes in them as references. -/
theorem placeholders_escaped (cs : List Char) :
    placeholders (escaped cs) = (placeholders cs).map escaped := by
  have hopen := breakList_escaped (show '\x7b' ∉ "&quot;".toList by decide) (by decide)
  have hclose := breakList_escaped (show '\x7d' ∉ "&quot;".toList by decide) (by decide)
  induction hn : cs.length using Nat.strongRecOn generalizing cs with
  | ind n ih =>
    cases ho : Place.breakList ['\x7b', '\x7b'] cs with
    | none =>
      have ho' := hopen cs
      rw [ho] at ho'
      rw [placeholders_of_unopened ho, placeholders_of_unopened ho']
      rfl
    | some opened =>
      obtain ⟨before, rest⟩ := opened
      have ho' := hopen cs
      rw [ho] at ho'
      cases hc : Place.breakList ['\x7d', '\x7d'] rest with
      | none =>
        have hc' := hclose rest
        rw [hc] at hc'
        rw [placeholders_of_unclosed ho hc, placeholders_of_unclosed ho' hc']
        rfl
      | some closed =>
        obtain ⟨body, after⟩ := closed
        have hc' := hclose rest
        rw [hc] at hc'
        have hrest := Place.length_breakList (by simp) ho
        have hafter := Place.length_breakList (by simp) hc
        rw [placeholders_of_closed ho hc, placeholders_of_closed ho' hc',
          ih after.length (by omega) after rfl, List.map_cons]

end Escaped

end Markup

/-! ## Names -/

instance (name : String) : Decidable (IsAttributeName name) :=
  decidable_of_iff (name.toList ≠ [] ∧ name.toList.all isNameChar = true)
    (and_congr_right fun _ => List.all_eq_true)

instance (tag : String) : Decidable (IsTagName tag) :=
  decidable_of_iff
    ((tag.toList.head?.map Char.isAlpha).getD false = true ∧ tag.toList.all isTagChar = true)
    (and_congr_right fun _ => List.all_eq_true)

theorem IsAttributeName.append {name : List Char} {mark : String} (hm : IsAttributeName mark)
    (h : ∀ c ∈ name, isNameChar c = true) : IsAttributeName (mark ++ String.ofList name) := by
  rw [IsAttributeName, String.toList_append, String.toList_ofList]
  exact ⟨fun hnil => hm.1 (List.append_eq_nil_iff.mp hnil).1, List.forall_mem_append.mpr ⟨hm.2, h⟩⟩

/-- The upper-case form of a character of a name can stand in a name. -/
theorem Text.isNameChar_upper {c : Char} (h : isNameChar c = true) :
    ∀ d ∈ Text.upper c, isNameChar d = true := by
  unfold Text.upper
  split
  · rename_i hlt
    have hall : ∀ n < 0x80, isNameChar (Char.ofNat n) = true →
        isNameChar (Char.ofNat n).toUpper = true := by
      decide +kernel
    have hc := hall c.toNat hlt
    rw [Char.ofNat_toNat] at hc
    exact List.forall_mem_singleton.mpr (hc h)
  · split
    · rename_i n parts hfind
      have hall : ∀ e ∈ Text.caseExpansions, ∀ d ∈ e.2, isNameChar (Char.ofNat d) = true := by
        decide +kernel
      exact List.forall_mem_map.mpr (hall _ (List.mem_of_find?_eq_some hfind))
    · split
      · rename_i run hfind
        have hall : ∀ run ∈ Text.caseRuns, ∀ n ∈ List.range' run.first (run.last - run.first + 1),
            isNameChar (Char.ofNat (n + run.shift).toNat) = true := by
          decide +kernel
        have hcontains := List.find?_some hfind
        rw [Text.CaseRun.contains, Bool.and_eq_true, Bool.and_eq_true, decide_eq_true_eq,
          decide_eq_true_eq] at hcontains
        refine List.forall_mem_singleton.mpr
          (hall run (List.mem_of_find?_eq_some hfind) c.toNat ?_)
        rw [List.mem_range'_1]
        omega
      · exact List.forall_mem_singleton.mpr h

theorem Code.mem_of_splitAt {separator : Char} {cs piece : List Char}
    (h : piece ∈ Code.splitAt separator cs) : ∀ c ∈ piece, c ∈ cs := by
  induction cs generalizing piece with
  | nil =>
    rw [Code.splitAt, List.mem_singleton] at h
    subst h
    exact fun c hc => absurd hc List.not_mem_nil
  | cons c cs ih =>
    rw [Code.splitAt] at h
    split at h
    · rw [List.mem_singleton] at h
      subst h
      exact List.forall_mem_singleton.mpr List.mem_cons_self
    · rename_i first pieces hsplit
      have hlater {piece : List Char} (h : piece ∈ first :: pieces) : ∀ d ∈ piece, d ∈ c :: cs :=
        fun d hd => List.mem_cons_of_mem _ (ih (hsplit ▸ h) d hd)
      split at h
      · rcases List.mem_cons.mp h with rfl | h
        · exact fun d hd => absurd hd List.not_mem_nil
        · exact hlater h
      · rcases List.mem_cons.mp h with rfl | h
        · exact List.forall_mem_cons.mpr ⟨List.mem_cons_self, hlater List.mem_cons_self⟩
        · exact hlater (List.mem_cons_of_mem _ h)

theorem Code.isNameChar_capitalize {cs : List Char} (h : ∀ c ∈ cs, isNameChar c = true) :
    ∀ c ∈ Code.capitalize cs, isNameChar c = true := by
  cases cs with
  | nil => exact h
  | cons c cs =>
    rw [List.forall_mem_cons] at h
    exact List.forall_mem_append.mpr ⟨Text.isNameChar_upper h.1, h.2⟩

/-- The name of an event becomes the name of an attribute. -/
theorem Dialect.isAttributeName_event (d : Dialect) {name : String} (h : IsAttributeName name) :
    IsAttributeName (d.eventAttribute name) := by
  cases d with
  | weixin => exact .append (by decide +kernel) fun c hc => h.2 c (List.mem_of_mem_filter hc)
  | alipay =>
    refine .append (by decide +kernel) fun c hc => ?_
    obtain ⟨piece, hpiece, hc⟩ := List.mem_flatMap.mp hc
    refine Code.isNameChar_capitalize (fun c hc => ?_) c hc
    exact h.2 c (Code.mem_of_splitAt hpiece c hc)

/-- Directives have the names of attributes. -/
theorem Dialect.isAttributeName_directive (d : Dialect) {name : String} (h : IsAttributeName name) :
    IsAttributeName (d.directive name) := by
  have hname : name = String.ofList name.toList := String.ofList_toList.symm
  rw [hname]
  cases d with
  | weixin => exact .append (by decide +kernel) h.2
  | alipay => exact .append (by decide +kernel) h.2

end UiTemplate
