import UiTemplate.Binding.Render
import UiTemplate.Proofs.Template.Sites

/-!
# Code that has the texts of expressions

- `Code.Apart`: no name goes on from one text into the next.
- `Quotes`, `QuotesEach`: texts stand in code, or in pieces of code, one behind the other, and none
  of them is a part of a longer name.
- `Quoting`: which expressions of a template are quoted by code, and by which texts.
- `Quoting.Has`, `Quoting.HasEach`: code, or pieces of code, that quote expressions; with one lemma
  for each way in which code is put together.
-/

namespace UiTemplate

/-! ## Seams -/

namespace Code

open Text

/-- The text does not end in a name, nor in a dot that a name goes on from. -/
def closes (code : String) : Bool :=
  code.toList.getLast?.any fun c => !(isIdentPart c || c == '.')

/-- The text does not begin with a name. -/
def opens (code : String) : Bool :=
  code.toList.head?.any fun c => !isIdentPart c

/-- No name, and no dot before a name, goes on from one text into the next. -/
def Apart (before after : String) : Prop :=
  ∀ c ∈ before.toList.getLast?, ∀ d ∈ after.toList.head?,
    (isIdentPart c || c == '.') = true → isIdentPart d = false

variable {code code' text : String} {codes : List String}

/-- How a text ends is how its last part does. -/
theorem closes_append (code : String) (h : closes code' = true) : closes (code ++ code') = true := by
  rw [closes, String.toList_append, List.getLast?_append_of_ne_nil]
  · exact h
  · rintro hnil
    rw [closes, hnil] at h
    cases h

/-- How a text begins is how its first part does. -/
theorem opens_append (h : opens code = true) (code' : String) : opens (code ++ code') = true := by
  rw [opens, String.toList_append, List.head?_append_of_ne_nil]
  · exact h
  · rintro hnil
    rw [opens, hnil] at h
    cases h

namespace Apart

theorem of_closes (h : closes code = true) (code' : String) : Apart code code' := by
  intro c hc d _ hjoins
  rw [closes, hc, Option.any_some, hjoins] at h
  cases h

theorem of_opens (code : String) (h : opens code' = true) : Apart code code' := by
  intro c _ d hd _
  rw [opens, hd] at h
  simpa using h

theorem of_empty (code : String) : Apart "" code :=
  nofun

theorem empty (code : String) : Apart code "" :=
  nofun

/-- Blanks stand apart from all that is behind them. -/
theorem indent (level : Nat) (code : String) : Apart (indent level) code := by
  intro c hc d _ hjoins
  rw [Code.indent, String.toList_ofList] at hc
  obtain rfl := List.eq_of_mem_replicate (List.mem_of_getLast? hc)
  cases hjoins

theorem of_append_left (h : Apart (code ++ code') text) : Apart code' text := by
  intro c hc
  refine h c ?_
  rw [Option.mem_def] at hc
  rw [String.toList_append, List.getLast?_append, hc]
  rfl

/-- Behind a text stands what is put behind all the code that it ends, or the rest of the code. -/
theorem append_right {more : String} (h : Apart text code') (hseam : Apart (code ++ text ++ code') more) :
    Apart text (code' ++ more) := by
  intro c hc d hd
  rw [String.toList_append, List.head?_append] at hd
  cases hcode : code'.toList with
  | nil =>
    rw [hcode] at hd
    refine hseam c ?_ d hd
    rw [Option.mem_def] at hc
    rw [String.toList_append, String.toList_append, hcode, List.append_nil, List.getLast?_append, hc]
    rfl
  | cons first rest =>
    refine h c hc d ?_
    rw [hcode] at hd ⊢
    exact hd

/-- Before a text stands what is put before all the code that it begins, or the rest of the code. -/
theorem append_left {more : String} (h : Apart code text) (hseam : Apart more (code ++ text ++ code')) :
    Apart (more ++ code) text := by
  intro c hc d hd
  rw [String.toList_append, List.getLast?_append] at hc
  cases hcode : code.toList.getLast? with
  | none =>
    rw [hcode] at hc
    refine hseam c hc d ?_
    rw [Option.mem_def] at hd
    rw [String.toList_append, String.toList_append, List.getLast?_eq_none_iff.mp hcode,
      List.nil_append, List.head?_append, hd]
    rfl
  | some last =>
    refine h c ?_ d hd
    rw [hcode] at hc ⊢
    exact hc

/-- Pieces of code, none of which ends in a name. -/
theorem join (h : ∀ code ∈ codes, closes code = true) (code' : String) :
    Apart (String.join codes) code' := by
  suffices hcloses : codes ≠ [] → closes (String.join codes) = true by
    cases codes with
    | nil => exact of_empty code'
    | cons code codes => exact of_closes (hcloses (List.cons_ne_nil code codes)) code'
  induction codes with
  | nil => exact nofun
  | cons code codes ih =>
    intro _
    obtain ⟨hfirst, hrest⟩ := List.forall_mem_cons.mp h
    rw [String.join_cons]
    cases codes with
    | nil => exact (String.append_empty (s := code)).symm ▸ hfirst
    | cons next codes => exact closes_append code (ih hrest (List.cons_ne_nil next codes))

end Apart

end Code

open Code

/-- The texts stand in the code one behind the other, each apart from what is around it. -/
def Quotes (code : String) : List String → Prop
  | [] => True
  | t :: ts => ∃ before after, code = before ++ t ++ after ∧ Apart before t ∧ Apart t after ∧
      Quotes after ts

namespace Quotes

variable {code code' : String} {ts ts' : List String}

/-- A text is quoted by itself. -/
theorem text (t : String) : Quotes t [t] :=
  ⟨"", "", by simp, .of_empty t, .empty t, trivial⟩

/-- Code in front of a piece only has to stand apart from that. -/
theorem prepend (h : Quotes code ts) (before : String) (hseam : Apart before code) :
    Quotes (before ++ code) ts := by
  cases ts with
  | nil => trivial
  | cons t ts =>
    obtain ⟨more, after, rfl, hbefore, hafter, hrest⟩ := h
    exact ⟨before ++ more, after, by simp only [String.append_assoc], hbefore.append_left hseam,
      hafter, hrest⟩

/-- Two pieces quote one behind the other what each of them quotes. -/
theorem append (h : Quotes code ts) (h' : Quotes code' ts') (hseam : Apart code code') :
    Quotes (code ++ code') (ts ++ ts') := by
  induction ts generalizing code with
  | nil => exact h'.prepend code hseam
  | cons t ts ih =>
    obtain ⟨before, after, rfl, hbefore, hafter, hrest⟩ := h
    exact ⟨before, after ++ code', by simp only [String.append_assoc], hbefore,
      hafter.append_right hseam, ih hrest hseam.of_append_left⟩

theorem follow (h : Quotes code ts) (after : String) (hseam : Apart code after) :
    Quotes (code ++ after) ts := by
  have hnone : Quotes after [] := trivial
  simpa using h.append hnone hseam

end Quotes

/-- The texts of some expressions stand in the pieces of code one behind the other. -/
inductive QuotesEach (text : Site → String) : List String → List Site → Prop where
  | nil : QuotesEach text [] []
  | cons {code : String} {codes : List String} {qs qs' : List Site}
      (first : Quotes code (qs.map text)) (rest : QuotesEach text codes qs') :
      QuotesEach text (code :: codes) (qs ++ qs')

namespace QuotesEach

variable {text : Site → String} {codes codes' : List String} {qs qs' : List Site}

theorem append (h : QuotesEach text codes qs) (h' : QuotesEach text codes' qs') :
    QuotesEach text (codes ++ codes') (qs ++ qs') := by
  induction h with
  | nil => exact h'
  | cons first _ ih =>
    rw [List.cons_append, List.append_assoc]
    exact .cons first ih

theorem plain (codes : List String) : QuotesEach text codes [] := by
  induction codes with
  | nil => exact .nil
  | cons code codes ih =>
    have hnone : Quotes code (([] : List Site).map text) := trivial
    exact .cons hnone ih

theorem map {f : String → String} (hf : ∀ {code ts}, Quotes code ts → Quotes (f code) ts)
    (h : QuotesEach text codes qs) : QuotesEach text (codes.map f) qs := by
  induction h with
  | nil => exact .nil
  | cons first _ ih => exact .cons (hf first) ih

/-- Pieces of which none ends in a name. -/
theorem join (h : QuotesEach text codes qs) (hcloses : ∀ code ∈ codes, closes code = true) :
    Quotes (String.join codes) (qs.map text) := by
  induction h with
  | nil => trivial
  | cons first _ ih =>
    obtain ⟨hfirst, hrest⟩ := List.forall_mem_cons.mp hcloses
    rw [String.join_cons, List.map_append]
    exact first.append (ih hrest) (.of_closes hfirst _)

/-- Pieces with a separator between them that is no part of a name. -/
theorem intercalate (h : QuotesEach text codes qs) (separator : String)
    (hopens : opens separator = true) (hcloses : closes separator = true) :
    Quotes (separator.intercalate codes) (qs.map text) := by
  induction h with
  | nil => trivial
  | @cons code codes qs qs' first rest ih =>
    rw [List.map_append]
    cases codes with
    | nil =>
      rw [String.intercalate_singleton]
      cases rest
      rwa [List.map_nil, List.append_nil]
    | cons next codes =>
      rw [String.intercalate_cons_cons, String.append_assoc]
      exact first.append (ih.prepend _ (.of_closes hcloses _)) (.of_opens _ (opens_append hopens _))

/-- The order of the pieces only matters for the order of what they quote. -/
theorem perm (hp : codes.Perm codes') (h : QuotesEach text codes qs) :
    ∃ qs', qs.Perm qs' ∧ QuotesEach text codes' qs' := by
  induction hp generalizing qs with
  | nil => exact ⟨qs, .refl qs, h⟩
  | cons code _ ih =>
    cases h with
    | cons first rest =>
      obtain ⟨qs', hperm, hrest⟩ := ih rest
      exact ⟨_, hperm.append_left _, .cons first hrest⟩
  | swap code code' codes =>
    cases h with
    | cons first rest =>
      cases rest with
      | cons second rest =>
        refine ⟨_, ?_, .cons second (.cons first rest)⟩
        rw [← List.append_assoc, ← List.append_assoc]
        exact List.perm_append_comm.append_right _
  | trans _ _ ih ih' =>
    obtain ⟨qs', hperm, h'⟩ := ih h
    obtain ⟨qs'', hperm', h''⟩ := ih' h'
    exact ⟨qs'', hperm.trans hperm', h''⟩

end QuotesEach

/-- A way to quote expressions: by which text, and which ones where those of a part of a template
are to be quoted. Two parts one behind the other are quoted one behind the other. -/
structure Quoting where
  text : Site → String
  chosen : List Site → List Site → Prop
  all : ∀ ss, chosen ss ss
  append : ∀ {ss ss' qs qs'}, chosen ss qs → chosen ss' qs' → chosen (ss ++ ss') (qs ++ qs')

namespace Quoting

variable {q : Quoting} {code code' : String} {codes codes' : List String} {ss ss' : List Site}

/-- The code quotes what is to be quoted of the expressions. -/
def Has (q : Quoting) (code : String) (ss : List Site) : Prop :=
  ∃ quoted, q.chosen ss quoted ∧ Quotes code (quoted.map q.text)

/-- The pieces of code, one behind the other, quote what is to be quoted of the expressions. -/
def HasEach (q : Quoting) (codes : List String) (ss : List Site) : Prop :=
  ∃ quoted, q.chosen ss quoted ∧ QuotesEach q.text codes quoted

namespace Has

theorem plain (q : Quoting) (code : String) : q.Has code [] :=
  ⟨[], q.all [], trivial⟩

/-- The text of an expression quotes it. -/
theorem site (q : Quoting) (s : Site) : q.Has (q.text s) [s] :=
  ⟨[s], q.all [s], .text (q.text s)⟩

theorem append (h : q.Has code ss) (h' : q.Has code' ss') (hseam : Apart code code') :
    q.Has (code ++ code') (ss ++ ss') := by
  obtain ⟨qs, hc, hq⟩ := h
  obtain ⟨qs', hc', hq'⟩ := h'
  refine ⟨qs ++ qs', q.append hc hc', ?_⟩
  rw [List.map_append]
  exact hq.append hq' hseam

theorem prepend (h : q.Has code ss) (before : String) (hseam : Apart before code) :
    q.Has (before ++ code) ss :=
  (plain q before).append h hseam

theorem follow (h : q.Has code ss) (after : String) (hseam : Apart code after) :
    q.Has (code ++ after) ss := by
  have h' := h.append (plain q after) hseam
  rwa [List.append_nil] at h'

end Has

namespace HasEach

theorem append (h : q.HasEach codes ss) (h' : q.HasEach codes' ss') :
    q.HasEach (codes ++ codes') (ss ++ ss') := by
  obtain ⟨qs, hc, hq⟩ := h
  obtain ⟨qs', hc', hq'⟩ := h'
  exact ⟨qs ++ qs', q.append hc hc', hq.append hq'⟩

theorem plain (q : Quoting) (codes : List String) : q.HasEach codes [] :=
  ⟨[], q.all [], .plain codes⟩

theorem singleton (h : q.Has code ss) : q.HasEach [code] ss := by
  obtain ⟨qs, hc, hq⟩ := h
  have h' := QuotesEach.cons hq .nil
  rw [List.append_nil] at h'
  exact ⟨qs, hc, h'⟩

theorem cons (h : q.Has code ss) (h' : q.HasEach codes ss') :
    q.HasEach (code :: codes) (ss ++ ss') :=
  (singleton h).append h'

theorem imp (h : q.HasEach codes ss) (hc : ∀ quoted, q.chosen ss quoted → q.chosen ss' quoted) :
    q.HasEach codes ss' := by
  obtain ⟨qs, hqs, hq⟩ := h
  exact ⟨qs, hc qs hqs, hq⟩

theorem join (h : q.HasEach codes ss) (hcloses : ∀ code ∈ codes, closes code = true) :
    q.Has (String.join codes) ss := by
  obtain ⟨qs, hc, hq⟩ := h
  exact ⟨qs, hc, hq.join hcloses⟩

theorem intercalate (h : q.HasEach codes ss) (separator : String)
    (hopens : opens separator = true) (hcloses : closes separator = true) :
    q.Has (separator.intercalate codes) ss := by
  obtain ⟨qs, hc, hq⟩ := h
  exact ⟨qs, hc, hq.intercalate separator hopens hcloses⟩

/-- Lines of code, each behind some blanks. -/
theorem lines (level : Nat) (h : q.HasEach codes ss) :
    q.Has (",\n".intercalate (codes.map fun code => Code.indent level ++ code)) ss := by
  obtain ⟨qs, hc, hq⟩ := h
  have hlines := hq.map fun hcode => hcode.prepend _ (.indent level _)
  exact ⟨qs, hc, hlines.intercalate _ (by decide) (by decide)⟩

end HasEach

/-! ## Calls and literals -/

/-- Arguments in parentheses. -/
theorem Has.arguments (callee : String) {args : List String} (h : q.HasEach args ss) :
    q.Has (callee ++ "(" ++ ", ".intercalate args ++ ")") ss := by
  have hargs : q.Has (", ".intercalate args) ss := h.intercalate _ (by decide) (by decide)
  have hopen : closes (callee ++ "(") = true := closes_append callee (by decide)
  exact (hargs.prepend _ (.of_closes hopen _)).follow _ (.of_opens _ (by decide))

/-- The call of a helper. -/
theorem Has.call (h : Helper) {args : List String} (ha : q.HasEach args ss) :
    q.Has (h.call args) ss :=
  .arguments h.shortName ha

theorem Has.inlineObject {fields : List String} (h : q.HasEach fields ss) :
    q.Has (Code.inlineObject fields) ss := by
  have hfields : q.Has (", ".intercalate fields) ss := h.intercalate _ (by decide) (by decide)
  exact (hfields.prepend _ (.of_closes (by decide) _)).follow _ (.of_opens _ (by decide))

/-- Pieces that have nothing in them quote nothing. -/
theorem HasEach.of_nil (h : q.HasEach [] ss) (code : String) : q.Has code ss := by
  obtain ⟨qs, hc, hq⟩ := h
  cases hq
  exact ⟨[], hc, trivial⟩

/-- A piece that may be missing. -/
theorem HasEach.of_option {piece : Option String} (h : q.HasEach piece.toList ss) (code : String) :
    q.Has (piece.getD code) ss := by
  cases piece with
  | none => exact h.of_nil code
  | some piece =>
    have hcode : q.Has (", ".intercalate [piece]) ss := h.intercalate _ (by decide) (by decide)
    rwa [String.intercalate_singleton] at hcode

/-- Code between an opening mark and a closing one, which stands on a line of its own. -/
theorem Has.enclosed {first last : String} (h : q.Has code ss) (level : Nat)
    (hfirst : closes first = true) (hlast : opens last = true) :
    q.Has (first ++ code ++ "\n" ++ Code.indent level ++ last) ss := by
  have hline : q.Has (first ++ code ++ "\n") ss :=
    (h.prepend _ (.of_closes hfirst _)).follow _ (.of_opens _ (by decide))
  have hnewline : closes (first ++ code ++ "\n") = true := closes_append _ (by decide)
  exact (hline.follow _ (.of_closes hnewline _)).follow _ (.of_opens _ hlast)

/-- An object with one line a field. -/
theorem Has.object (level : Nat) {fields : List String} (h : q.HasEach fields ss) :
    q.Has (Code.object level fields) ss := by
  unfold Code.object
  split
  · rename_i hempty
    rw [List.isEmpty_iff.mp hempty] at h
    exact h.of_nil _
  · exact (h.lines (level + 1)).enclosed level (by decide) (by decide)

/-! ## Outlets -/

section Outlets

variable {loops : List LoopInfo} {locals : List String}

/-- The values that are passed to an outlet. -/
theorem HasEach.outletProps (hq : ∀ e, q.text ⟨e, loops, false⟩ = e.render locals)
    (info : SlotInfo) :
    q.HasEach (info.props.map (OutletProp.render locals)) (info.sites loops) := by
  rw [SlotInfo.props, List.map_append, SlotInfo.sites]
  refine (HasEach.plain q _).append ?_
  induction bindings info.directives with
  | nil => exact HasEach.plain q []
  | cons b bs ih =>
    have hvalue := Has.site q ⟨b.expression, loops, false⟩
    rw [hq] at hvalue
    have hcolon : closes (Code.fieldKey b.name ++ ": ") = true := closes_append _ (by decide)
    exact HasEach.cons (hvalue.prepend _ (.of_closes hcolon _)) ih

/-- The call that asks for the outlet of a slot. -/
theorem Has.outletCall (hq : ∀ e, q.text ⟨e, loops, false⟩ = e.render locals) {info : SlotInfo}
    {call : OutletCall} (hcall : call.props = info.props) :
    q.Has (call.render locals) (info.sites loops) := by
  have hprops : q.Has (call.renderProps locals) (info.sites loops) := by
    have hfields := HasEach.outletProps hq info
    unfold OutletCall.renderProps
    rw [hcall]
    split
    · rename_i hempty
      rw [List.isEmpty_iff.mp hempty] at hfields
      exact hfields.of_nil _
    · exact .inlineObject hfields
  have hpath := HasEach.plain q [(Code.loopPath call.loopPath).getD "null"]
  have hargs := (HasEach.plain q [call.base.render locals]).append
    ((HasEach.singleton hprops).append hpath)
  rw [List.nil_append, List.append_nil] at hargs
  exact .call _ hargs

end Outlets

end Quoting

end UiTemplate
