import UiTemplate.Expression.Eval
import UiTemplate.Expression.Basic
import UiTemplate.Proofs.Expression.Names
import UiTemplate.Proofs.Json.Record
import UiTemplate.Proofs.Result

/-!
# What an evaluation reads

- `Expr.reads`: the names that the evaluation of an expression may look up.
- `Expr.eval_congr`: scopes in which these names mean the same give the same value.
- `Expr.ofTerm_reads`: the names are among the references of the expression.
- `Expression.render_contextNames`: which names rendered code reads off the context.
- `Expression.eval_reads`: the value depends on these names and on the global names that have no
  value of their own.
-/

namespace UiTemplate

open Script

namespace Expr

mutual

/-- The names that the evaluation of an expression may look up. A call, an arrow function or an
assignment is refused before any name in it is. -/
def reads : Expr → List String
  | .null => []
  | .bool _ => []
  | .number _ => []
  | .str _ => []
  | .template _ holes => readsAll holes
  | .ident name => [name]
  | .member owner key => reads owner ++ reads key
  | .unary _ argument => reads argument
  | .binary _ left right => reads left ++ reads right
  | .logical _ left right => reads left ++ reads right
  | .conditional test consequent alternate => reads test ++ (reads consequent ++ reads alternate)
  | .array items => readsAll items
  | .object fields => readsFields fields
  | .sequence items => readsAll items
  | .call .. => []
  | .arrow .. => []
  | .assign .. => []
  | .update .. => []

/-- The names that the evaluation of expressions may look up. -/
def readsAll : List Expr → List String
  | [] => []
  | e :: rest => reads e ++ readsAll rest

/-- The names that the evaluation of fields may look up. -/
def readsFields : List (String × Expr) → List String
  | [] => []
  | (_, e) :: rest => reads e ++ readsFields rest

end

/-! ## Two scopes -/

section

variable {s s' : Scope}

/-- Names mean the same in two scopes. -/
def MeanAlike (s s' : Scope) (names : List String) : Prop :=
  ∀ name ∈ names, s.lookup name = s'.lookup name

theorem meanAlike_append {ns ns' : List String} :
    MeanAlike s s' (ns ++ ns') ↔ MeanAlike s s' ns ∧ MeanAlike s s' ns' := by
  simp only [MeanAlike, List.forall_mem_append]

mutual

/-- An expression has the same value in scopes in which the names mean the same that it reads. -/
theorem eval_congr (e : Expr) (h : MeanAlike s s' e.reads) : e.eval s = e.eval s' := by
  match e with
  | .null => rfl
  | .bool _ => rfl
  | .number _ => rfl
  | .str _ => rfl
  | .template quasis holes =>
    rw [reads] at h
    rw [eval, eval, evalAll_congr holes h]
  | .ident name =>
    rw [eval, eval, h name (List.mem_singleton_self name)]
  | .member owner key =>
    rw [reads, meanAlike_append] at h
    rw [eval, eval, eval_congr owner h.1, eval_congr key h.2]
  | .unary op argument =>
    rw [reads] at h
    rw [eval, eval, eval_congr argument h]
  | .binary op left right =>
    rw [reads, meanAlike_append] at h
    rw [eval, eval, eval_congr left h.1, eval_congr right h.2]
  | .logical op left right =>
    rw [reads, meanAlike_append] at h
    rw [eval, eval, eval_congr left h.1, eval_congr right h.2]
  | .conditional test consequent alternate =>
    rw [reads, meanAlike_append, meanAlike_append] at h
    rw [eval, eval, eval_congr test h.1, eval_congr consequent h.2.1, eval_congr alternate h.2.2]
  | .array items =>
    rw [reads] at h
    rw [eval, eval, evalAll_congr items h]
  | .object fields =>
    rw [reads] at h
    rw [eval, eval, evalFields_congr fields h]
  | .sequence items =>
    rw [reads] at h
    rw [eval, eval, evalAll_congr items h]
  | .call .. => rw [eval, eval]
  | .arrow .. => rw [eval, eval]
  | .assign .. => rw [eval, eval]
  | .update .. => rw [eval, eval]

theorem evalAll_congr (es : List Expr) (h : MeanAlike s s' (readsAll es)) :
    evalAll s es = evalAll s' es := by
  match es with
  | [] => rfl
  | e :: rest =>
    rw [readsAll, meanAlike_append] at h
    rw [evalAll, evalAll, eval_congr e h.1, evalAll_congr rest h.2]

theorem evalFields_congr (fields : List (String × Expr))
    (h : MeanAlike s s' (readsFields fields)) : evalFields s fields = evalFields s' fields := by
  match fields with
  | [] => rfl
  | (key, e) :: rest =>
    rw [readsFields, meanAlike_append] at h
    rw [evalFields, evalFields, eval_congr e h.1, evalFields_congr rest h.2]

end

end

/-! ## The references -/

/-- The names that are referred to. -/
def named (refs : List Reference) : List String :=
  refs.map Reference.name

theorem named_append (refs refs' : List Reference) :
    named (refs ++ refs') = named refs ++ named refs' :=
  List.map_append

theorem named_asShorthand (refs : List Reference) : named (asShorthand refs) = named refs := by
  unfold asShorthand
  split <;> rfl

theorem reads_append {ns ns' : List String} {refs refs' : List Reference} (h : ns ⊆ named refs)
    (h' : ns' ⊆ named refs') : ns ++ ns' ⊆ named (refs ++ refs') := by
  rw [named_append]
  exact List.append_subset.mpr ⟨List.subset_append_of_subset_left _ h,
    List.subset_append_of_subset_right _ h'⟩

mutual

/-- The names that an evaluation looks up are among the references: no arrow function is entered. -/
theorem ofTerm_reads (t : Term) {e : Expr} {refs : List Reference}
    (h : ofTerm [] t = .ok (e, refs)) : e.reads ⊆ named refs := by
  match t with
  | .null | .bool _ | .number _ | .str _ =>
    rw [ofTerm] at h
    cases h
    exact List.nil_subset _
  | .template quasis holes =>
    rw [ofTerm] at h
    obtain ⟨⟨a, refs⟩, ha, h⟩ := Except.bind_eq_ok.mp h
    cases h
    rw [reads]
    exact ofTerms_reads holes ha
  | .ident name start stop =>
    rw [ofTerm] at h
    cases h
    exact List.Subset.refl _
  | .member owner name =>
    rw [ofTerm] at h
    obtain ⟨⟨a, refs⟩, ha, h⟩ := Except.bind_eq_ok.mp h
    cases h
    rw [reads, reads, List.append_nil]
    exact ofTerm_reads owner ha
  | .index owner key =>
    rw [ofTerm] at h
    obtain ⟨⟨a, refs⟩, ha, h⟩ := Except.bind_eq_ok.mp h
    obtain ⟨⟨b, refs'⟩, hb, h⟩ := Except.bind_eq_ok.mp h
    cases h
    rw [reads]
    exact reads_append (ofTerm_reads owner ha) (ofTerm_reads key hb)
  | .unary op argument =>
    rw [ofTerm] at h
    obtain ⟨⟨a, refs⟩, ha, h⟩ := Except.bind_eq_ok.mp h
    cases h
    rw [reads]
    exact ofTerm_reads argument ha
  | .binary op left right | .logical op left right =>
    rw [ofTerm] at h
    obtain ⟨⟨a, refs⟩, ha, h⟩ := Except.bind_eq_ok.mp h
    obtain ⟨⟨b, refs'⟩, hb, h⟩ := Except.bind_eq_ok.mp h
    cases h
    rw [reads]
    exact reads_append (ofTerm_reads left ha) (ofTerm_reads right hb)
  | .conditional test consequent alternate =>
    rw [ofTerm] at h
    obtain ⟨⟨a, refs⟩, ha, h⟩ := Except.bind_eq_ok.mp h
    obtain ⟨⟨b, refs'⟩, hb, h⟩ := Except.bind_eq_ok.mp h
    obtain ⟨⟨c, refs''⟩, hc, h⟩ := Except.bind_eq_ok.mp h
    cases h
    rw [reads, List.append_assoc]
    exact reads_append (ofTerm_reads test ha)
      (reads_append (ofTerm_reads consequent hb) (ofTerm_reads alternate hc))
  | .paren inner =>
    rw [ofTerm] at h
    exact ofTerm_reads inner h
  | .sequence items =>
    rw [ofTerm] at h
    obtain ⟨⟨a, refs⟩, ha, h⟩ := Except.bind_eq_ok.mp h
    cases h
    rw [reads]
    exact ofTerms_reads items ha
  | .array start elements trailing =>
    rw [ofTerm] at h
    obtain ⟨⟨a, refs⟩, ha, h⟩ := Except.bind_eq_ok.mp h
    cases h
    rw [reads]
    exact ofElements_reads elements ha
  | .object start properties trailing =>
    rw [ofTerm] at h
    obtain ⟨⟨a, refs⟩, ha, h⟩ := Except.bind_eq_ok.mp h
    cases h
    rw [reads]
    exact ofProperties_reads properties ha
  -- Calls, arrow functions, assignments and updates have no value, so that nothing is looked up.
  | .call start callee arguments =>
    rw [ofTerm] at h
    obtain ⟨⟨a, refs⟩, ha, h⟩ := Except.bind_eq_ok.mp h
    obtain ⟨⟨b, refs'⟩, hb, h⟩ := Except.bind_eq_ok.mp h
    cases h
    exact List.nil_subset _
  | .arrow start params body =>
    rw [ofTerm] at h
    split at h
    · cases h
    · obtain ⟨⟨a, refs⟩, ha, h⟩ := Except.bind_eq_ok.mp h
      cases h
      exact List.nil_subset _
  | .assign start plain target value =>
    rw [ofTerm] at h
    split at h
    · obtain ⟨⟨a, refs⟩, ha, h⟩ := Except.bind_eq_ok.mp h
      obtain ⟨⟨b, refs'⟩, hb, h⟩ := Except.bind_eq_ok.mp h
      cases h
      exact List.nil_subset _
    · cases h
  | .update start target =>
    rw [ofTerm] at h
    split at h
    · obtain ⟨⟨a, refs⟩, ha, h⟩ := Except.bind_eq_ok.mp h
      cases h
      exact List.nil_subset _
    · cases h
  | .privateMember start =>
    rw [ofTerm] at h
    cases h
  | .other form start =>
    rw [ofTerm] at h
    cases h

theorem ofTerms_reads (ts : List Term) {es : List Expr} {refs : List Reference}
    (h : ofTerms [] ts = .ok (es, refs)) : readsAll es ⊆ named refs := by
  match ts with
  | [] =>
    rw [ofTerms] at h
    cases h
    exact List.nil_subset _
  | t :: rest =>
    rw [ofTerms] at h
    obtain ⟨⟨a, refs⟩, ha, h⟩ := Except.bind_eq_ok.mp h
    obtain ⟨⟨b, refs'⟩, hb, h⟩ := Except.bind_eq_ok.mp h
    cases h
    rw [readsAll]
    exact reads_append (ofTerm_reads t ha) (ofTerms_reads rest hb)

theorem ofElements_reads {fault : Fault} (elements : List Element) {es : List Expr}
    {refs : List Reference} (h : ofElements [] fault elements = .ok (es, refs)) :
    readsAll es ⊆ named refs := by
  match elements with
  | [] =>
    rw [ofElements] at h
    cases h
    exact List.nil_subset _
  | .item t :: rest =>
    rw [ofElements] at h
    obtain ⟨⟨a, refs⟩, ha, h⟩ := Except.bind_eq_ok.mp h
    obtain ⟨⟨b, refs'⟩, hb, h⟩ := Except.bind_eq_ok.mp h
    cases h
    rw [readsAll]
    exact reads_append (ofTerm_reads t ha) (ofElements_reads rest hb)
  | .spread t :: rest =>
    rw [ofElements] at h
    cases h
  | .hole :: rest =>
    rw [ofElements] at h
    cases h

theorem ofProperties_reads {start : Nat} (properties : List Property)
    {fields : List (String × Expr)} {refs : List Reference}
    (h : ofProperties [] start properties = .ok (fields, refs)) :
    readsFields fields ⊆ named refs := by
  match properties with
  | [] =>
    rw [ofProperties] at h
    cases h
    exact List.nil_subset _
  | .spread t :: rest =>
    rw [ofProperties] at h
    cases h
  | .field key computed method shorthand initialized value :: rest =>
    unfold ofProperties at h
    split at h
    · cases h
    · split at h
      · cases h
      · obtain ⟨⟨a, refs⟩, ha, h⟩ := Except.bind_eq_ok.mp h
        obtain ⟨⟨b, refs'⟩, hb, h⟩ := Except.bind_eq_ok.mp h
        cases h
        have hvalue := ofTerm_reads value ha
        rw [readsFields]
        refine reads_append ?_ (ofProperties_reads rest hb)
        cases shorthand with
        | true => exact (named_asShorthand refs).symm ▸ hvalue
        | false => exact hvalue

end

end Expr

/-! ## Contexts -/

/-- The value of a name is a local or depends on the entry of the context under the name, unless the
name is one of the three constants. -/
theorem Scope.lookup_congr {c c' : Json} {locals : List (String × Json)} {name : String}
    (h : name ∉ locals.map Prod.fst → name ∉ ["undefined", "NaN", "Infinity"] →
      c.get? name = c'.get? name) :
    ((Scope.ofContext c).withLocals locals).lookup name =
      ((Scope.ofContext c').withLocals locals).lookup name := by
  unfold lookup
  dsimp only [withLocals, ofContext]
  rw [List.append_nil]
  cases hlocal : Json.lookup name locals.reverse with
  | some v => rfl
  | none =>
    have hname : name ∉ locals.map Prod.fst := by
      rw [← List.mem_reverse, ← List.map_reverse]
      exact Json.lookup_eq_none_iff.mp hlocal
    by_cases hconstant : name ∈ ["undefined", "NaN", "Infinity"]
    · rcases List.mem_cons.mp hconstant with rfl | hconstant
      · rfl
      · rcases List.mem_cons.mp hconstant with rfl | hconstant
        · rfl
        · obtain rfl := List.mem_singleton.mp hconstant
          rfl
    · rw [h hname hconstant]

namespace Expression

/-- The names that the code of the expression reads off the context: `render` puts the context in
front of these. -/
def contextNames (e : Expression) (locals : List String) : List String :=
  (Expr.named e.refs).filter (isFree locals)

/-- The global names that an evaluation takes from the context all the same: those that are neither
local nor one of the three constants. -/
def strayNames (e : Expression) (locals : List String) : List String :=
  (Expr.named e.refs).filter fun name => globals.contains name && !locals.contains name &&
    !(["undefined", "NaN", "Infinity"].contains name)

/-- These are exactly the names that `render` puts the context in front of: the code is the text of
the expression, in which just the references of these names are replaced, and each of them has
one. -/
theorem render_contextNames (e : Expression) (locals : List String) :
    ∃ (es : List Edit) (tail : List Char), es.map Edit.reference = e.refs ∧
      e.source.toList = es.flatMap (fun d => d.before ++ d.written) ++ tail ∧
      (e.render locals).toList = es.flatMap (fun d => d.before ++
        if d.reference.name ∈ e.contextNames locals then qualified d.reference
        else d.written) ++ tail ∧
      ∀ name ∈ e.contextNames locals, ∃ d ∈ es, d.reference.name = name := by
  have hrefs := edits_references 0 e.source.toList e.refs
  have hmem {d : Edit} (hd : d ∈ (edits 0 e.source.toList e.refs).1) :
      d.reference.name ∈ e.contextNames locals ↔
        ¬(d.reference.name ∈ globals ∨ d.reference.name ∈ locals) := by
    have hnamed : d.reference.name ∈ Expr.named e.refs :=
      List.mem_map_of_mem (hrefs ▸ List.mem_map_of_mem hd)
    rw [← isFree_eq_false_iff, Bool.not_eq_false, contextNames, List.mem_filter]
    exact and_iff_right hnamed
  refine ⟨_, _, hrefs, edits_source 0 _ e.refs, ?_, fun name hname => ?_⟩
  · rw [render, String.toList_ofList, edits_qualify]
    refine congrArg (· ++ _) (List.flatMap_congr fun d hd => ?_)
    by_cases h : d.reference.name ∈ globals ∨ d.reference.name ∈ locals
    · rw [if_pos h, if_neg (fun hfree => (hmem hd).mp hfree h)]
    · rw [if_neg h, if_pos ((hmem hd).mpr h)]
  · obtain ⟨r, hr, rfl⟩ := List.mem_map.mp (List.mem_filter.mp hname).1
    rw [← hrefs] at hr
    obtain ⟨d, hd, rfl⟩ := List.mem_map.mp hr
    exact ⟨d, hd, rfl⟩

/-- A name that is read is looked up in the context only as one of these. -/
theorem mem_contextNames_or_strayNames {e : Expression} {locals : List String} {name : String}
    (h : name ∈ Expr.named e.refs) (hlocal : name ∉ locals)
    (hconstant : name ∉ ["undefined", "NaN", "Infinity"]) :
    name ∈ e.contextNames locals ∨ name ∈ e.strayNames locals := by
  by_cases hglobal : name ∈ globals
  · refine .inr (List.mem_filter.mpr ⟨h, ?_⟩)
    simp only [List.contains_iff_mem.mpr hglobal, List.contains_eq_mem, hlocal, hconstant,
      decide_false, Bool.not_false, Bool.and_self]
  · refine .inl (List.mem_filter.mpr ⟨h, ?_⟩)
    simp only [isFree, List.contains_eq_mem, hglobal, hlocal, decide_false, Bool.not_false,
      Bool.and_self]

/-- What is read as an expression refers to every name that its evaluation looks up. -/
theorem parse_reads {text : String} {e : Expression} (h : parse text = .ok e) :
    e.tree.reads ⊆ Expr.named e.refs := by
  unfold parse at h
  dsimp only at h
  split at h
  · cases h
  · split at h
    · cases h
    · rename_i t hstatements
      split at h
      · cases h
      · rename_i tree refs hterm
        cases h
        exact Expr.ofTerm_reads t hterm
    · cases h

/-- Contexts with the same entries under the names that the code of an expression reads off them
(`render_contextNames`), and under the global names in it without a value of their own, give the
expression the same value. -/
theorem eval_reads {text : String} {e : Expression} (h : parse text = .ok e)
    (locals : List (String × Json)) {c c' : Json}
    (hcontext : ∀ name ∈ e.contextNames (locals.map Prod.fst), c.get? name = c'.get? name)
    (hstray : ∀ name ∈ e.strayNames (locals.map Prod.fst), c.get? name = c'.get? name) :
    e.tree.eval ((Scope.ofContext c).withLocals locals) =
      e.tree.eval ((Scope.ofContext c').withLocals locals) := by
  apply Expr.eval_congr
  intro name hname
  apply Scope.lookup_congr
  intro hlocal hconstant
  rcases mem_contextNames_or_strayNames (parse_reads h hname) hlocal hconstant with hm | hm
  · exact hcontext name hm
  · exact hstray name hm

/-- A name of the context beside a local that hides another one. -/
theorem eval_reads_localBeside :
    ∃ e, parse "[a, i, NaN]" = .ok e ∧ e.contextNames ["i"] = ["a"] ∧ e.strayNames ["i"] = [] ∧
      e.tree.eval ((Scope.ofContext (.obj [("a", .str "x"), ("i", .null)])).withLocals
          [("i", .bool true)]) =
        e.tree.eval ((Scope.ofContext (.obj [("a", .str "x"), ("b", .null)])).withLocals
          [("i", .bool true)]) := by
  let e : Expression := ⟨"[a, i, NaN]", .array [.ident "a", .ident "i", .ident "NaN"],
    [⟨"a", 1, 2, false⟩, ⟨"i", 4, 5, false⟩, ⟨"NaN", 7, 10, false⟩]⟩
  have hparse : parse "[a, i, NaN]" = .ok e := rfl
  have hcontext : e.contextNames ["i"] = ["a"] := by decide
  have hstray : e.strayNames ["i"] = [] := by decide
  refine ⟨e, hparse, hcontext, hstray, eval_reads hparse _ ?_ ?_⟩
  · rw [List.map_singleton, hcontext]
    intro name hname
    obtain rfl := List.mem_singleton.mp hname
    rfl
  · rw [List.map_singleton, hstray]
    exact nofun

/-- A global name is looked up in the context, off which no code reads it. -/
theorem not_eval_reads_global :
    ∃ e, parse "Math" = .ok e ∧ e.contextNames [] = [] ∧
      e.tree.eval (Scope.ofContext (.obj [("Math", .bool true)])) ≠
        e.tree.eval (Scope.ofContext (.obj [])) := by
  refine ⟨⟨"Math", .ident "Math", [⟨"Math", 0, 4, false⟩]⟩, rfl, by decide, ?_⟩
  have hread : Expr.eval (Scope.ofContext (.obj [("Math", .bool true)])) (.ident "Math") =
      .ok (.bool true) := rfl
  have hmissing : Expr.eval (Scope.ofContext (.obj [])) (.ident "Math") = .ok .null := rfl
  rw [hread, hmissing]
  exact nofun

end Expression

end UiTemplate
