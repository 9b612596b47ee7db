import UiTemplate.Expression.Basic
import UiTemplate.Proofs.Result

/-!
# Names in expressions

- `Script.Term.names`: the names that a term refers to things by, with the arrow functions around
  them taken into account.
- `Expr.ofTerm_refs`: the references of an expression are the names that no arrow function binds.
- `Expression.render_readsContextBut`: the code of an expression is its text, with those names read
  off the context that are neither global nor local.
-/

namespace UiTemplate

namespace Script

/-- A name in a term: its place in the text of the expression, and whether it is a parameter of an
arrow function around it. -/
structure NameAt where
  name : String
  start : Nat
  stop : Nat
  bound : Bool

mutual

/-- The names in a term, in the order in which they are written. `bound` holds the parameters of the
arrow functions around the term. -/
def Term.names (bound : List String) : Term → List NameAt
  | .null => []
  | .bool _ => []
  | .number _ => []
  | .str _ => []
  | .template _ holes => Term.namesAll bound holes
  | .ident name start stop => [⟨name, start - 1, stop - 1, bound.contains name⟩]
  | .member owner _ => Term.names bound owner
  | .index owner key => Term.names bound owner ++ Term.names bound key
  | .privateMember _ => []
  | .unary _ argument => Term.names bound argument
  | .binary _ left right => Term.names bound left ++ Term.names bound right
  | .logical _ left right => Term.names bound left ++ Term.names bound right
  | .conditional test consequent alternate =>
    Term.names bound test ++ Term.names bound consequent ++ Term.names bound alternate
  | .paren inner => Term.names bound inner
  | .sequence items => Term.namesAll bound items
  | .array _ elements _ => Element.namesAll bound elements
  | .object _ properties _ => Property.namesAll bound properties
  | .call _ callee arguments => Term.names bound callee ++ Element.namesAll bound arguments
  | .arrow _ params body => Statement.namesAll (params.filterMap id ++ bound) body
  | .assign _ _ target value => Term.names bound target ++ Term.names bound value
  | .update _ target => Term.names bound target
  | .other _ _ => []

/-- The names in terms. -/
def Term.namesAll (bound : List String) : List Term → List NameAt
  | [] => []
  | t :: rest => Term.names bound t ++ Term.namesAll bound rest

/-- The names in items. -/
def Element.namesAll (bound : List String) : List Element → List NameAt
  | [] => []
  | .item t :: rest => Term.names bound t ++ Element.namesAll bound rest
  | .spread t :: rest => Term.names bound t ++ Element.namesAll bound rest
  | .hole :: rest => Element.namesAll bound rest

/-- The names in the values of properties. -/
def Property.namesAll (bound : List String) : List Property → List NameAt
  | [] => []
  | .spread t :: rest => Term.names bound t ++ Property.namesAll bound rest
  | .field _ _ _ _ _ value :: rest => Term.names bound value ++ Property.namesAll bound rest

/-- The names in statements. -/
def Statement.namesAll (bound : List String) : List Statement → List NameAt
  | [] => []
  | .expression t :: rest => Term.names bound t ++ Statement.namesAll bound rest
  | .ret (some t) :: rest => Term.names bound t ++ Statement.namesAll bound rest
  | .ret none :: rest => Statement.namesAll bound rest
  | .other :: rest => Statement.namesAll bound rest

end

end Script

open Script

/-! ## References -/

/-- The name of a reference with its place. -/
def Reference.place (r : Reference) : String × Nat × Nat :=
  (r.name, r.start, r.stop)

/-- The names that no arrow function binds, with their places. -/
def freePlaces (names : List NameAt) : List (String × Nat × Nat) :=
  (names.filter fun n => !n.bound).map fun n => (n.name, n.start, n.stop)

theorem freePlaces_append (ns ns' : List NameAt) :
    freePlaces (ns ++ ns') = freePlaces ns ++ freePlaces ns' := by
  rw [freePlaces, List.filter_append, List.map_append]
  rfl

namespace Expr

/-- The references are the names that no arrow function binds. -/
def AreFree (refs : List Reference) (names : List NameAt) : Prop :=
  refs.map Reference.place = freePlaces names

theorem AreFree.nil : AreFree [] [] := rfl

theorem AreFree.append {refs refs' : List Reference} {ns ns' : List NameAt} (h : AreFree refs ns)
    (h' : AreFree refs' ns') : AreFree (refs ++ refs') (ns ++ ns') := by
  rw [AreFree, List.map_append, freePlaces_append, h, h']

theorem AreFree.asShorthand {refs : List Reference} {ns : List NameAt} (h : AreFree refs ns) :
    AreFree (asShorthand refs) ns := by
  rw [AreFree] at h ⊢
  rw [← h]
  unfold Expr.asShorthand
  split <;> rfl

theorem referenceAt_areFree (bound : List String) (name : String) (start stop : Nat) :
    AreFree (referenceAt bound name start stop)
      [⟨name, start - 1, stop - 1, bound.contains name⟩] := by
  unfold referenceAt
  cases h : bound.contains name <;> simp [AreFree, freePlaces, Reference.place]

theorem filterMap_id_of_mapM {params : List (Option String)} {names : List String}
    (h : params.mapM id = some names) : params.filterMap id = names := by
  induction params generalizing names with
  | nil =>
    cases h
    rfl
  | cons p params ih =>
    rw [List.mapM_cons] at h
    obtain ⟨name, hname, h⟩ := Option.bind_eq_some_iff.mp h
    obtain ⟨more, hmore, h⟩ := Option.bind_eq_some_iff.mp h
    cases h
    obtain rfl : p = some name := hname
    rw [List.filterMap_cons_some (f := id) rfl, ih hmore]

mutual

/-- The references of an expression are the names in the term that no arrow function binds. -/
theorem ofTerm_refs {bound : List String} (t : Term) {e : Expr} {refs : List Reference}
    (h : ofTerm bound t = .ok (e, refs)) : AreFree refs (t.names bound) := by
  match t with
  | .null =>
    rw [ofTerm] at h
    cases h
    exact .nil
  | .bool _ =>
    rw [ofTerm] at h
    cases h
    exact .nil
  | .number _ =>
    rw [ofTerm] at h
    cases h
    exact .nil
  | .str _ =>
    rw [ofTerm] at h
    cases h
    exact .nil
  | .template quasis holes =>
    rw [ofTerm] at h
    obtain ⟨⟨a, refs⟩, ha, h⟩ := Except.bind_eq_ok.mp h
    cases h
    exact ofTerms_refs holes ha
  | .ident name start stop =>
    rw [ofTerm] at h
    cases h
    exact referenceAt_areFree bound name start stop
  | .member owner name =>
    rw [ofTerm] at h
    obtain ⟨⟨a, refs⟩, ha, h⟩ := Except.bind_eq_ok.mp h
    cases h
    exact ofTerm_refs owner ha
  | .index owner key =>
    rw [ofTerm] at h
    obtain ⟨⟨a, refs⟩, ha, h⟩ := Except.bind_eq_ok.mp h
    obtain ⟨⟨b, refs'⟩, hb, h⟩ := Except.bind_eq_ok.mp h
    cases h
    exact (ofTerm_refs owner ha).append (ofTerm_refs key hb)
  | .unary op argument =>
    rw [ofTerm] at h
    obtain ⟨⟨a, refs⟩, ha, h⟩ := Except.bind_eq_ok.mp h
    cases h
    exact ofTerm_refs argument ha
  | .binary op left right =>
    rw [ofTerm] at h
    obtain ⟨⟨a, refs⟩, ha, h⟩ := Except.bind_eq_ok.mp h
    obtain ⟨⟨b, refs'⟩, hb, h⟩ := Except.bind_eq_ok.mp h
    cases h
    exact (ofTerm_refs left ha).append (ofTerm_refs right hb)
  | .logical op left right =>
    rw [ofTerm] at h
    obtain ⟨⟨a, refs⟩, ha, h⟩ := Except.bind_eq_ok.mp h
    obtain ⟨⟨b, refs'⟩, hb, h⟩ := Except.bind_eq_ok.mp h
    cases h
    exact (ofTerm_refs left ha).append (ofTerm_refs right hb)
  | .conditional test consequent alternate =>
    rw [ofTerm] at h
    obtain ⟨⟨a, refs⟩, ha, h⟩ := Except.bind_eq_ok.mp h
    obtain ⟨⟨b, refs'⟩, hb, h⟩ := Except.bind_eq_ok.mp h
    obtain ⟨⟨c, refs''⟩, hc, h⟩ := Except.bind_eq_ok.mp h
    cases h
    exact ((ofTerm_refs test ha).append (ofTerm_refs consequent hb)).append
      (ofTerm_refs alternate hc)
  | .paren inner =>
    rw [ofTerm] at h
    exact ofTerm_refs inner h
  | .sequence items =>
    rw [ofTerm] at h
    obtain ⟨⟨a, refs⟩, ha, h⟩ := Except.bind_eq_ok.mp h
    cases h
    exact ofTerms_refs items ha
  | .array start elements trailing =>
    rw [ofTerm] at h
    obtain ⟨⟨a, refs⟩, ha, h⟩ := Except.bind_eq_ok.mp h
    cases h
    exact ofElements_refs elements ha
  | .object start properties trailing =>
    rw [ofTerm] at h
    obtain ⟨⟨a, refs⟩, ha, h⟩ := Except.bind_eq_ok.mp h
    cases h
    exact ofProperties_refs properties ha
  | .call start callee arguments =>
    rw [ofTerm] at h
    obtain ⟨⟨a, refs⟩, ha, h⟩ := Except.bind_eq_ok.mp h
    obtain ⟨⟨b, refs'⟩, hb, h⟩ := Except.bind_eq_ok.mp h
    cases h
    exact (ofTerm_refs callee ha).append (ofElements_refs arguments hb)
  | .arrow start params body =>
    rw [ofTerm] at h
    split at h
    · cases h
    · rename_i names hnames
      obtain ⟨⟨a, refs⟩, ha, h⟩ := Except.bind_eq_ok.mp h
      cases h
      -- The parameters are bound in the body only, and all of them are names: an arrow with another
      -- parameter was refused above.
      rw [Term.names, filterMap_id_of_mapM hnames]
      exact ofStatements_refs body ha
  | .assign start plain target value =>
    rw [ofTerm] at h
    split at h
    · obtain ⟨⟨a, refs⟩, ha, h⟩ := Except.bind_eq_ok.mp h
      obtain ⟨⟨b, refs'⟩, hb, h⟩ := Except.bind_eq_ok.mp h
      cases h
      exact (ofTerm_refs target ha).append (ofTerm_refs value hb)
    · cases h
  | .update start target =>
    rw [ofTerm] at h
    split at h
    · obtain ⟨⟨a, refs⟩, ha, h⟩ := Except.bind_eq_ok.mp h
      cases h
      exact ofTerm_refs target ha
    · cases h
  -- Terms that are only read so that they can be refused.
  | .privateMember start =>
    rw [ofTerm] at h
    cases h
  | .other form start =>
    rw [ofTerm] at h
    cases h

theorem ofTerms_refs {bound : List String} (ts : List Term) {es : List Expr}
    {refs : List Reference} (h : ofTerms bound ts = .ok (es, refs)) :
    AreFree refs (Term.namesAll bound ts) := by
  match ts with
  | [] =>
    rw [ofTerms] at h
    cases h
    exact .nil
  | t :: rest =>
    rw [ofTerms] at h
    obtain ⟨⟨a, refs⟩, ha, h⟩ := Except.bind_eq_ok.mp h
    obtain ⟨⟨b, refs'⟩, hb, h⟩ := Except.bind_eq_ok.mp h
    cases h
    exact (ofTerm_refs t ha).append (ofTerms_refs rest hb)

theorem ofElements_refs {bound : List String} {fault : Fault} (elements : List Element)
    {es : List Expr} {refs : List Reference}
    (h : ofElements bound fault elements = .ok (es, refs)) :
    AreFree refs (Element.namesAll bound elements) := by
  match elements with
  | [] =>
    rw [ofElements] at h
    cases h
    exact .nil
  | .item t :: rest =>
    rw [ofElements] at h
    obtain ⟨⟨a, refs⟩, ha, h⟩ := Except.bind_eq_ok.mp h
    obtain ⟨⟨b, refs'⟩, hb, h⟩ := Except.bind_eq_ok.mp h
    cases h
    exact (ofTerm_refs t ha).append (ofElements_refs rest hb)
  | .spread t :: rest =>
    rw [ofElements] at h
    cases h
  | .hole :: rest =>
    rw [ofElements] at h
    cases h

theorem ofProperties_refs {bound : List String} {start : Nat} (properties : List Property)
    {fields : List (String × Expr)} {refs : List Reference}
    (h : ofProperties bound start properties = .ok (fields, refs)) :
    AreFree refs (Property.namesAll bound properties) := by
  match properties with
  | [] =>
    rw [ofProperties] at h
    cases h
    exact .nil
  | .spread t :: rest =>
    rw [ofProperties] at h
    cases h
  | .field key computed method shorthand initialized value :: rest =>
    unfold ofProperties at h
    split at h
    · cases h
    · split at h
      · cases h
      · obtain ⟨⟨a, refs⟩, ha, h⟩ := Except.bind_eq_ok.mp h
        obtain ⟨⟨b, refs'⟩, hb, h⟩ := Except.bind_eq_ok.mp h
        cases h
        have hvalue := ofTerm_refs value ha
        refine AreFree.append ?_ (ofProperties_refs rest hb)
        cases shorthand with
        | true => exact hvalue.asShorthand
        | false => exact hvalue

theorem ofStatements_refs {bound : List String} {fault : Fault} (statements : List Statement)
    {es : List Expr} {refs : List Reference}
    (h : ofStatements bound fault statements = .ok (es, refs)) :
    AreFree refs (Statement.namesAll bound statements) := by
  match statements with
  | [] =>
    rw [ofStatements] at h
    cases h
    exact .nil
  | .expression t :: rest =>
    rw [ofStatements] at h
    obtain ⟨⟨a, refs⟩, ha, h⟩ := Except.bind_eq_ok.mp h
    obtain ⟨⟨b, refs'⟩, hb, h⟩ := Except.bind_eq_ok.mp h
    cases h
    exact (ofTerm_refs t ha).append (ofStatements_refs rest hb)
  | .ret (some t) :: rest =>
    rw [ofStatements] at h
    obtain ⟨⟨a, refs⟩, ha, h⟩ := Except.bind_eq_ok.mp h
    obtain ⟨⟨b, refs'⟩, hb, h⟩ := Except.bind_eq_ok.mp h
    cases h
    exact (ofTerm_refs t ha).append (ofStatements_refs rest hb)
  | .ret none :: rest =>
    rw [ofStatements] at h
    obtain ⟨⟨a, refs⟩, ha, h⟩ := Except.bind_eq_ok.mp h
    cases h
    exact ofStatements_refs rest ha
  | .other :: rest =>
    rw [ofStatements] at h
    cases h

end

end Expr

/-! ## Rendering -/

namespace Expression

/-- A reference in a text: what is before it and behind the one before, and how it is written. -/
structure Edit where
  before : List Char
  written : List Char
  reference : Reference

/-- The text from byte `pos` on, cut at its references, and what is behind the last one. -/
def edits (pos : Nat) (cs : List Char) : List Reference → List Edit × List Char
  | [] => ([], cs)
  | r :: refs =>
    let (before, rest) := Text.splitBytes (r.start - pos) cs
    let (written, rest) := Text.splitBytes (r.stop - r.start) rest
    let (more, tail) := edits r.stop rest refs
    (⟨before, written, r⟩ :: more, tail)

/-- The code of an expression is its text, in which the names are read off the context that no arrow
function binds and that are neither global nor among `locals`. -/
def ReadsContextBut (e : Expression) (locals : List String) (code : String) : Prop :=
  ∃ (t : Term) (es : List Edit) (tail : List Char),
    statements? ('(' :: (e.source.toList ++ [')'])) = some [.expression t] ∧
    (es.map (·.reference.place)) = freePlaces (t.names []) ∧
    e.source.toList = es.flatMap (fun d => d.before ++ d.written) ++ tail ∧
    code.toList = es.flatMap (fun d => d.before ++
      if d.reference.name ∈ globals ∨ d.reference.name ∈ locals then d.written
      else qualified d.reference) ++ tail

theorem isFree_eq_false_iff {locals : List String} {name : String} :
    isFree locals name = false ↔ name ∈ globals ∨ name ∈ locals := by
  rw [Decidable.or_iff_not_imp_left]
  simp [isFree]

theorem edits_references (pos : Nat) (cs : List Char) (refs : List Reference) :
    (edits pos cs refs).1.map Edit.reference = refs := by
  induction refs generalizing pos cs with
  | nil => rfl
  | cons r refs ih => exact congrArg (r :: ·) (ih ..)

theorem edits_source (pos : Nat) (cs : List Char) (refs : List Reference) :
    cs = (edits pos cs refs).1.flatMap (fun d => d.before ++ d.written) ++
      (edits pos cs refs).2 := by
  induction refs generalizing pos cs with
  | nil => rfl
  | cons r refs ih =>
    have hbefore := Text.splitBytes_append (r.start - pos) cs
    have hwritten :=
      Text.splitBytes_append (r.stop - r.start) (Text.splitBytes (r.start - pos) cs).2
    rw [edits, List.flatMap_cons, List.append_assoc, List.append_assoc, ← ih, hwritten, hbefore]

theorem edits_qualify (locals : List String) (pos : Nat) (cs : List Char) (refs : List Reference) :
    qualify locals pos cs refs =
      (edits pos cs refs).1.flatMap (fun d => d.before ++
        if d.reference.name ∈ globals ∨ d.reference.name ∈ locals then d.written
        else qualified d.reference) ++ (edits pos cs refs).2 := by
  induction refs generalizing pos cs with
  | nil => rfl
  | cons r refs ih =>
    have hchoice (written : List Char) :
        (if isFree locals r.name then qualified r else written) =
          if r.name ∈ globals ∨ r.name ∈ locals then written else qualified r := by
      by_cases h : r.name ∈ globals ∨ r.name ∈ locals
      · rw [if_pos h, if_neg (by simp [isFree_eq_false_iff.mpr h])]
      · rw [if_neg h, if_pos (by simpa using mt isFree_eq_false_iff.mp h)]
    rw [qualify, edits, List.flatMap_cons]
    dsimp only
    rw [ih, hchoice]
    simp only [List.append_assoc]

theorem qualify_congr {locals locals' : List String} {refs : List Reference}
    (h : ∀ r ∈ refs, r.name ∈ locals ↔ r.name ∈ locals') (pos : Nat) (cs : List Char) :
    qualify locals pos cs refs = qualify locals' pos cs refs := by
  induction refs generalizing pos cs with
  | nil => rfl
  | cons r refs ih =>
    obtain ⟨hr, hrest⟩ := List.forall_mem_cons.mp h
    have hfree : isFree locals r.name = isFree locals' r.name := by simp [isFree, hr]
    rw [qualify, qualify, hfree]
    simp only [ih hrest]

/-- Only the names matter that the expression refers to. -/
theorem render_congr {e : Expression} {locals locals' : List String}
    (h : ∀ r ∈ e.refs, r.name ∈ locals ↔ r.name ∈ locals') :
    e.render locals = e.render locals' := by
  rw [render, render, qualify_congr h]

/-- The code of an expression that was read from a text. -/
theorem render_readsContextBut {text : String} {e : Expression} (h : parse text = .ok e)
    (locals : List String) : e.ReadsContextBut locals (e.render locals) := by
  unfold parse at h
  dsimp only at h
  split at h
  · cases h
  · split at h
    · cases h
    · rename_i t hstatements
      split at h
      · cases h
      · rename_i tree refs hterm
        cases h
        refine ⟨t, _, _, ?_, ?_, edits_source 0 _ refs, ?_⟩
        · rw [String.toList_ofList]
          exact hstatements
        · show List.map (Reference.place ∘ Edit.reference) _ = _
          rw [← List.map_map, edits_references]
          exact Expr.ofTerm_refs t hterm
        · rw [render, String.toList_ofList]
          exact edits_qualify locals 0 _ refs
    · cases h

end Expression

end UiTemplate
