import UiTemplate.Expression.Expr
import UiTemplate.Script.Grammar.Function

/-!
# The shape of a term

The shape of a term is the term without the places at which its parts stand. What the grammar asks
of a term, and the expression that the term is, depend on the shape alone.

- `Term.target?_of_shape`, `group?_of_shape`, `parameterNames_of_shape`: what the grammar asks.
- `Expr.tree_of_shape`: terms of one shape are the same expression.
-/

namespace UiTemplate.Script

mutual

/-- The term with all places at the beginning of the text. -/
def Term.shape : Term → Term
  | .template quasis holes => .template quasis (termShapes holes)
  | .ident name _ _ => .ident name 0 0
  | .member object name => .member object.shape name
  | .index object property => .index object.shape property.shape
  | .privateMember _ => .privateMember 0
  | .unary op argument => .unary op argument.shape
  | .binary op left right => .binary op left.shape right.shape
  | .logical op left right => .logical op left.shape right.shape
  | .conditional test consequent alternate =>
    .conditional test.shape consequent.shape alternate.shape
  | .paren inner => .paren inner.shape
  | .sequence items => .sequence (termShapes items)
  | .array _ elements trailing => .array 0 (elementShapes elements) trailing
  | .object _ properties trailing => .object 0 (propertyShapes properties) trailing
  | .call _ callee arguments => .call 0 callee.shape (elementShapes arguments)
  | .arrow _ params body => .arrow 0 params (statementShapes body)
  | .assign _ plain target value => .assign 0 plain target.shape value.shape
  | .update _ target => .update 0 target.shape
  | .other form _ => .other form 0
  | .null => .null
  | .bool b => .bool b
  | .number x => .number x
  | .str s => .str s

def termShapes : List Term → List Term
  | [] => []
  | t :: rest => t.shape :: termShapes rest

def Element.shape : Element → Element
  | .item t => .item t.shape
  | .spread t => .spread t.shape
  | .hole => .hole

def elementShapes : List Element → List Element
  | [] => []
  | x :: rest => x.shape :: elementShapes rest

def Property.shape : Property → Property
  | .spread t => .spread t.shape
  | .field key computed method shorthand initialized value =>
    .field key computed method shorthand initialized value.shape

def propertyShapes : List Property → List Property
  | [] => []
  | p :: rest => p.shape :: propertyShapes rest

def Statement.shape : Statement → Statement
  | .expression t => .expression t.shape
  | .ret none => .ret none
  | .ret (some t) => .ret (some t.shape)
  | .other => .other

def statementShapes : List Statement → List Statement
  | [] => []
  | s :: rest => s.shape :: statementShapes rest

end

@[simp]
theorem termShapes_eq_map (ts : List Term) : termShapes ts = ts.map Term.shape := by
  induction ts with
  | nil => rfl
  | cons t ts ih => rw [termShapes, ih, List.map_cons]

@[simp]
theorem elementShapes_eq_map (xs : List Element) : elementShapes xs = xs.map Element.shape := by
  induction xs with
  | nil => rfl
  | cons x xs ih => rw [elementShapes, ih, List.map_cons]

@[simp]
theorem propertyShapes_eq_map (ps : List Property) : propertyShapes ps = ps.map Property.shape := by
  induction ps with
  | nil => rfl
  | cons p ps ih => rw [propertyShapes, ih, List.map_cons]

@[simp]
theorem statementShapes_eq_map (ss : List Statement) :
    statementShapes ss = ss.map Statement.shape := by
  induction ss with
  | nil => rfl
  | cons s ss ih => rw [statementShapes, ih, List.map_cons]

/-! ## What the grammar asks of a term -/

/-- Whether a value can be set there does not depend on where the term stands. -/
theorem Term.isPlace_shape : (t : Term) → t.shape.isPlace = t.isPlace
  | .paren t => by rw [shape, isPlace, isPlace, isPlace_shape t]
  | .ident .. | .member .. | .index .. | .privateMember _ | .null | .bool _ | .number _ | .str _
  | .template .. | .unary .. | .binary .. | .logical .. | .conditional .. | .sequence _ | .array ..
  | .object .. | .call .. | .arrow .. | .assign .. | .update .. | .other .. => by
    simp only [shape, isPlace]

theorem Term.isName_shape (t : Term) : t.shape.isName = t.isName := by
  cases t <;> simp only [shape, isName]

section Targets

/-- A list in brackets or an object in braces. -/
def Term.isList : Term → Bool
  | .array .. => true
  | .object .. => true
  | _ => false

variable {place : Term → Bool}

theorem Term.target?_shape_other (hplace : ∀ t : Term, place t.shape = place t)
    {t : Term} (h : t.isList = false) :
    t.shape.target? place = t.target? place := by
  have ht := hplace t
  cases t with
  | array => cases h
  | object => cases h
  | _ => simp_all only [shape, target?]

theorem Term.targetOrDefault?_shape_other (hplace : ∀ t : Term, place t.shape = place t)
    {t : Term} (h : t.isList = false)
    (hassign : ∀ start plain target value, t ≠ .assign start plain target value) :
    t.shape.targetOrDefault? place = t.targetOrDefault? place := by
  have ht := hplace t
  cases t with
  | array => cases h
  | object => cases h
  | assign => exact absurd rfl (hassign _ _ _ _)
  | _ => simp_all only [shape, targetOrDefault?]

mutual

/-- What an assignment sets does not depend on where its terms stand. -/
theorem Term.target?_shape (hplace : ∀ t : Term, place t.shape = place t) :
    (t : Term) → t.shape.target? place = t.target? place
  | .array _ elements _ => by
    rw [Term.shape, Term.target?, Term.target?, elementTargets?_shapes hplace _ elements]
  | .object _ properties _ => by
    rw [Term.shape, Term.target?, Term.target?, propertyTargets?_shapes hplace _ properties]
  | .ident .. | .member .. | .index .. | .privateMember _ | .null | .bool _ | .number _ | .str _
  | .template .. | .unary .. | .binary .. | .logical .. | .conditional .. | .sequence _ | .paren _
  | .call .. | .arrow .. | .assign .. | .update .. | .other .. =>
    Term.target?_shape_other hplace rfl

/-- Neither does a part of a pattern that may have a default. -/
theorem Term.targetOrDefault?_shape (hplace : ∀ t : Term, place t.shape = place t) :
    (t : Term) →
    t.shape.targetOrDefault? place = t.targetOrDefault? place
  | .assign _ _ target _ => by
    rw [Term.shape, Term.targetOrDefault?, Term.targetOrDefault?, Term.target?_shape hplace target]
  | .array _ elements _ => by
    rw [Term.shape, Term.targetOrDefault?, Term.targetOrDefault?,
      elementTargets?_shapes hplace _ elements]
  | .object _ properties _ => by
    rw [Term.shape, Term.targetOrDefault?, Term.targetOrDefault?,
      propertyTargets?_shapes hplace _ properties]
  | .ident .. | .member .. | .index .. | .privateMember _ | .null | .bool _ | .number _ | .str _
  | .template .. | .unary .. | .binary .. | .logical .. | .conditional .. | .sequence _ | .paren _
  | .call .. | .arrow .. | .update .. | .other .. =>
    Term.targetOrDefault?_shape_other hplace rfl (by rintro _ _ _ _ ⟨⟩)

/-- Neither do the items of a pattern. -/
theorem elementTargets?_shapes (hplace : ∀ t : Term, place t.shape = place t)
    (trailing : Bool) : (xs : List Element) →
    elementTargets? place trailing (elementShapes xs) = elementTargets? place trailing xs
  | [] => rfl
  | .hole :: rest => by
    rw [elementShapes, Element.shape, elementTargets?, elementTargets?,
      elementTargets?_shapes hplace trailing rest]
  | .item t :: rest => by
    rw [elementShapes, Element.shape, elementTargets?, elementTargets?,
      Term.targetOrDefault?_shape hplace t, elementTargets?_shapes hplace trailing rest]
  | .spread t :: rest => by
    rw [elementShapes, Element.shape, elementTargets?, elementTargets?, Term.target?_shape hplace t,
      elementShapes_eq_map, List.isEmpty_map]

/-- Neither do its fields. -/
theorem propertyTargets?_shapes (hplace : ∀ t : Term, place t.shape = place t)
    (trailing : Bool) : (ps : List Property) →
    propertyTargets? place trailing (propertyShapes ps) = propertyTargets? place trailing ps
  | [] => rfl
  | .spread t :: rest => by
    rw [propertyShapes, Property.shape, propertyTargets?, propertyTargets?, hplace,
      propertyShapes_eq_map, List.isEmpty_map]
  | .field _ _ _ _ _ value :: rest => by
    rw [propertyShapes, Property.shape, propertyTargets?, propertyTargets?,
      Term.targetOrDefault?_shape hplace value, propertyTargets?_shapes hplace trailing rest]

end

theorem Term.target?_of_shape (hplace : ∀ t : Term, place t.shape = place t)
    {t t' : Term} (h : t.shape = t'.shape) :
    t.target? place = t'.target? place := by
  rw [← target?_shape hplace t, h, target?_shape hplace t']

theorem elementTargets?_of_shape (hplace : ∀ t : Term, place t.shape = place t)
    {xs ys : List Element}
    (h : xs.map Element.shape = ys.map Element.shape) (trailing : Bool) :
    elementTargets? place trailing xs = elementTargets? place trailing ys := by
  rw [← elementTargets?_shapes hplace, elementShapes_eq_map, h, ← elementShapes_eq_map,
    elementTargets?_shapes hplace]

end Targets

theorem Element.term?_shape (x : Element) : x.shape.term? = x.term?.map Term.shape := by
  cases x <;> rfl

theorem mapM_term?_shapes (xs : List Element) :
    (xs.map Element.shape).mapM Element.term? = (xs.mapM Element.term?).map (·.map Term.shape) := by
  induction xs with
  | nil => rfl
  | cons x xs ih =>
    rw [List.map_cons, List.mapM_cons, List.mapM_cons, ih, Element.term?_shape]
    cases x.term? with
    | none => rfl
    | some t => cases xs.mapM Element.term? <;> rfl

/-- Items in parentheses are a term or none, wherever they stand. -/
theorem group?_shapes (xs : List Element) (trailing : Bool) :
    group? (xs.map Element.shape) trailing = (group? xs trailing).map Term.shape := by
  unfold group?
  rw [mapM_term?_shapes]
  cases xs.mapM Element.term? with
  | none => rfl
  | some ts =>
    rcases ts with _ | ⟨t, _ | ⟨u, ts⟩⟩
    · rfl
    all_goals cases trailing <;> simp [Term.shape]

/-- Items of one shape are expressions of one shape. -/
theorem group?_of_shape {xs ys : List Element} (h : xs.map Element.shape = ys.map Element.shape)
    {trailing : Bool} {t : Term} (ht : group? xs trailing = some t) :
    ∃ t', group? ys trailing = some t' ∧ t.shape = t'.shape := by
  have hshapes := group?_shapes xs trailing
  rw [h, group?_shapes, ht] at hshapes
  obtain ⟨t', ht', heq⟩ := Option.map_eq_some_iff.mp hshapes
  exact ⟨t', ht', heq.symm⟩

theorem Term.parameterName?_shape (t : Term) : t.shape.parameterName? = t.parameterName? := by
  cases t with
  | assign start plain target value => cases target <;> rfl
  | _ => rfl

/-- The parameters of a function are the same names wherever they stand. -/
theorem parameterNames_shapes (xs : List Element) :
    parameterNames (xs.map Element.shape) = parameterNames xs := by
  induction xs with
  | nil => rfl
  | cons x xs ih =>
    cases x with
    | item t =>
      rw [List.map_cons, Element.shape, parameterNames, parameterNames, Term.parameterName?_shape,
        ih]
    | spread t => exact ih
    | hole => exact ih

theorem parameterNames_of_shape {xs ys : List Element}
    (h : xs.map Element.shape = ys.map Element.shape) : parameterNames xs = parameterNames ys := by
  rw [← parameterNames_shapes, h, parameterNames_shapes]

theorem Term.isPlace_of_shape {t t' : Term} (h : t.shape = t'.shape) : t.isPlace = t'.isPlace := by
  rw [← isPlace_shape, h, isPlace_shape]

/-- What looks like a name is that name. -/
theorem Term.eq_ident_of_shape {t : Term} {name : String} {start stop : Nat}
    (h : t.shape = (Term.ident name start stop).shape) :
    ∃ start' stop', t = .ident name start' stop' := by
  cases t with
  | ident name' start' stop' =>
    obtain rfl : name' = name := by simpa [shape] using h
    exact ⟨start', stop', rfl⟩
  | _ => simp [shape] at h

/-- What looks like another form of expression is one. -/
theorem Term.eq_other_of_shape {t : Term} {form : Form} {start : Nat}
    (h : t.shape = (Term.other form start).shape) : ∃ start', t = .other form start' := by
  cases t with
  | other form' start' =>
    obtain ⟨rfl, -⟩ : form' = form ∧ 0 = 0 := by simpa [shape] using h
    exact ⟨start', rfl⟩
  | _ => simp [shape] at h

/-- Directives are such wherever they stand. -/
theorem Statement.isDirective_shape (s : Statement) : s.shape.isDirective = s.isDirective := by
  cases s with
  | expression t => cases t <;> rfl
  | ret t => cases t <;> rfl
  | other => rfl

/-- The directives at the top of a body are told by their shape. -/
theorem dropWhile_isDirective_shapes (ss : List Statement) :
    (ss.dropWhile Statement.isDirective).map Statement.shape =
      (ss.map Statement.shape).dropWhile Statement.isDirective := by
  induction ss with
  | nil => rfl
  | cons s ss ih =>
    rw [List.map_cons, List.dropWhile_cons, List.dropWhile_cons, Statement.isDirective_shape]
    split
    · exact ih
    · rfl

end UiTemplate.Script

namespace UiTemplate.Expr

open Script

/-! ## The expression that a term is -/

/-- The expression without the places of its references. -/
def treeOnly {α : Type} (r : Except Fault (α × List Reference)) : Option α :=
  r.toOption.map Prod.fst

section Bind

variable {α β γ : Type} {x y : Except Fault (α × List Reference)}

/-- Parts with the same trees make wholes with the same trees. -/
theorem treeOnly_bind (h : treeOnly x = treeOnly y)
    {f g : α × List Reference → Except Fault (β × List Reference)}
    (hfg : ∀ a refs refs', treeOnly (f (a, refs)) = treeOnly (g (a, refs'))) :
    treeOnly (x >>= f) = treeOnly (y >>= g) := by
  cases x with
  | error d =>
    cases y with
    | error d' => rfl
    | ok b => cases h
  | ok a =>
    cases y with
    | error d => cases h
    | ok b =>
      obtain ⟨a, refs⟩ := a
      obtain ⟨b, refs'⟩ := b
      cases h
      exact hfg a refs refs'

end Bind

theorem isVariable_shape : (t : Term) → isVariable t.shape = isVariable t
  | .paren t => by rw [Term.shape, isVariable, isVariable, isVariable_shape t]
  | .ident .. | .member .. | .index .. | .privateMember _ | .null | .bool _ | .number _ | .str _
  | .template .. | .unary .. | .binary .. | .logical .. | .conditional .. | .sequence _ | .array ..
  | .object .. | .call .. | .arrow .. | .assign .. | .update .. | .other .. => by
    simp only [Term.shape, isVariable]

mutual

/-- A term denotes the same tree wherever it stands. -/
theorem treeOnly_ofTerm (bound : List String) : (t : Term) →
    treeOnly (ofTerm bound t.shape) = treeOnly (ofTerm bound t)
  | .template _ holes => treeOnly_bind (treeOnly_ofTerms bound holes) fun _ _ _ => rfl
  | .member owner _ => treeOnly_bind (treeOnly_ofTerm bound owner) fun _ _ _ => rfl
  | .index owner key => treeOnly_bind (treeOnly_ofTerm bound owner) fun _ _ _ =>
    treeOnly_bind (treeOnly_ofTerm bound key) fun _ _ _ => rfl
  | .unary _ argument => treeOnly_bind (treeOnly_ofTerm bound argument) fun _ _ _ => rfl
  | .binary _ left right => treeOnly_bind (treeOnly_ofTerm bound left) fun _ _ _ =>
    treeOnly_bind (treeOnly_ofTerm bound right) fun _ _ _ => rfl
  | .logical _ left right => treeOnly_bind (treeOnly_ofTerm bound left) fun _ _ _ =>
    treeOnly_bind (treeOnly_ofTerm bound right) fun _ _ _ => rfl
  | .conditional test consequent alternate =>
    treeOnly_bind (treeOnly_ofTerm bound test) fun _ _ _ =>
      treeOnly_bind (treeOnly_ofTerm bound consequent) fun _ _ _ =>
        treeOnly_bind (treeOnly_ofTerm bound alternate) fun _ _ _ => rfl
  | .paren inner => treeOnly_ofTerm bound inner
  | .sequence items => treeOnly_bind (treeOnly_ofTerms bound items) fun _ _ _ => rfl
  | .array _ elements _ => treeOnly_bind (treeOnly_ofElements bound _ _ elements) fun _ _ _ => rfl
  | .object _ properties _ =>
    treeOnly_bind (treeOnly_ofProperties bound _ _ properties) fun _ _ _ => rfl
  | .call _ callee arguments => treeOnly_bind (treeOnly_ofTerm bound callee) fun _ _ _ =>
    treeOnly_bind (treeOnly_ofElements bound _ _ arguments) fun _ _ _ => rfl
  | .arrow _ params body => by
    rw [Term.shape, ofTerm, ofTerm]
    cases params.mapM id with
    | none => rfl
    | some names => exact treeOnly_bind (treeOnly_ofStatements _ _ _ body) fun _ _ _ => rfl
  | .assign _ _ target value => by
    rw [Term.shape, ofTerm, ofTerm, isVariable_shape]
    split
    · exact treeOnly_bind (treeOnly_ofTerm bound target) fun _ _ _ =>
        treeOnly_bind (treeOnly_ofTerm bound value) fun _ _ _ => rfl
    · rfl
  | .update _ target => by
    rw [Term.shape, ofTerm, ofTerm, isVariable_shape]
    split
    · exact treeOnly_bind (treeOnly_ofTerm bound target) fun _ _ _ => rfl
    · rfl
  | .ident .. | .privateMember _ | .null | .bool _ | .number _ | .str _ | .other .. => rfl

theorem treeOnly_ofTerms (bound : List String) : (ts : List Term) →
    treeOnly (ofTerms bound (termShapes ts)) = treeOnly (ofTerms bound ts)
  | [] => rfl
  | t :: rest => treeOnly_bind (treeOnly_ofTerm bound t) fun _ _ _ =>
    treeOnly_bind (treeOnly_ofTerms bound rest) fun _ _ _ => rfl

theorem treeOnly_ofElements (bound : List String) (fault fault' : Fault) : (xs : List Element) →
    treeOnly (ofElements bound fault (elementShapes xs)) = treeOnly (ofElements bound fault' xs)
  | [] => rfl
  | .item t :: rest => treeOnly_bind (treeOnly_ofTerm bound t) fun _ _ _ =>
    treeOnly_bind (treeOnly_ofElements bound fault fault' rest) fun _ _ _ => rfl
  | .spread _ :: _ => rfl
  | .hole :: _ => rfl

/-- So do the fields of an object. -/
theorem treeOnly_ofProperties (bound : List String) (start start' : Nat) :
    (ps : List Property) → treeOnly (ofProperties bound start (propertyShapes ps)) =
      treeOnly (ofProperties bound start' ps)
  | [] => rfl
  | .spread _ :: _ => rfl
  | .field key computed method shorthand _ value :: rest => by
    rw [propertyShapes, Property.shape]
    unfold ofProperties
    split
    · rfl
    · cases key with
      | none => rfl
      | some key => exact treeOnly_bind (treeOnly_ofTerm bound value) fun _ _ _ =>
          treeOnly_bind (treeOnly_ofProperties bound start start' rest) fun _ _ _ => rfl

/-- So do the statements of a function. -/
theorem treeOnly_ofStatements (bound : List String) (fault fault' : Fault) :
    (ss : List Statement) → treeOnly (ofStatements bound fault (statementShapes ss)) =
      treeOnly (ofStatements bound fault' ss)
  | [] => rfl
  | .expression t :: rest => treeOnly_bind (treeOnly_ofTerm bound t) fun _ _ _ =>
    treeOnly_bind (treeOnly_ofStatements bound fault fault' rest) fun _ _ _ => rfl
  | .ret (some t) :: rest => treeOnly_bind (treeOnly_ofTerm bound t) fun _ _ _ =>
    treeOnly_bind (treeOnly_ofStatements bound fault fault' rest) fun _ _ _ => rfl
  | .ret none :: rest => treeOnly_bind (treeOnly_ofStatements bound fault fault' rest)
    fun _ _ _ => rfl
  | .other :: _ => rfl

end

/-- Terms of one shape are the same expression. -/
theorem tree_of_shape {t t' : Term} (h : t.shape = t'.shape) {tree : Expr} {refs : List Reference}
    (ht : ofTerm [] t = .ok (tree, refs)) : ∃ refs', ofTerm [] t' = .ok (tree, refs') := by
  have htree : treeOnly (ofTerm [] t) = treeOnly (ofTerm [] t') := by
    rw [← treeOnly_ofTerm, h, treeOnly_ofTerm]
  rw [ht] at htree
  cases ht' : ofTerm [] t' with
  | error d =>
    rw [ht'] at htree
    cases htree
  | ok x =>
    rw [ht'] at htree
    cases htree
    exact ⟨x.2, rfl⟩

end UiTemplate.Expr
