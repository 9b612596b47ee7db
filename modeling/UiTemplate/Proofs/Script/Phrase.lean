import UiTemplate.Expression.Expr
import UiTemplate.Proofs.Script.Takes
import UiTemplate.Script.Grammar

/-!
# Phrases

Expressions by the tokens that they are written as. A phrase keeps its parentheses, so its tokens
are determined, and so is the tree that they are to be read as:

- `Phrase.tokens`: the tokens of a phrase.
- `Phrase.tree`: the tree that it denotes.
- `Phrase.wellFormed`: parentheses stand wherever the ranks of the operators ask for them.

Phrases have neither template literals nor assignments, and the body of a function is one
expression.
-/

namespace UiTemplate.Script

/-- The words that are names, but may begin something else where an expression stands. -/
def leadingWords : List String :=
  ["async", "await", "yield"]

/-- A word that is a name wherever an expression stands. -/
structure VariableName where
  text : String
  isVariable : (isBindingWord text && !leadingWords.contains text) = true

theorem VariableName.text_ne (n : VariableName) {word : String}
    (h : (isBindingWord word && !leadingWords.contains word) = false) : n.text ≠ word := by
  rintro rfl
  rw [n.isVariable] at h
  exact nomatch h

theorem VariableName.isBindingWord_text (n : VariableName) : isBindingWord n.text = true := by
  have h := n.isVariable
  rw [Bool.and_eq_true] at h
  exact h.1

/-- An operator in front of its operand, and how it is written. -/
structure Sign where
  token : Token
  op : UnaryOp
  reads : unaryOp? token = some op

/-- An operator between its operands, and how it is written. -/
structure Connective where
  token : Token
  op : Operator
  rank : Nat
  reads : operator? .top token = some (op, rank)

theorem operator?_rank {ctx : Context} {t : Token} {op : Operator} {rank : Nat}
    (h : operator? ctx t = some (op, rank)) :
    1 ≤ rank ∧ rank ≤ 12 ∧ (op = .binary .pow ↔ rank = 12) ∧
      (op = .logical .coalesce ↔ rank = 1) := by
  unfold operator? at h
  split at h
  · split at h
    all_goals first | (cases h; simp) | exact nomatch h
  · split at h
    · exact nomatch h
    · cases h
      simp
  · cases h
    simp
  · exact nomatch h

theorem Connective.rank_pos (c : Connective) : 1 ≤ c.rank :=
  (operator?_rank c.reads).1

theorem Connective.rank_le (c : Connective) : c.rank ≤ 12 :=
  (operator?_rank c.reads).2.1

/-- How the name of a field is written. -/
inductive FieldName where
  | word (text : String)
  | str (text : String)

mutual

/-- An expression as it is written. -/
inductive Phrase where
  | null
  | bool (value : Bool)
  | number (value : Float)
  | str (value : String)
  | name (n : VariableName)
  | array (items : List Phrase)
  | object (fields : List Field)
  | group (items : List Phrase)
  | member (owner : Phrase) (name : String)
  | index (owner key : Phrase)
  | call (callee : Phrase) (arguments : List Phrase)
  | unary (sign : Sign) (argument : Phrase)
  | binary (c : Connective) (left right : Phrase)
  | conditional (test consequent alternate : Phrase)
  | arrow (params : List VariableName) (body : Phrase)
  /-- A function of one parameter, which stands without parentheses. -/
  | lambda (param : VariableName) (body : Phrase)

/-- A field of an object; a variable stands for the field of its name. -/
inductive Field where
  | pair (name : FieldName) (value : Phrase)
  | shorthand (n : VariableName)

end

/-! ## Tokens -/

/-- The token of a name. -/
def VariableName.token (n : VariableName) : Token :=
  .word n.text false

def FieldName.token : FieldName → Token
  | word text => .word text false
  | str text => .str text

def FieldName.text : FieldName → String
  | word text => text
  | str text => text

/-- Tokens in parentheses. -/
def parens (ts : List Token) : List Token :=
  .punct .leftParen :: (ts ++ [.punct .rightParen])

/-- The tokens of parameters. -/
def paramRows (params : List VariableName) : List (List Token) :=
  params.map fun v => [v.token]

mutual

/-- The tokens of a phrase. -/
def Phrase.tokens : Phrase → List Token
  | .null => [.word "null" false]
  | .bool true => [.word "true" false]
  | .bool false => [.word "false" false]
  | .number x => [.number x]
  | .str s => [.str s]
  | .name n => [n.token]
  | .array items => .punct .leftBracket :: (commas (rows items) ++ [.punct .rightBracket])
  | .object fields => .punct .leftBrace :: (commas (fieldRows fields) ++ [.punct .rightBrace])
  | .group items => parens (commas (rows items))
  | .member owner name => owner.tokens ++ [.punct .dot, .word name false]
  | .index owner key =>
    owner.tokens ++ .punct .leftBracket :: (key.tokens ++ [.punct .rightBracket])
  | .call callee arguments => callee.tokens ++ parens (commas (rows arguments))
  | .unary sign argument => sign.token :: argument.tokens
  | .binary c left right => left.tokens ++ c.token :: right.tokens
  | .conditional test consequent alternate =>
    test.tokens ++ .punct .question :: (consequent.tokens ++ .punct .colon :: alternate.tokens)
  | .arrow params body =>
    parens (commas (paramRows params)) ++ .punct .arrow :: body.tokens
  | .lambda param body => param.token :: .punct .arrow :: body.tokens

/-- The tokens of items. -/
def rows : List Phrase → List (List Token)
  | [] => []
  | c :: rest => c.tokens :: rows rest

/-- The tokens of a field. -/
def Field.tokens : Field → List Token
  | .pair name value => name.token :: .punct .colon :: value.tokens
  | .shorthand n => [n.token]

/-- The tokens of fields. -/
def fieldRows : List Field → List (List Token)
  | [] => []
  | f :: rest => f.tokens :: fieldRows rest

end

theorem rows_eq_map (items : List Phrase) : rows items = items.map Phrase.tokens := by
  induction items with
  | nil => rfl
  | cons c items ih => rw [rows, ih, List.map_cons]

theorem fieldRows_eq_map (fields : List Field) : fieldRows fields = fields.map Field.tokens := by
  induction fields with
  | nil => rfl
  | cons f fields ih => rw [fieldRows, ih, List.map_cons]

/-! ## Trees -/

/-- An operator between two trees. -/
def Operator.expr : Operator → Expr → Expr → Expr
  | binary op => Expr.binary op
  | logical op => Expr.logical op

/-- What an expression in parentheses denotes. -/
def groupTree : List Expr → Expr
  | [e] => e
  | es => .sequence es

mutual

/-- The tree of a phrase. -/
def Phrase.tree : Phrase → Expr
  | .null => .null
  | .bool b => .bool b
  | .number x => .number x
  | .str s => .str s
  | .name n => .ident n.text
  | .array items => .array (trees items)
  | .object fields => .object (fieldTrees fields)
  | .group items => groupTree (trees items)
  | .member owner name => .member owner.tree (.str name)
  | .index owner key => .member owner.tree key.tree
  | .call callee arguments => .call callee.tree (trees arguments)
  | .unary sign argument => .unary sign.op argument.tree
  | .binary c left right => c.op.expr left.tree right.tree
  | .conditional test consequent alternate =>
    .conditional test.tree consequent.tree alternate.tree
  | .arrow params body => .arrow (params.map VariableName.text) [body.tree]
  | .lambda param body => .arrow [param.text] [body.tree]

/-- The trees of items. -/
def trees : List Phrase → List Expr
  | [] => []
  | c :: rest => c.tree :: trees rest

/-- The name and the tree of a field. -/
def Field.entry : Field → String × Expr
  | .pair name value => (name.text, value.tree)
  | .shorthand n => (n.text, .ident n.text)

/-- The names and the trees of fields. -/
def fieldTrees : List Field → List (String × Expr)
  | [] => []
  | f :: rest => f.entry :: fieldTrees rest

end

/-! ## Ranks -/

/-- How tightly the parts of a phrase are bound together: by the rank of its outermost
operator, by 13 with an operator in front, and by 14 without any; a conditional or a function is
below all operators. -/
def Phrase.rank : Phrase → Nat
  | .conditional .. => 0
  | .arrow .. => 0
  | .lambda .. => 0
  | .binary c _ _ => c.rank
  | .unary .. => 13
  | _ => 14

/-- Whether the outermost operator is one that does not mix with `??`. -/
def Phrase.isAndOr : Phrase → Bool
  | .binary c _ _ =>
    match c.op with
    | .logical .and => true
    | .logical .or => true
    | _ => false
  | _ => false

/-- Whether the phrase begins with a brace. -/
def Phrase.opensBrace : Phrase → Bool
  | .object _ => true
  | .member owner _ => owner.opensBrace
  | .index owner _ => owner.opensBrace
  | .call callee _ => callee.opensBrace
  | .binary _ left _ => left.opensBrace
  | .conditional test _ _ => test.opensBrace
  | _ => false

/-- Whether the operands need no parentheses: operators group to the left, the power to the right,
and there is no operator in front of what is raised to a power. -/
def Connective.joins (c : Connective) (left right : Phrase) : Bool :=
  if c.rank = 12 then left.rank == 14 && decide (12 ≤ right.rank)
  else decide (c.rank ≤ left.rank) && decide (c.rank < right.rank) &&
    (c.rank != 1 || !left.isAndOr && !right.isAndOr)

mutual

/-- Whether parentheses stand wherever they are needed. -/
def Phrase.wellFormed : Phrase → Bool
  | .array items => wellFormedAll items
  | .object fields => wellFormedFields fields
  | .group items => !items.isEmpty && wellFormedAll items
  | .member owner _ => owner.rank == 14 && owner.wellFormed
  | .index owner key => owner.rank == 14 && owner.wellFormed && key.wellFormed
  | .call callee arguments => callee.rank == 14 && callee.wellFormed && wellFormedAll arguments
  | .unary _ argument => decide (13 ≤ argument.rank) && argument.wellFormed
  | .binary c left right => c.joins left right && left.wellFormed && right.wellFormed
  | .conditional test consequent alternate =>
    test.rank != 0 && test.wellFormed && consequent.wellFormed && alternate.wellFormed
  | .arrow _ body => !body.opensBrace && body.wellFormed
  | .lambda _ body => !body.opensBrace && body.wellFormed
  | _ => true

/-- `wellFormed` for items. -/
def wellFormedAll : List Phrase → Bool
  | [] => true
  | c :: rest => c.wellFormed && wellFormedAll rest

/-- `wellFormed` for the value of a field. -/
def Field.wellFormed : Field → Bool
  | .pair _ value => value.wellFormed
  | .shorthand _ => true

/-- `wellFormed` for fields. -/
def wellFormedFields : List Field → Bool
  | [] => true
  | f :: rest => f.wellFormed && wellFormedFields rest

end

/-! ## First tokens -/

/-- The first token of a phrase. -/
def Phrase.first : Phrase → Token
  | .null => .word "null" false
  | .bool true => .word "true" false
  | .bool false => .word "false" false
  | .number x => .number x
  | .str s => .str s
  | .name n => n.token
  | .array _ => .punct .leftBracket
  | .object _ => .punct .leftBrace
  | .group _ => .punct .leftParen
  | .member owner _ => owner.first
  | .index owner _ => owner.first
  | .call callee _ => callee.first
  | .unary sign _ => sign.token
  | .binary _ left _ => left.first
  | .conditional test _ _ => test.first
  | .arrow _ _ => .punct .leftParen
  | .lambda param _ => param.token

theorem Phrase.tokens_eq_cons : (c : Phrase) → ∃ rest, c.tokens = c.first :: rest
  | .null | .bool true | .bool false | .number _ | .str _ | .name _ | .array _ | .object _
  | .group _ | .unary _ _ | .arrow _ _ | .lambda _ _ => ⟨_, rfl⟩
  | .member owner _ | .index owner _ | .call owner _ | .binary _ owner _
  | .conditional owner _ _ => by
    obtain ⟨rest, h⟩ := owner.tokens_eq_cons
    exact ⟨_, by rw [tokens, h, first, List.cons_append]⟩

/-- The punctuators that begin phrases. -/
def openings : List Punct :=
  [.leftBracket, .leftBrace, .leftParen, .bang, .minus, .plus, .tilde]

/-- A token that begins a phrase. -/
def Token.begins : Token → Bool
  | .word name escaped => !escaped && !leadingWords.contains name
  | .str _ => true
  | .number _ => true
  | .punct p => openings.contains p
  | _ => false

theorem VariableName.begins (n : VariableName) : n.token.begins = true := by
  have h := n.isVariable
  rw [Bool.and_eq_true] at h
  exact h.2

theorem Sign.begins (s : Sign) : s.token.begins = true := by
  have h := s.reads
  unfold unaryOp? at h
  split at h
  all_goals first | (rename_i heq; rw [heq]; decide) | exact nomatch h

theorem Phrase.first_begins : (c : Phrase) → c.first.begins = true
  | .null | .bool true | .bool false | .number _ | .str _ | .array _ | .object _ | .group _
  | .arrow _ _ => rfl
  | .name n | .lambda n _ => n.begins
  | .unary sign _ => sign.begins
  | .member owner _ | .index owner _ | .call owner _ | .binary _ owner _
  | .conditional owner _ _ => owner.first_begins

/-- No operator stands in front of what is bound most tightly. -/
theorem Phrase.unaryOp?_first : (c : Phrase) → c.wellFormed = true → c.rank = 14 →
    unaryOp? c.first = none
  | .null, _, _ | .bool true, _, _ | .bool false, _, _ | .number _, _, _ | .str _, _, _
  | .array _, _, _ | .object _, _, _ | .group _, _, _ => rfl
  | .name n, _, _ => by
    show unaryOp? (.word n.text false) = none
    unfold unaryOp?
    split
    all_goals rename_i heq
    all_goals first
      | rfl
      | cases heq
      | (injection heq with htext
         exact absurd htext (n.text_ne (by decide)))
  | .member owner _, hc, _ => by
    rw [wellFormed, Bool.and_eq_true, beq_iff_eq] at hc
    exact owner.unaryOp?_first hc.2 hc.1
  | .index owner _, hc, _ => by
    rw [wellFormed, Bool.and_eq_true, Bool.and_eq_true, beq_iff_eq] at hc
    exact owner.unaryOp?_first hc.1.2 hc.1.1
  | .call owner _, hc, _ => by
    rw [wellFormed, Bool.and_eq_true, Bool.and_eq_true, beq_iff_eq] at hc
    exact owner.unaryOp?_first hc.1.2 hc.1.1
  | .binary c _ _, _, hrank => by
    have hle := c.rank_le
    rw [rank] at hrank
    omega

end UiTemplate.Script
