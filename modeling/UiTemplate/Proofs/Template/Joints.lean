import UiTemplate.Proofs.Printing.Static

/-!
# What may stand side by side

Two texts that follow each other would be one text, and a text that ends in an opening brace would
take another one from an interpolation behind it. Neither is ever read, and neither comes about when
blanks are left out and chains are formed.

- `pieces_joins`: in the pieces of a text neighbours are apart.
- `Raw.joinedAll_iff`: in a tree neighbours are apart exactly if they are in its pieces.
- `Raw.joinedAll_condenseAll`, `settle_joined`: leaving blanks out and forming chains keeps them so.
-/

namespace UiTemplate

open Piece

/-! ## Edges -/

/-- What counts of a piece or a node for its neighbours: whether it is a text, maybe one that ends in
an opening brace, or an interpolation. -/
inductive Edge where
  | text (brace : Bool)
  | interpolation
  | closed
  deriving DecidableEq, Repr

namespace Edge

/-- The second may follow the first. -/
def Joins : Edge → Edge → Prop
  | text _, text _ => False
  | text true, interpolation => False
  | _, _ => True

variable {e f : Edge}

@[simp] theorem joins_closed : e.Joins closed := by
  rcases e with b | _ | _
  · cases b <;> trivial
  all_goals trivial

@[simp] theorem closed_joins : closed.Joins e := trivial

@[simp] theorem interpolation_joins : interpolation.Joins e := trivial

/-- What a text may follow is no text, so that anything may follow it. -/
theorem Joins.of_text {b : Bool} (h : e.Joins (text b)) : e.Joins f := by
  rcases e with b | _ | _
  · exact absurd h (by cases b <;> exact id)
  all_goals trivial

/-- A text may lose the brace at its end. -/
theorem Joins.text_mono {b b' : Bool} (hb : b' = true → b = true) (h : (text b).Joins f) :
    (text b').Joins f := by
  rcases f with _ | _ | _
  · exact absurd h (by cases b <;> exact id)
  · cases b with
    | false =>
      cases b' with
      | false => trivial
      | true => exact absurd (hb rfl) (by simp)
    | true => exact absurd h id
  · simp

end Edge

/-- Whether a text ends in an opening brace. -/
def endsInBrace (cs : List Char) : Bool :=
  cs.getLast? == some '\x7b'

/-- The edge of a piece. -/
def Piece.edge : Piece → Edge
  | .text value _ => .text (endsInBrace value.toList)
  | .interpolation .. => .interpolation
  | _ => .closed

/-- The edge of a node as it is written. -/
def Raw.edge : Raw → Edge
  | .text value _ => .text (endsInBrace value.toList)
  | .interpolation .. => .interpolation
  | _ => .closed

/-- The edge of a node. -/
def Node.edge : Node → Edge
  | .text value _ => .text (endsInBrace value.toList)
  | .interpolation .. => .interpolation
  | _ => .closed

/-! ## Pieces -/

/-- Behind a text that ends in an opening brace stands no other one. -/
theorem spanText_brace {cs : List Char} (h : endsInBrace (spanText cs).1 = true) :
    (spanText cs).2.head? ≠ some '\x7b' := by
  induction cs with
  | nil => simp [spanText]
  | cons c cs ih =>
    rw [spanText] at h ⊢
    split at h
    · simp [endsInBrace] at h
    · rename_i hstarts
      rw [if_neg hstarts]
      dsimp only at h ⊢
      rw [endsInBrace, List.getLast?_cons, beq_iff_eq, Option.some.injEq] at h
      cases hlast : (spanText cs).1.getLast? with
      | some d =>
        rw [hlast, Option.getD_some] at h
        exact ih (by rw [endsInBrace, hlast, h, beq_self_eq_true])
      | none =>
        -- The text is one brace, so that the next character is not another.
        rw [hlast, Option.getD_none] at h
        have hrest := append_spanText cs
        rw [List.getLast?_eq_none_iff.mp hlast, List.nil_append] at hrest
        rw [hrest]
        intro hhead
        obtain ⟨rest, rfl⟩ := List.head?_eq_some_iff.mp hhead
        rw [h] at hstarts
        exact hstarts rfl

/-- Texts end before the mark of another piece, and interpolations start with a brace. -/
theorem next_edge {p q : Place} {piece : Piece} (h : next p = .ok (piece, q)) :
    (∀ b, piece.edge = .text b → b = true → q.rest.head? ≠ some '\x7b') ∧
      (piece.edge = .interpolation → p.rest.head? = some '\x7b') := by
  have closed {piece : Piece} (hp : piece.edge = .closed) :
      (∀ b, piece.edge = .text b → b = true → q.rest.head? ≠ some '\x7b') ∧
        (piece.edge = .interpolation → p.rest.head? = some '\x7b') := by
    simp [hp]
  rw [next] at h
  split at h
  · split at h
    · cases h
    · cases h
      exact closed rfl
  · split at h
    · simp only [readCloseTag] at h
      split at h
      · cases h
        exact closed rfl
      · cases h
    · split at h
      · simp only [readOpenTag] at h
        split at h
        · cases h
        · cases h
          exact closed rfl
      · split at h
        · rename_i hbraces
          dsimp only at h
          split at h
          · cases h
          · cases h
            obtain ⟨rest, hrest⟩ := Place.startsWith_iff.mp hbraces
            exact ⟨fun b hb => by simp [Piece.edge] at hb, fun _ => by rw [← hrest]; rfl⟩
        · cases h
          refine ⟨fun b hb htrue => spanText_brace ?_, fun hi => by simp [Piece.edge] at hi⟩
          rw [Piece.edge, String.toList_ofList, Edge.text.injEq] at hb
          rw [hb, htrue]

/-- Pieces may follow each other that are not both texts, unless a brace stands before an
interpolation. -/
theorem Piece.Apart.joins {p q : Piece} (h : Apart p q)
    (hbrace : p.edge = .text true → q.edge ≠ .interpolation) : p.edge.Joins q.edge := by
  cases p with
  | text v start =>
    have hq := h rfl
    cases q with
    | text v' start' => simp [Piece.isText] at hq
    | interpolation source start' =>
      cases hb : endsInBrace v.toList with
      | true => exact absurd rfl (hbrace (by rw [Piece.edge, hb]))
      | false =>
        rw [Piece.edge, hb]
        trivial
    | _ => exact Edge.joins_closed
  | interpolation source start => exact Edge.interpolation_joins
  | _ => exact Edge.closed_joins

/-- In the pieces of a text neighbours are apart. -/
theorem pieces_joins (p : Place) :
    ((pieces p).1.map Piece.edge).IsChain Edge.Joins ∧
      (∀ piece ∈ (pieces p).1.head?, piece.edge = .interpolation → p.rest.head? = some '\x7b') := by
  induction hn : p.rest.length using Nat.strongRecOn generalizing p with
  | ind n ih =>
    by_cases hne : p.rest = []
    · rw [pieces, dif_pos hne]
      simp
    · cases hnext : next p with
      | error flaw =>
        have hp : pieces p = ([], some flaw) := by
          rw [pieces, dif_neg hne]
          split <;> simp_all
        rw [hp]
        simp
      | ok r =>
        obtain ⟨piece, q⟩ := r
        have hp := pieces_eq_cons hne hnext rfl
        obtain ⟨hbrace, hhead⟩ := next_edge hnext
        obtain ⟨hchain, hnextHead⟩ := ih q.rest.length
          (by have := length_next hne hnext; omega) q rfl
        obtain ⟨-, hapart, -⟩ := pieces_spec p
        rw [hp] at hapart ⊢
        rw [List.map_cons, List.isChain_cons]
        refine ⟨⟨?_, hchain⟩, ?_⟩
        · intro e he
          rw [List.head?_map] at he
          obtain ⟨other, hother, rfl⟩ := Option.map_eq_some_iff.mp he
          refine ((List.isChain_cons.mp hapart).1 other hother).joins fun hedge hinter => ?_
          exact hbrace true hedge rfl (hnextHead other hother hinter)
        · rintro piece' ⟨⟩
          exact hhead

/-! ## Trees as they are written -/

namespace Raw

mutual

/-- Below the node neighbours are apart. -/
def Joined : Raw → Prop
  | element _ _ _ _ children => JoinedAll children
  | _ => True

/-- Siblings that are neighbours are apart, and so are all below them. -/
def JoinedAll : List Raw → Prop
  | [] => True
  | r :: rest => r.Joined ∧ (∀ s ∈ rest.head?, r.edge.Joins s.edge) ∧ JoinedAll rest

end

theorem JoinedAll.isChain {rs : List Raw} (h : JoinedAll rs) :
    (rs.map edge).IsChain Edge.Joins := by
  induction rs with
  | nil => exact .nil
  | cons r rest ih =>
    rw [List.map_cons, List.isChain_cons, List.head?_map]
    refine ⟨fun e he => ?_, ih h.2.2⟩
    obtain ⟨s, hs, rfl⟩ := Option.map_eq_some_iff.mp he
    exact h.2.1 s hs

/-- The first and the last piece of a node are to their neighbours what the node is. -/
theorem edge_pieces (r : Raw) :
    r.pieces.head?.map Piece.edge = some r.edge ∧ r.pieces.getLast?.map Piece.edge = some r.edge := by
  cases r with
  | element tag attributes selfClosing start children =>
    cases selfClosing with
    | true => simp [pieces, Piece.edge, edge]
    | false => simp [pieces, Piece.edge, edge, List.getLast?_cons]
  | _ => simp [pieces, Piece.edge, edge]

theorem edge_piecesAll (rs : List Raw) :
    (piecesAll rs).head?.map Piece.edge = rs.head?.map edge := by
  cases rs with
  | nil => rfl
  | cons r rest =>
    have h := (edge_pieces r).1
    rw [piecesAll, List.head?_append, List.head?_cons, Option.map_some, ← h]
    cases hr : r.pieces.head? with
    | none => simp [hr] at h
    | some p => rfl

mutual

theorem joined_iff (r : Raw) (h : r.Proper) :
    r.Joined ↔ (r.pieces.map Piece.edge).IsChain Edge.Joins := by
  match r with
  | .text .. => simp [Joined, pieces]
  | .interpolation .. => simp [Joined, pieces]
  | .comment .. => simp [Joined, pieces]
  | .element tag attributes selfClosing start children =>
    have hchildren := joinedAll_iff children h.2
    cases selfClosing with
    | true =>
      obtain rfl := h.1 rfl
      simp [Joined, JoinedAll, pieces]
    | false =>
      rw [Joined, hchildren, pieces, if_neg (by simp), List.map_cons, List.map_append,
        List.isChain_cons, List.isChain_append]
      simp [Piece.edge]

/-- In a tree neighbours are apart exactly if they are in its pieces. -/
theorem joinedAll_iff (rs : List Raw) (h : ProperAll rs) :
    JoinedAll rs ↔ ((piecesAll rs).map Piece.edge).IsChain Edge.Joins := by
  match rs with
  | [] => simp [JoinedAll, piecesAll]
  | r :: rest =>
    have hlast := (edge_pieces r).2
    have hhead := edge_piecesAll rest
    rw [JoinedAll, joined_iff r h.1, joinedAll_iff rest h.2, piecesAll, List.map_append,
      List.isChain_append, List.getLast?_map, List.head?_map, hlast, hhead]
    simp only [Option.mem_def, Option.some.injEq, forall_eq', Option.map_eq_some_iff,
      forall_exists_index, and_imp, forall_apply_eq_imp_iff₂]
    tauto

end

/-- The tree of a text is made so that neighbours are apart. -/
theorem joinedAll_of_read {source : List Char} {rs : List Raw} (h : read source = .ok rs) :
    JoinedAll rs := by
  obtain ⟨hpieces, hproper⟩ := read_pieces h
  rw [joinedAll_iff rs hproper, hpieces, List.map_map]
  have hsettled : Piece.edge ∘ Piece.settled = Piece.edge := by
    funext p
    cases p <;> rfl
  rw [hsettled]
  exact (pieces_joins ⟨0, source⟩).1

/-! ## Leaving blanks out -/

/-- Only a brace that ends the text ends the text with its runs of blanks made one. -/
theorem endsInBrace_collapse {inRun : Bool} {cs : List Char}
    (h : endsInBrace (collapse inRun cs) = true) : endsInBrace cs = true := by
  simp only [endsInBrace, beq_iff_eq] at h ⊢
  induction cs generalizing inRun with
  | nil => simp [collapse] at h
  | cons c cs ih =>
    have later {inRun : Bool} (h : (collapse inRun cs).getLast? = some '\x7b') :
        (c :: cs).getLast? = some '\x7b' := by
      rw [List.getLast?_cons, ih h]
      rfl
    rw [collapse] at h
    split at h
    · cases inRun with
      | true => exact later h
      | false =>
        rw [if_neg (by simp), List.getLast?_cons] at h
        cases hlast : (collapse true cs).getLast? with
        | none => simp [hlast] at h
        | some d =>
          rw [hlast, Option.getD_some] at h
          exact later (hlast.trans h)
    · rw [List.getLast?_cons] at h
      cases hlast : (collapse false cs).getLast? with
      | some d =>
        rw [hlast, Option.getD_some] at h
        exact later (hlast.trans h)
      | none =>
        rw [hlast, Option.getD_none] at h
        cases cs with
        | nil => exact h
        | cons d ds =>
          rw [List.getLast?_eq_none_iff, collapse] at hlast
          split at hlast <;> simp at hlast

theorem endsInBrace_condensedText {before after : Option Raw} {v v' : String}
    (h : condensedText before after v = some v') (hbrace : endsInBrace v'.toList = true) :
    endsInBrace v.toList = true := by
  unfold condensedText at h
  split at h
  · split at h
    · cases h
    · cases h
      exact absurd hbrace (by decide)
  · cases h
    rw [String.toList_ofList] at hbrace
    exact endsInBrace_collapse hbrace

/-- What may stand before siblings may stand before them when blanks are left out. -/
theorem joins_condenseAll {e : Edge} (before : Option Raw) {rs : List Raw}
    (h : ∀ r ∈ rs.head?, e.Joins r.edge) : ∀ r ∈ (condenseAll before rs).head?, e.Joins r.edge := by
  cases rs with
  | nil => exact h
  | cons r rest =>
    have hr := h r rfl
    cases r with
    | text v start => exact fun _ _ => hr.of_text
    | _ =>
      rintro s ⟨⟩
      exact hr

mutual

theorem joined_condense (r : Raw) (h : r.Joined) : r.condense.Joined := by
  match r with
  | .text .. => trivial
  | .interpolation .. => trivial
  | .comment .. => trivial
  | .element tag attributes selfClosing start children => exact joinedAll_condenseAll none children h

/-- Neighbours stay apart when blanks are left out. -/
theorem joinedAll_condenseAll (before : Option Raw) (rs : List Raw) (h : JoinedAll rs) :
    JoinedAll (condenseAll before rs) := by
  match rs with
  | [] => trivial
  | .text v start :: rest =>
    obtain ⟨-, hnext, hrest⟩ := h
    have hmore := joinedAll_condenseAll (some (.text v start)) rest hrest
    rw [condenseAll]
    split
    · rename_i v' hv
      refine ⟨trivial, joins_condenseAll _ fun s hs => ?_, hmore⟩
      exact (hnext s hs).text_mono (endsInBrace_condensedText hv)
    · exact hmore
  | .element tag attributes selfClosing start children :: rest =>
    obtain ⟨hr, -, hrest⟩ := h
    exact ⟨joined_condense _ hr, fun _ _ => Edge.closed_joins, joinedAll_condenseAll _ rest hrest⟩
  | .interpolation source start :: rest =>
    obtain ⟨-, -, hrest⟩ := h
    exact ⟨trivial, fun _ _ => Edge.interpolation_joins, joinedAll_condenseAll _ rest hrest⟩
  | .comment value start :: rest =>
    obtain ⟨-, -, hrest⟩ := h
    exact ⟨trivial, fun _ _ => Edge.closed_joins, joinedAll_condenseAll _ rest hrest⟩

end

end Raw

theorem Whitespace.joinedAll_kept (whitespace : Whitespace) {rs : List Raw} (h : Raw.JoinedAll rs) :
    Raw.JoinedAll (whitespace.kept rs) := by
  cases whitespace with
  | preserve => exact h
  | condense => exact Raw.joinedAll_condenseAll none rs h

/-! ## Forming chains -/

/-- Neighbours among the nodes are apart. -/
def Node.Joined (ns : List Node) : Prop :=
  (ns.map Node.edge).IsChain Edge.Joins

/-- The edges of siblings. -/
def Sibling.edges (siblings : List Sibling) : List Edge :=
  siblings.map fun s => s.node.edge

/-- The edges after the last branch of a chain that may go on. -/
def OpenChain.edges (chain : Option OpenChain) : List Edge :=
  (chain.map fun c => c.parked.map Node.edge).getD []

/-- A chain with what was parked behind it, before nodes that may stand behind that. -/
theorem OpenChain.close_joined (c : OpenChain) {more : List Node} (e : Edge)
    (h : (c.parked.map Node.edge ++ more.map Node.edge).IsChain Edge.Joins) :
    (e :: (c.close ++ more).map Node.edge).IsChain Edge.Joins := by
  have hnode : (Edge.closed :: (c.parked.map Node.edge ++ more.map Node.edge)).IsChain Edge.Joins :=
    List.isChain_cons.mpr ⟨fun _ _ => Edge.closed_joins, h⟩
  rw [OpenChain.close, List.cons_append, List.map_cons, List.map_append]
  exact List.isChain_cons.mpr ⟨by rintro f ⟨⟩; exact Edge.joins_closed, hnode⟩

/-- Neighbours stay apart when chains are formed. Behind `e`, which stands before the siblings if no
chain is open, may stand what is formed; the node of a chain may stand behind anything. -/
theorem groupFrom_joined {chain : Option OpenChain} {siblings : List Sibling} {nodes : List Node}
    (h : groupFrom chain siblings = .ok nodes)
    (hs : (OpenChain.edges chain ++ Sibling.edges siblings).IsChain Edge.Joins) (e : Edge)
    (he : chain = none → (e :: Sibling.edges siblings).IsChain Edge.Joins) :
    (e :: nodes.map Node.edge).IsChain Edge.Joins := by
  replace h := grouped_of_groupFrom h
  -- The edges behind the first sibling.
  have tail {s : Sibling} {rest : List Sibling} {chain : Option OpenChain}
      (hs : (OpenChain.edges chain ++ Sibling.edges (s :: rest)).IsChain Edge.Joins) :
      (Sibling.edges rest).IsChain Edge.Joins :=
    (hs.right_of_append : (Sibling.edges (s :: rest)).IsChain Edge.Joins).tail
  induction h generalizing e with
  | done chain =>
    cases chain with
    | none => exact he rfl
    | some c =>
      have hparked : (c.parked.map Node.edge ++ ([] : List Node).map Node.edge).IsChain
          Edge.Joins := by
        simpa [OpenChain.edges, Sibling.edges] using hs
      have hclose := c.close_joined e hparked
      rwa [List.append_nil] at hclose
  | @opens chain s rest more condition hrole _ ih =>
    have hmore (f : Edge) := ih (tail hs) f (by simp)
    cases chain with
    | none => exact hmore e
    | some c =>
      refine c.close_joined e (List.isChain_append.mpr
        ⟨hs.left_of_append, (hmore e).tail, fun x _ y hy => ?_⟩)
      exact (List.isChain_cons.mp (hmore x)).1 y hy
  | goesOn hrole _ ih => exact ih (tail hs) e (by simp)
  | ends hrole _ ih =>
    refine OpenChain.close_joined _ e (ih (tail hs) .closed fun _ => ?_).tail
    exact List.isChain_cons.mpr ⟨fun _ _ => Edge.closed_joins, tail hs⟩
  | waits hrole _ _ ih =>
    refine ih ?_ e (by simp)
    simpa [OpenChain.edges, Sibling.edges] using hs
  | @stands chain s rest more hrole _ ih =>
    cases chain with
    | none =>
      have hfirst := he rfl
      rw [Sibling.edges, List.map_cons, List.isChain_cons_cons] at hfirst
      exact List.isChain_cons_cons.mpr ⟨hfirst.1, ih (tail hs) _ fun _ => hfirst.2⟩
    | some c =>
      have hsplit : (c.parked.map Node.edge ++ s.node.edge :: Sibling.edges rest).IsChain
          Edge.Joins := hs
      rw [List.isChain_split] at hsplit
      refine c.close_joined e ?_
      rw [List.map_cons, List.isChain_split]
      exact ⟨hsplit.1, ih (tail hs) _ fun _ => hsplit.2⟩

/-! ## The meaning of nodes -/

theorem Raw.lower_edge {platform : Platform} {locate : Nat → Location} {depth : Nat} {r : Raw}
    {s : Sibling} (h : lower platform locate depth r = .ok s) : s.node.edge = r.edge := by
  cases r with
  | text value start =>
    cases h
    rfl
  | comment value start =>
    cases h
    rfl
  | interpolation source start =>
    obtain ⟨e, -, h⟩ := Except.bind_eq_ok.mp h
    cases h
    rfl
  | element tag attributes selfClosing start children =>
    rw [lower] at h
    obtain ⟨items, -, h⟩ := Except.bind_eq_ok.mp h
    obtain ⟨nodes, -, h⟩ := Except.bind_eq_ok.mp h
    dsimp only at h
    split at h
    · cases h
    · cases h
      unfold Node.looped Node.ofStart
      split
      · split <;> rfl
      · rfl

theorem Raw.lowerEach_edges {platform : Platform} {locate : Nat → Location} {depth : Nat}
    {rs : List Raw} (h : (lowerEach platform locate depth rs).2 = none) :
    Sibling.edges (lowerEach platform locate depth rs).1 = rs.map edge := by
  induction rs with
  | nil => rfl
  | cons r rest ih =>
    rw [lowerEach] at h ⊢
    split at h
    · cases h
    · rename_i s hs
      exact congrArg₂ List.cons (lower_edge hs) (ih h)

/-- Where neighbours are apart in the text they are in the tree. -/
theorem settle_joined {platform : Platform} {locate : Nat → Location} {depth : Nat}
    {rs : List Raw} {nodes : List Node}
    (h : settle (Raw.lowerEach platform locate depth rs) = .ok nodes) (hrs : Raw.JoinedAll rs) :
    Node.Joined nodes := by
  obtain ⟨hflaw, hgroup⟩ := settle_eq_ok h
  have hedges := hrs.isChain
  rw [← Raw.lowerEach_edges hflaw] at hedges
  exact (groupFrom_joined hgroup hedges .closed fun _ =>
    List.isChain_cons.mpr ⟨fun _ _ => Edge.closed_joins, hedges⟩).tail

end UiTemplate
