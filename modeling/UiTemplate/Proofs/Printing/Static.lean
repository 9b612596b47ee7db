import UiTemplate.Proofs.Printing.Condense
import UiTemplate.Proofs.Printing.Markup
import UiTemplate.Proofs.Template.WellFormed

/-!
# Static markup is read back

- `Template.parse_generate`: the markup of a static template is a template, whose tree is the same up
  to places in the text.
-/

namespace UiTemplate

open Raw

/-- The fixed attributes of a node. -/
def Node.attributes : Node → List Attribute
  | element info _ => info.attributes
  | slot info _ => info.attributes
  | _ => []

/-- No fixed attribute in the nodes has a double quote in its value. -/
def Node.QuoteFree (ns : List Node) : Prop :=
  ∀ n ∈ Node.withinAll ns, ∀ a ∈ n.attributes, ∀ v ∈ a.value, '"' ∉ v.toList

theorem Node.quoteFree_cons {n : Node} {ns : List Node} :
    Node.QuoteFree (n :: ns) ↔
      (∀ m ∈ n.within, ∀ a ∈ m.attributes, ∀ v ∈ a.value, '"' ∉ v.toList) ∧ Node.QuoteFree ns :=
  List.forall_mem_append

namespace Raw

section

variable (platform : Platform) (locate : Nat → Location)

mutual

theorem printable_of_plain (r : Raw) (h : IsPlain platform r)
    (hq : ∀ n ∈ (plain locate r).within, ∀ a ∈ n.attributes, ∀ v ∈ a.value, '"' ∉ v.toList) :
    ∀ p ∈ r.pieces, p.Printable := by
  match r with
  | .text .. => exact List.forall_mem_singleton.mpr trivial
  | .comment .. => exact List.forall_mem_singleton.mpr trivial
  | .element tag attributes selfClosing start children =>
    rw [plain, Node.within, List.forall_mem_cons] at hq
    have hchildren := printableAll_of_plain children h.2 hq.2
    have hstart : (Piece.openTag tag attributes selfClosing start).Printable := by
      intro a ha v hv
      exact hq.1 (a.fixed locate) (List.mem_map_of_mem ha) v hv
    rw [Raw.pieces]
    refine List.forall_mem_cons.mpr ⟨hstart, ?_⟩
    split
    · exact fun _ hp => absurd hp List.not_mem_nil
    · exact List.forall_mem_append.mpr ⟨hchildren, List.forall_mem_singleton.mpr trivial⟩

/-- The pieces of a plain tree can be printed if its values hold no quotes. -/
theorem printableAll_of_plain (rs : List Raw) (h : IsPlainAll platform rs)
    (hq : Node.QuoteFree (plainAll locate rs)) : ∀ p ∈ piecesAll rs, p.Printable := by
  match rs with
  | [] => exact fun _ hp => absurd hp List.not_mem_nil
  | r :: rest =>
    rw [plainAll, Node.quoteFree_cons] at hq
    exact List.forall_mem_append.mpr
      ⟨printable_of_plain r h.1 hq.1, printableAll_of_plain rest h.2 hq.2⟩

end

end

/-- A tree as it can be read from a text: its pieces are well-formed, and no text follows a text. -/
structure WellFormed (rs : List Raw) : Prop where
  pieces : ∀ p ∈ piecesAll rs, p.WellFormed
  apart : (piecesAll rs).IsChain Piece.Apart
  proper : ProperAll rs

theorem wellFormed_settled {p : Piece} (h : p.WellFormed) : p.settled.WellFormed := by
  cases p <;> exact h

theorem isText_settled (p : Piece) : p.settled.isText = p.isText := by
  cases p <;> rfl

theorem wellFormed_of_read {source : List Char} {rs : List Raw} (h : read source = .ok rs) :
    WellFormed rs := by
  obtain ⟨hpieces, hproper⟩ := read_pieces h
  obtain ⟨hwf, hapart, -⟩ := pieces_spec ⟨0, source⟩
  refine ⟨?_, ?_, hproper⟩
  · rw [hpieces, List.forall_mem_map]
    exact fun p hp => wellFormed_settled (hwf p hp)
  · rw [hpieces, List.isChain_map]
    refine hapart.imp fun p q hpq => ?_
    unfold Piece.Apart at hpq ⊢
    rwa [isText_settled, isText_settled]

theorem WellFormed.condense {rs : List Raw} (h : WellFormed rs) :
    WellFormed (condenseAll none rs) :=
  have hthinned := thinned_condenseAll none rs
  ⟨hthinned.wellFormed h.pieces, hthinned.apart h.apart, properAll_condenseAll none rs h.proper⟩

/-- A tree whose pieces can be printed is read from what they are written as, up to places. -/
theorem WellFormed.read_print {rs : List Raw} (h : WellFormed rs)
    (hp : ∀ p ∈ piecesAll rs, p.Printable) :
    ∃ rs', read ((piecesAll rs).flatMap Piece.print) = .ok rs' ∧
      unlocatedAll rs' = unlocatedAll rs := by
  obtain ⟨ps, hps, hun⟩ := pieces_print 0 h.pieces hp h.apart
  exact read_of_pieces hps h.proper hun

end Raw

namespace Whitespace

/-- The nodes of which the meaning is taken. -/
def kept (whitespace : Whitespace) (rs : List Raw) : List Raw :=
  match whitespace with
  | .preserve => rs
  | .condense => condenseAll none rs

theorem wellFormed_kept (whitespace : Whitespace) {rs : List Raw} (h : WellFormed rs) :
    WellFormed (whitespace.kept rs) := by
  cases whitespace with
  | preserve => exact h
  | condense => exact h.condense

theorem kept_kept (whitespace : Whitespace) {rs : List Raw} (h : WellFormed rs) :
    whitespace.kept (whitespace.kept rs) = whitespace.kept rs := by
  cases whitespace with
  | preserve => rfl
  | condense => exact condenseAll_condenseAll none none rs h.apart h.proper fun _ => rfl

theorem unlocatedAll_kept (whitespace : Whitespace) (rs : List Raw) :
    unlocatedAll (whitespace.kept rs) = whitespace.kept (unlocatedAll rs) := by
  cases whitespace with
  | preserve => rfl
  | condense => exact unlocatedAll_condenseAll none rs

end Whitespace

namespace Template

theorem read_eq (options : ParseOptions) {source : List Char} {rs : List Raw}
    (h : Raw.read source = .ok rs) :
    read options source =
      settle (lowerEach options.platform (Location.locate source) 0
        (options.whitespace.kept rs)) := by
  unfold read
  rw [h]
  rfl

/-- The markup of a static template without double quotes in its values is a template, whose tree is
the same up to places in the text. -/
theorem parse_generate (options : ParseOptions) (settings : MarkupSettings) {source : String}
    {nodes : List Node} (h : parse options source = .ok nodes)
    (hstatic : ∀ n ∈ nodes, n.isStatic = true) (hquotes : Node.QuoteFree nodes) :
    ∃ markup nodes', Markup.generate settings nodes = .ok (markup, []) ∧
      parse options markup = .ok nodes' ∧ Node.unlocatedAll nodes' = Node.unlocatedAll nodes := by
  have hread := parse_eq_ok.mp h
  obtain ⟨raw, hraw⟩ : ∃ raw, Raw.read source.toList = .ok raw := by
    rw [read, Except.bind_eq_ok] at hread
    obtain ⟨raw, hraw, -⟩ := hread
    exact ⟨raw, hraw⟩
  have hwfRaw := wellFormed_of_read hraw
  obtain ⟨kept, hkept⟩ : ∃ kept, options.whitespace.kept raw = kept := ⟨_, rfl⟩
  have hwf : WellFormed kept := hkept ▸ options.whitespace.wellFormed_kept hwfRaw
  rw [read_eq options hraw, hkept] at hread
  -- What is static is plain, and the nodes are those that it stands for.
  have hplain := isPlainAll_of_static _ _ 0 kept hread hstatic
  have hnodes : nodes = plainAll (Location.locate source.toList) kept := by
    rw [settle_plain _ _ 0 kept hplain] at hread
    exact (Except.ok.inj hread).symm
  subst hnodes
  have hprintable := printableAll_of_plain options.platform _ kept hplain hquotes
  have hlocate : ∀ n, (Location.locate source.toList n).offset = n := fun _ => rfl
  obtain ⟨markup, hmarkup, htext⟩ :=
    Markup.generate_plain settings hlocate hwf.proper hwf.pieces hprintable
  -- The markup is read as the same tree, in which no blanks are left to be left out.
  obtain ⟨raw', hraw', hun⟩ := hwf.read_print hprintable
  rw [← htext] at hraw'
  have hkept' : unlocatedAll (options.whitespace.kept raw') = unlocatedAll kept := by
    rw [Whitespace.unlocatedAll_kept, hun, ← Whitespace.unlocatedAll_kept, ← hkept,
      options.whitespace.kept_kept hwfRaw]
  have hplain' : IsPlainAll options.platform (options.whitespace.kept raw') := by
    rw [← isPlainAll_unlocatedAll, hkept', isPlainAll_unlocatedAll]
    exact hplain
  refine ⟨markup, plainAll (Location.locate markup.toList) (options.whitespace.kept raw'), hmarkup,
    ?_, ?_⟩
  · rw [parse_eq_ok, read_eq options hraw', settle_plain _ _ 0 _ hplain']
  · rw [unlocatedAll_plainAll, unlocatedAll_plainAll, hkept']

/-- Blanks that only lay the template out, a comment that ends in dashes, a less-than sign in a text,
and attributes without double quotes. -/
def laidOut : String :=
  "<view id = a>\n  <!-- x --->\n  1 <  2\n  <input disabled>\n  <text title=''/>\n</view>\n"

/-- The markup of such a template, which is read as the same tree. -/
theorem parse_generate_laidOut :
    ∃ nodes markup nodes', parse ⟨.weixin, .condense⟩ laidOut = .ok nodes ∧
      (∀ n ∈ nodes, n.isStatic = true) ∧ Node.QuoteFree nodes ∧
      Markup.generate ⟨.weixin, "d", false⟩ nodes = .ok (markup, []) ∧
      markup =
        "<view id=\"a\"><!-- x ---> 1 < 2 <input disabled/><text title=\"\"/></view>" ∧
      parse ⟨.weixin, .condense⟩ markup = .ok nodes' ∧
      Node.unlocatedAll nodes' = Node.unlocatedAll nodes := by
  have hrun : (parse ⟨.weixin, .condense⟩ laidOut).toOption.map (fun nodes =>
      (nodes.all Node.isStatic,
        (Node.withinAll nodes).all fun n => n.attributes.all fun a => a.value.all fun v =>
          !v.toList.contains '"',
        (Markup.generate ⟨.weixin, "d", false⟩ nodes).toOption.map Prod.fst)) =
      some (true, true, some
        "<view id=\"a\"><!-- x ---> 1 < 2 <input disabled/><text title=\"\"/></view>") := by
    decide +kernel
  cases hp : parse ⟨.weixin, .condense⟩ laidOut with
  | error e =>
    rw [hp] at hrun
    cases hrun
  | ok nodes =>
    rw [hp] at hrun
    obtain ⟨hall, hrest⟩ := Prod.mk.inj (Option.some.inj hrun)
    obtain ⟨hfree, htext⟩ := Prod.mk.inj hrest
    have hstatic : ∀ n ∈ nodes, n.isStatic = true := List.all_eq_true.mp hall
    have hquotes : Node.QuoteFree nodes := by
      intro n hn a ha v hv
      have hvalue := List.all_eq_true.mp (List.all_eq_true.mp hfree n hn) a ha
      rw [Option.mem_def.mp hv] at hvalue
      simpa using hvalue
    obtain ⟨markup, nodes', hmarkup, hread, hsame⟩ :=
      parse_generate ⟨.weixin, .condense⟩ ⟨.weixin, "d", false⟩ hp hstatic hquotes
    rw [hmarkup] at htext
    exact ⟨nodes, markup, nodes', rfl, hstatic, hquotes, hmarkup, Option.some.inj htext, hread, hsame⟩

end Template

end UiTemplate
