import UiTemplate.Template.Stored
import UiTemplate.Proofs.Expression.Source
import UiTemplate.Proofs.Json.ReadBack
import UiTemplate.Proofs.Json.Record
import UiTemplate.Proofs.Template.Contents
import UiTemplate.Proofs.Template.WellFormed

/-!
# Storing trees and reading them again

Locations are stored as words of 32 bits, the other numbers of a tree as words of 64 bits.

- `Node.inWords`: a tree as such words hold it.
- `Expression.readsBack_of_parse`: an expression that was read is read again from its own text.
- `Template.ofJson?_toJson`: a stored tree is read again as the tree that such words hold.
- `Template.inWords_eq`: words hold all numbers of a tree that was read from a text of less than four
  gigabytes.
- `Template.parse_stored`: both for the trees of templates, bare or annotated.
- `Template.parse_stored_text`: such a tree is read again from its stored text if arrays and objects
  are nested no deeper than `Json.maxDepth`.
-/

namespace UiTemplate

open Json

/-! ## Trees in words -/

/-- The location as words of 32 bits hold it. -/
def Location.inWords (l : Location) : Location :=
  ⟨l.line % 0x100000000, l.column % 0x100000000, l.offset % 0x100000000⟩

/-- The attribute with its location in words. -/
def Attribute.inWords (a : Attribute) : Attribute :=
  { a with location := a.location.inWords }

/-- The directive with its location in words. -/
def Directive.inWords : Directive → Directive
  | .structural kind location => .structural kind location.inWords
  | .binding b => .binding { b with location := b.location.inWords }
  | .unsupported name value location => .unsupported name value location.inWords

/-- The resolution with its numbers in words of 64 bits. -/
def Resolution.inWords (r : Resolution) : Resolution :=
  { r with
    loopPath := r.loopPath.map (· % 0x10000000000000000)
    branch := r.branch.map (· % 0x10000000000000000) }

/-- The element with its locations in words. -/
def ElementInfo.inWords (info : ElementInfo) : ElementInfo :=
  { info with
    attributes := info.attributes.map Attribute.inWords
    directives := info.directives.map Directive.inWords
    location := info.location.inWords }

/-- The slot with its locations and its resolution in words. -/
def SlotInfo.inWords (info : SlotInfo) : SlotInfo :=
  { info with
    attributes := info.attributes.map Attribute.inWords
    directives := info.directives.map Directive.inWords
    resolution := info.resolution.map Resolution.inWords
    location := info.location.inWords }

/-- The branch with its location in words. -/
def BranchInfo.inWords (info : BranchInfo) : BranchInfo :=
  { info with location := info.location.inWords }

/-- The loop with its location and its depth in words. -/
def LoopInfo.inWords (info : LoopInfo) : LoopInfo :=
  { info with depth := info.depth % 0x10000000000000000, location := info.location.inWords }

mutual

/-- The node with all its numbers in words. -/
def Node.inWords : Node → Node
  | .element info children => .element info.inWords (Node.inWordsAll children)
  | .text value location => .text value location.inWords
  | .interpolation expression key location => .interpolation expression key location.inWords
  | .slot info fallback => .slot info.inWords (Node.inWordsAll fallback)
  | .chain branches key location => .chain (Branch.inWordsAll branches) key location.inWords
  | .loop info children => .loop info.inWords (Node.inWordsAll children)
  | .comment value location => .comment value location.inWords

/-- The nodes with all their numbers in words. -/
def Node.inWordsAll : List Node → List Node
  | [] => []
  | n :: rest => n.inWords :: Node.inWordsAll rest

/-- The branches with all their numbers in words. -/
def Branch.inWordsAll : List Branch → List Branch
  | [] => []
  | .mk info children :: rest =>
    .mk info.inWords (Node.inWordsAll children) :: Branch.inWordsAll rest

end

/-! ## Expressions -/

namespace Expression

/-- The expression is read again from its own text. -/
def ReadsBack (e : Expression) : Prop :=
  parse e.source = .ok e

/-- An expression that was read from a text is read again from its own. -/
theorem readsBack_of_parse {text : String} {e : Expression} (h : parse text = .ok e) :
    e.ReadsBack := by
  have hsame : parse (String.ofList (Text.trim text.toList)) = parse text := by
    simp only [parse, String.toList_ofList, Text.trim_trim]
  rw [ReadsBack, source_of_parse h, hsame, h]

/-- An expression whose text is read as itself is read back. -/
theorem ReadsBack.ofJson? {e : Expression} (h : e.ReadsBack) :
    Expression.ofJson? e.toJson = some e := by
  rw [toJson, Expression.ofJson?, h]
  rfl

end Expression

/-! ## Parts of nodes -/

/-- A number that was cut to a word fits into it. -/
theorem word32?_mod (n : Nat) : word32? (.nat (n % 0x100000000)) = some (n % 0x100000000) :=
  natBelow?_nat (Nat.mod_lt n (by decide))

theorem word64?_mod (n : Nat) :
    word64? (.nat (n % 0x10000000000000000)) = some (n % 0x10000000000000000) :=
  natBelow?_nat (Nat.mod_lt n (by decide))

/-- Every kind is stored under a name of its own. -/
theorem ElementKind.stored?_names (k : ElementKind) : stored? names (storedName names k) = some k := by
  cases k <;> rfl

theorem BindingKind.stored?_names (k : BindingKind) : stored? names (storedName names k) = some k := by
  cases k <;> rfl

theorem BranchKind.stored?_names (k : BranchKind) : stored? names (storedName names k) = some k := by
  cases k <;> rfl

theorem FallbackPolicy.stored?_names (p : FallbackPolicy) :
    stored? names (storedName names p) = some p := by
  cases p <;> rfl

/-- A place is read back. -/
theorem Location.ofJson?_toJson (l : Location) : ofJson? l.inWords.toJson = some l.inWords := by
  have hrecord : IsRecord l.inWords.toJson _ := isRecord_ofFields (by simp)
  refine hrecord.fields?_bind rfl fun f hf => ?_
  simp [Fields.required, hf.lookup, lookup, inWords, word32?_mod]

/-- An attribute is read back, with its value or none. -/
theorem Attribute.ofJson?_toJson (a : Attribute) : ofJson? a.inWords.toJson = some a.inWords := by
  have hrecord : IsRecord a.inWords.toJson _ := isRecord_ofFields (by simp)
  refine hrecord.fields?_bind rfl fun f hf => ?_
  simp [Fields.required, Fields.nullable, Fields.withDefault, hf.lookup, lookup, inWords, str?,
    Location.ofJson?_toJson]

/-- All that is asked of a tree to read it back: that its expressions are read back. -/
def readable : Demand where
  expression := Expression.ReadsBack
  location _ := True
  number _ := True

/-- A structural directive is read back with its expressions. -/
theorem Structure.ofJson?_toJson (s : Structure) (h : ∀ e ∈ s.expressions, e.ReadsBack) :
    ofJson? s.toJson = some s := by
  cases s with
  | onlyIf condition =>
    have hrecord : IsRecord (onlyIf condition).toJson _ := isRecord_ofFields (by simp)
    refine hrecord.tagged?_bind fun body hbody => ?_
    have hcondition := (h condition List.mem_cons_self).ofJson?
    refine hbody.fields?_bind rfl fun f hf => ?_
    simp [Fields.required, hf.lookup, lookup, hcondition]
  | elseIf condition =>
    have hrecord : IsRecord (elseIf condition).toJson _ := isRecord_ofFields (by simp)
    refine hrecord.tagged?_bind fun body hbody => ?_
    have hcondition := (h condition List.mem_cons_self).ofJson?
    refine hbody.fields?_bind rfl fun f hf => ?_
    simp [Fields.required, hf.lookup, lookup, hcondition]
  | otherwise =>
    have hrecord : IsRecord otherwise.toJson _ := isRecord_ofFields (by simp)
    exact hrecord.tagged?_bind fun body hbody => rfl
  | forEach source item index =>
    have hrecord : IsRecord (forEach source item index).toJson _ := isRecord_ofFields (by simp)
    refine hrecord.tagged?_bind fun body hbody => ?_
    have hsource := (h source List.mem_cons_self).ofJson?
    refine hbody.fields?_bind rfl fun f hf => ?_
    simp [Fields.required, Fields.nullable, hf.lookup, lookup, hsource, str?]

/-- So is every directive. -/
theorem Directive.ofJson?_toJson (d : Directive) (h : d.Meets readable) :
    ofJson? d.inWords.toJson = some d.inWords := by
  cases d with
  | structural kind location =>
    have hrecord : IsRecord (structural kind location).inWords.toJson _ :=
      isRecord_ofFields (by simp)
    refine hrecord.tagged?_bind fun body hbody => ?_
    have hkind := Structure.ofJson?_toJson kind h.1
    refine hbody.fields?_bind rfl fun f hf => ?_
    simp [Fields.required, Fields.withDefault, hf.lookup, lookup, inWords, hkind,
      Location.ofJson?_toJson]
  | binding b =>
    have hrecord : IsRecord (binding b).inWords.toJson _ := isRecord_ofFields (by simp)
    refine hrecord.tagged?_bind fun body hbody => ?_
    have hexpression := Expression.ReadsBack.ofJson? h.1
    refine hbody.fields?_bind rfl fun f hf => ?_
    simp [Fields.required, Fields.withDefault, hf.lookup, lookup, inWords, hexpression, str?,
      BindingKind.stored?_names, Location.ofJson?_toJson]
  | unsupported name value location =>
    have hrecord : IsRecord (unsupported name value location).inWords.toJson _ :=
      isRecord_ofFields (by simp)
    refine hrecord.tagged?_bind fun body hbody => ?_
    refine hbody.fields?_bind rfl fun f hf => ?_
    simp [Fields.required, Fields.nullable, Fields.withDefault, hf.lookup, lookup, inWords, str?,
      Location.ofJson?_toJson]

theorem OutletBase.ofJson?_toJson (b : OutletBase) (h : ∀ e ∈ b.expression?, e.ReadsBack) :
    ofJson? b.toJson = some b := by
  cases b with
  | fixed name =>
    have hrecord : IsRecord (fixed name).toJson _ := isRecord_ofFields (by simp)
    refine hrecord.fields?_bind rfl fun f hf => ?_
    simp [Fields.required, hf.lookup, lookup, variant?, str?]
  | computed name =>
    have hrecord : IsRecord (computed name).toJson _ := isRecord_ofFields (by simp)
    have hname := (h name rfl).ofJson?
    refine hrecord.fields?_bind rfl fun f hf => ?_
    simp [Fields.required, hf.lookup, lookup, variant?, hname]

/-- So is what the binding resolved a slot to. -/
theorem Resolution.ofJson?_toJson (r : Resolution) (h : r.Meets readable) :
    ofJson? r.inWords.toJson = some r.inWords := by
  have hrecord : IsRecord r.inWords.toJson _ := isRecord_ofFields (by simp)
  have hbase : OutletBase.ofJson? r.inWords.base.toJson = some r.inWords.base :=
    OutletBase.ofJson?_toJson r.base h.base
  have hloops : list? word64? (ofList .nat r.inWords.loopPath) = some r.inWords.loopPath := by
    refine list?_ofList fun n hn => ?_
    obtain ⟨m, -, rfl⟩ := List.mem_map.mp hn
    exact word64?_mod m
  have hbranch : Fields.orNull word64? (ofOption .nat r.inWords.branch) = some r.inWords.branch := by
    refine orNull_ofOption fun n hn => ⟨?_, rfl⟩
    obtain ⟨m, -, rfl⟩ := Option.map_eq_some_iff.mp hn
    exact word64?_mod m
  refine hrecord.fields?_bind rfl fun f hf => ?_
  simp [Fields.required, Fields.nullable, hf.lookup, lookup, hloops, hbranch,
    FallbackPolicy.stored?_names, hbase]

/-- So are the keys of a slot. -/
theorem SlotKeys.ofJson?_toJson (k : SlotKeys) : ofJson? k.toJson = some k := by
  have hrecord : IsRecord k.toJson _ := isRecord_ofFields (by simp)
  refine hrecord.fields?_bind rfl fun f hf => ?_
  simp [Fields.nullable, hf.lookup, lookup]

/-! ## Nodes -/

section Lists

theorem Attribute.list?_toJson (as : List Attribute) :
    list? ofJson? (ofList toJson (as.map inWords)) = some (as.map inWords) := by
  refine list?_ofList fun a ha => ?_
  obtain ⟨a', -, rfl⟩ := List.mem_map.mp ha
  exact a'.ofJson?_toJson

/-- So are all directives of a node. -/
theorem Directive.list?_toJson (ds : List Directive) (h : ∀ d ∈ ds, d.Meets readable) :
    list? ofJson? (ofList toJson (ds.map inWords)) = some (ds.map inWords) := by
  refine list?_ofList fun d hd => ?_
  obtain ⟨d', hd', rfl⟩ := List.mem_map.mp hd
  exact d'.ofJson?_toJson (h d' hd')

theorem Expression.orNull_toJson (e : Option Expression) (h : ∀ x ∈ e, x.ReadsBack) :
    Fields.orNull ofJson? (ofOption toJson e) = some e :=
  orNull_ofOption fun x hx => ⟨(h x hx).ofJson?, rfl⟩

theorem Resolution.orNull_toJson (r : Option Resolution) (h : ∀ x ∈ r, x.Meets readable) :
    Fields.orNull ofJson? (ofOption toJson (r.map inWords)) = some (r.map inWords) := by
  refine orNull_ofOption fun x hx => ?_
  obtain ⟨x', hx', rfl⟩ := Option.map_eq_some_iff.mp hx
  exact ⟨x'.ofJson?_toJson (h x' hx'), rfl⟩

end Lists

/-- A node is read as its type says, with one level less for the nodes below it. -/
theorem Node.ofJson?_eq {n : Node} {type : String} {fields : List (String × Json)} {fuel : Nat}
    (hrecord : IsRecord n.toJson (("type", .str type) :: fields)) (hfuel : n.toJson.depth ≤ fuel)
    (hbody : ∀ rest body, fuel = rest + 1 → IsRecord body fields →
      Node.ofBody? (Node.ofJson? rest) type body = some n) :
    Node.ofJson? fuel n.toJson = some n := by
  have hpos := hrecord.depth_lt List.mem_cons_self
  obtain ⟨rest, rfl⟩ : ∃ rest, fuel = rest + 1 := ⟨fuel - 1, by omega⟩
  exact hrecord.tagged?_bind fun body hb => hbody rest body rfl hb

/-- The nodes below a node lie less deep than it. -/
theorem Json.IsRecord.items_le {v : Json} {fields : List (String × Json)} (h : IsRecord v fields)
    (key : String) {items : List Json} (hw : (key, .arr items) ∈ fields) {rest : Nat}
    (hfuel : v.depth ≤ rest + 1) : itemsDepth items ≤ rest := by
  have hlt := h.depth_lt hw
  rw [depth] at hlt
  omega

/-- The fields of a branch with stored nodes. -/
def BranchInfo.fields (info : BranchInfo) (children : List Json) : List (String × Json) :=
  [("kind", storedName BranchKind.names info.kind),
    ("condition", ofOption Expression.toJson info.condition), ("children", .arr children),
    ("key", ofOption .str info.key), ("location", info.location.toJson)]

theorem BranchInfo.isRecord_fields (info : BranchInfo) (children : List Json) :
    IsRecord (ofFields (info.fields children)) (info.fields children) :=
  isRecord_ofFields (by simp [fields])

/-- A stored branch is read again if its nodes are. -/
theorem Branch.ofJson?_toJson {info : BranchInfo} (h : info.Meets readable) {children : List Node}
    {items : List Json} {node? : Json → Option Node}
    (hchildren : list? node? (.arr items) = some children) :
    Branch.ofJson? node? (ofFields (info.inWords.fields items)) =
      some (.mk info.inWords children) := by
  have hcondition := Expression.orNull_toJson info.condition h.condition
  refine (info.inWords.isRecord_fields items).fields?_bind rfl fun f hf => ?_
  simp [Fields.required, Fields.nullable, Fields.withDefault, hf.lookup, BranchInfo.fields, lookup,
    BranchKind.stored?_names, hchildren, BranchInfo.inWords, hcondition, Location.ofJson?_toJson]

mutual

/-- A stored node is read again as words hold it, with a level for each node inside another. -/
theorem Node.ofJson?_toJson (n : Node) (h : ∀ m ∈ n.within, m.Meets readable) {fuel : Nat}
    (hfuel : n.inWords.toJson.depth ≤ fuel) :
    Node.ofJson? fuel n.inWords.toJson = some n.inWords := by
  -- In each case the stored form is a record with a field for the type. The fields below nodes are
  -- less deep than the record, so that the fuel lasts for them.
  match n with
  | .element info children =>
    obtain ⟨hinfo, hbelow⟩ := List.forall_mem_cons.mp h
    have hrecord : IsRecord (Node.element info children).inWords.toJson _ :=
      isRecord_ofFields (by simp)
    refine Node.ofJson?_eq hrecord hfuel fun rest body hrest hbody => ?_
    have hchildren := Node.list?_toJson children hbelow
      (hrecord.items_le "children" (by simp) (hrest ▸ hfuel))
    have hattributes := Attribute.list?_toJson info.attributes
    have hdirectives := Directive.list?_toJson info.directives hinfo.directives
    unfold Node.ofBody?
    refine hbody.fields?_bind rfl fun f hf => ?_
    simp [Fields.required, Fields.withDefault, hf.lookup, lookup, str?, bool?, hchildren,
      ElementInfo.inWords, hattributes, hdirectives, ElementKind.stored?_names,
      Location.ofJson?_toJson, Node.inWords]
  | .text value location =>
    have hrecord : IsRecord (Node.text value location).inWords.toJson _ :=
      isRecord_ofFields (by simp)
    refine Node.ofJson?_eq hrecord hfuel fun rest body hrest hbody => ?_
    unfold Node.ofBody?
    refine hbody.fields?_bind rfl fun f hf => ?_
    simp [Fields.required, Fields.withDefault, hf.lookup, lookup, str?, Location.ofJson?_toJson,
      Node.inWords]
  | .interpolation expression key location =>
    have hexpression : expression.ReadsBack := (List.forall_mem_singleton.mp h).1
    have hrecord : IsRecord (Node.interpolation expression key location).inWords.toJson _ :=
      isRecord_ofFields (by simp)
    refine Node.ofJson?_eq hrecord hfuel fun rest body hrest hbody => ?_
    unfold Node.ofBody?
    refine hbody.fields?_bind rfl fun f hf => ?_
    simp [Fields.required, Fields.withDefault, hf.lookup, lookup, hexpression.ofJson?,
      Location.ofJson?_toJson, Node.inWords]
  | .slot info fallback =>
    obtain ⟨hinfo, hbelow⟩ := List.forall_mem_cons.mp h
    have hrecord : IsRecord (Node.slot info fallback).inWords.toJson _ :=
      isRecord_ofFields (by simp)
    refine Node.ofJson?_eq hrecord hfuel fun rest body hrest hbody => ?_
    have hfallback := Node.list?_toJson fallback hbelow
      (hrecord.items_le "fallback" (by simp) (hrest ▸ hfuel))
    have hname := Expression.orNull_toJson info.dynamicName hinfo.name
    have hattributes := Attribute.list?_toJson info.attributes
    have hdirectives := Directive.list?_toJson info.directives hinfo.directives
    have hresolution := Resolution.orNull_toJson info.resolution hinfo.resolution
    unfold Node.ofBody?
    refine hbody.fields?_bind rfl fun f hf => ?_
    simp [Fields.required, Fields.nullable, Fields.withDefault, hf.lookup, lookup, bool?, hfallback,
      SlotInfo.inWords, hname, hattributes, hdirectives, hresolution, SlotKeys.ofJson?_toJson,
      Location.ofJson?_toJson, Node.inWords]
  | .chain branches key location =>
    obtain ⟨hinfo, hbelow⟩ := List.forall_mem_cons.mp h
    have hrecord : IsRecord (Node.chain branches key location).inWords.toJson _ :=
      isRecord_ofFields (by simp)
    refine Node.ofJson?_eq hrecord hfuel fun rest body hrest hbody => ?_
    have hbranches := Branch.list?_toJson branches hinfo.each hbelow
      (hrecord.items_le "branches" (by simp) (hrest ▸ hfuel))
    unfold Node.ofBody?
    refine hbody.fields?_bind rfl fun f hf => ?_
    simp [Fields.required, Fields.withDefault, hf.lookup, lookup, hbranches,
      Location.ofJson?_toJson, Node.inWords]
  | .loop info children =>
    obtain ⟨hinfo, hbelow⟩ := List.forall_mem_cons.mp h
    have hrecord : IsRecord (Node.loop info children).inWords.toJson _ :=
      isRecord_ofFields (by simp)
    refine Node.ofJson?_eq hrecord hfuel fun rest body hrest hbody => ?_
    have hchildren := Node.list?_toJson children hbelow
      (hrecord.items_le "children" (by simp) (hrest ▸ hfuel))
    have hsource := Expression.ReadsBack.ofJson? hinfo.source
    unfold Node.ofBody?
    refine hbody.fields?_bind rfl fun f hf => ?_
    simp [Fields.required, Fields.nullable, Fields.withDefault, hf.lookup, lookup, str?, hchildren,
      LoopInfo.inWords, hsource, word64?_mod, Location.ofJson?_toJson, Node.inWords]
  | .comment value location =>
    have hrecord : IsRecord (Node.comment value location).inWords.toJson _ :=
      isRecord_ofFields (by simp)
    refine Node.ofJson?_eq hrecord hfuel fun rest body hrest hbody => ?_
    unfold Node.ofBody?
    refine hbody.fields?_bind rfl fun f hf => ?_
    simp [Fields.required, Fields.withDefault, hf.lookup, lookup, str?, Location.ofJson?_toJson,
      Node.inWords]

/-- Nodes are read back, if the reader may go as deep as they are nested. -/
theorem Node.list?_toJson (ns : List Node) (h : Node.MeetAll readable ns) {fuel : Nat}
    (hfuel : itemsDepth (Node.toJsonAll (Node.inWordsAll ns)) ≤ fuel) :
    list? (Node.ofJson? fuel) (.arr (Node.toJsonAll (Node.inWordsAll ns))) =
      some (Node.inWordsAll ns) := by
  match ns with
  | [] => rfl
  | n :: rest =>
    obtain ⟨hn, hrest⟩ := Node.meetAll_cons.mp h
    rw [Node.inWordsAll, Node.toJsonAll, itemsDepth] at hfuel
    have hfirst := Node.ofJson?_toJson n hn (Nat.le_trans (Nat.le_max_left ..) hfuel)
    have hothers := Node.list?_toJson rest hrest (Nat.le_trans (Nat.le_max_right ..) hfuel)
    rw [list?] at hothers ⊢
    rw [Node.inWordsAll, Node.toJsonAll, List.mapM_cons, hfirst, hothers]
    rfl

/-- So are the branches of a chain. -/
theorem Branch.list?_toJson (bs : List Branch) (hinfo : ∀ b ∈ bs, b.info.Meets readable)
    (h : ∀ m ∈ Branch.withinAll bs, m.Meets readable) {fuel : Nat}
    (hfuel : itemsDepth (Branch.toJsonAll (Branch.inWordsAll bs)) ≤ fuel) :
    list? (Branch.ofJson? (Node.ofJson? fuel)) (.arr (Branch.toJsonAll (Branch.inWordsAll bs))) =
      some (Branch.inWordsAll bs) := by
  match bs with
  | [] => rfl
  | .mk info children :: rest =>
    obtain ⟨hchildren, hrest⟩ := List.forall_mem_append.mp h
    obtain ⟨hfirst, hinfos⟩ := List.forall_mem_cons.mp hinfo
    rw [Branch.inWordsAll, Branch.toJsonAll, itemsDepth] at hfuel
    have hrecord := info.inWords.isRecord_fields (Node.toJsonAll (Node.inWordsAll children))
    have hnodes := Node.list?_toJson children hchildren
      (hrecord.items_le "children" (by simp [BranchInfo.fields])
        (Nat.le_succ_of_le (Nat.le_trans (Nat.le_max_left ..) hfuel)))
    have hbranch := Branch.ofJson?_toJson hfirst hnodes
    have hothers := Branch.list?_toJson rest hinfos hrest (Nat.le_trans (Nat.le_max_right ..) hfuel)
    rw [list?] at hothers ⊢
    rw [Branch.inWordsAll, Branch.toJsonAll, List.mapM_cons, hothers]
    exact congrArg (· >>= _) hbranch

end

/-! ## Trees -/

/-- A stored tree is read again as words hold it, if its expressions are. -/
theorem Template.ofJson?_toJson {nodes : List Node} (h : Node.MeetAll readable nodes) :
    ofJson? (toJson (Node.inWordsAll nodes)) = some (Node.inWordsAll nodes) :=
  Node.list?_toJson nodes h (Nat.le_succ _)

/-- All numbers of a tree fit in words. -/
def wordSized : Demand where
  expression _ := True
  location l := l.inWords = l
  number n := n < 0x10000000000000000

/-- A place in a text that fits into words does so itself. -/
theorem Location.inWords_locate {source : List Char} {i : Nat} (hi : i ≤ Text.byteLength source)
    (h : Text.byteLength source + 1 < 0x100000000) :
    (locate source i).inWords = locate source i := by
  have hbefore : (Text.splitBytes i source).1.length ≤ Text.byteLength source := by
    refine Nat.le_trans ?_ (Text.length_le_byteLength source)
    have hlength := congrArg List.length (Text.splitBytes_append i source)
    rw [List.length_append] at hlength
    omega
  have hline : (locate source i).line ≤ Text.byteLength source + 1 :=
    Nat.succ_le_succ (Nat.le_trans List.count_le_length hbefore)
  have hcolumn : (locate source i).column ≤ Text.byteLength source + 1 := by
    refine Nat.succ_le_succ (Nat.le_trans (List.takeWhile_prefix _).length_le ?_)
    rwa [List.length_reverse]
  have hoffset : (locate source i).offset = i := rfl
  rw [inWords, Nat.mod_eq_of_lt (by omega), Nat.mod_eq_of_lt (by omega),
    Nat.mod_eq_of_lt (by omega)]

theorem map_eq_self {α : Type} {f : α → α} {as : List α} (h : ∀ a ∈ as, f a = a) : as.map f = as :=
  (List.map_congr_left h).trans (List.map_id as)

theorem Attribute.inWords_eq {a : Attribute} (h : a.location.inWords = a.location) :
    a.inWords = a := by
  rw [inWords, h]

theorem Directive.inWords_eq {d : Directive} (h : d.Meets wordSized) : d.inWords = d := by
  cases d with
  | structural kind location => exact congrArg _ h.2
  | binding b =>
    have hlocation : b.location.inWords = b.location := h.2
    rw [inWords, hlocation]
  | unsupported name value location => exact congrArg _ h

theorem Resolution.inWords_eq {r : Resolution} (h : r.Meets wordSized) : r.inWords = r := by
  have hloops : r.loopPath.map (· % 0x10000000000000000) = r.loopPath :=
    map_eq_self fun n hn => Nat.mod_eq_of_lt (h.loops n hn)
  have hbranch : r.branch.map (· % 0x10000000000000000) = r.branch := by
    cases hb : r.branch with
    | none => rfl
    | some n => exact congrArg some (Nat.mod_eq_of_lt (h.branch n hb))
  rw [inWords, hloops, hbranch]

theorem ElementInfo.inWords_eq {info : ElementInfo} (h : info.Meets wordSized) :
    info.inWords = info := by
  rw [inWords, map_eq_self fun a ha => Attribute.inWords_eq (h.attributes a ha),
    map_eq_self fun d hd => Directive.inWords_eq (h.directives d hd),
    show info.location.inWords = info.location from h.location]

theorem SlotInfo.inWords_eq {info : SlotInfo} (h : info.Meets wordSized) :
    info.inWords = info := by
  have hresolution : info.resolution.map Resolution.inWords = info.resolution := by
    cases hr : info.resolution with
    | none => rfl
    | some r => exact congrArg some (Resolution.inWords_eq (h.resolution r hr))
  rw [inWords, map_eq_self fun a ha => Attribute.inWords_eq (h.attributes a ha),
    map_eq_self fun d hd => Directive.inWords_eq (h.directives d hd), hresolution,
    show info.location.inWords = info.location from h.location]

theorem BranchInfo.inWords_eq {info : BranchInfo} (h : info.Meets wordSized) :
    info.inWords = info := by
  rw [inWords, show info.location.inWords = info.location from h.location]

theorem LoopInfo.inWords_eq {info : LoopInfo} (h : info.Meets wordSized) :
    info.inWords = info := by
  rw [inWords, Nat.mod_eq_of_lt h.depth,
    show info.location.inWords = info.location from h.location]

mutual

/-- Nothing is cut off from a node all of whose numbers fit into words. -/
theorem Node.inWords_eq (n : Node) (h : ∀ m ∈ n.within, m.Meets wordSized) : n.inWords = n := by
  match n with
  | .element info children =>
    obtain ⟨hinfo, hbelow⟩ := List.forall_mem_cons.mp h
    rw [Node.inWords, ElementInfo.inWords_eq hinfo, Node.inWordsAll_eq children hbelow]
  | .text value location =>
    have hlocation : location.inWords = location := h _ List.mem_cons_self
    rw [Node.inWords, hlocation]
  | .interpolation e key location =>
    have hlocation : location.inWords = location := (h _ List.mem_cons_self).2
    rw [Node.inWords, hlocation]
  | .slot info fallback =>
    obtain ⟨hinfo, hbelow⟩ := List.forall_mem_cons.mp h
    rw [Node.inWords, SlotInfo.inWords_eq hinfo, Node.inWordsAll_eq fallback hbelow]
  | .chain branches key location =>
    obtain ⟨hinfo, hbelow⟩ := List.forall_mem_cons.mp h
    rw [Node.inWords, Branch.inWordsAll_eq branches hinfo.each hbelow,
      show location.inWords = location from hinfo.place]
  | .loop info children =>
    obtain ⟨hinfo, hbelow⟩ := List.forall_mem_cons.mp h
    rw [Node.inWords, LoopInfo.inWords_eq hinfo, Node.inWordsAll_eq children hbelow]
  | .comment value location =>
    have hlocation : location.inWords = location := h _ List.mem_cons_self
    rw [Node.inWords, hlocation]

/-- Words hold a tree whose numbers fit. -/
theorem Node.inWordsAll_eq (ns : List Node) (h : Node.MeetAll wordSized ns) :
    Node.inWordsAll ns = ns := by
  match ns with
  | [] => rfl
  | n :: rest =>
    obtain ⟨hn, hrest⟩ := Node.meetAll_cons.mp h
    rw [Node.inWordsAll, Node.inWords_eq n hn, Node.inWordsAll_eq rest hrest]

/-- Nor from branches. -/
theorem Branch.inWordsAll_eq (bs : List Branch) (hinfo : ∀ b ∈ bs, b.info.Meets wordSized)
    (h : ∀ m ∈ Branch.withinAll bs, m.Meets wordSized) : Branch.inWordsAll bs = bs := by
  match bs with
  | [] => rfl
  | .mk info children :: rest =>
    obtain ⟨hchildren, hrest⟩ := List.forall_mem_append.mp h
    obtain ⟨hfirst, hinfos⟩ := List.forall_mem_cons.mp hinfo
    have hsame : info.inWords = info := BranchInfo.inWords_eq hfirst
    rw [Branch.inWordsAll, hsame, Node.inWordsAll_eq children hchildren,
      Branch.inWordsAll_eq rest hinfos hrest]

end

namespace Template

/-- The expressions of a tree that was read are read again from their texts. -/
theorem read_readable {options : ParseOptions} {source : List Char} {nodes : List Node}
    (h : read options source = .ok nodes) : Node.MeetAll readable nodes :=
  read_meets (fun _ _ he => Expression.readsBack_of_parse he) (fun _ _ => trivial)
    (fun _ _ => trivial) h

/-- Words hold the numbers of a tree that was read from a text of less than four gigabytes. -/
theorem read_wordSized {options : ParseOptions} {source : List Char} {nodes : List Node}
    (hsize : Text.byteLength source + 1 < 0x100000000) (h : read options source = .ok nodes) :
    Node.MeetAll wordSized nodes :=
  read_meets (fun _ _ _ => trivial) (fun _ hi => Location.inWords_locate hi hsize)
    (fun i hi => Nat.lt_trans (by omega : i < 0x100000000) (by decide)) h

/-- A tree that was read, bare or with slots resolved or bound values extracted, is read again as it
was stored. Its numbers are kept as words, which hold them all unless the text has four gigabytes. -/
theorem parse_stored {options : ParseOptions} {source : String} {nodes : List Node}
    (h : parse options source = .ok nodes) (p : Platform) :
    ∀ tree ∈ [nodes, resolveSlots p.capabilities nodes, (extract p.capabilities nodes).1,
        (annotate p.capabilities nodes).nodes],
      ofJson? (toJson (Node.inWordsAll tree)) = some (Node.inWordsAll tree) ∧
        (Text.byteLength source.toList + 1 < 0x100000000 → Node.inWordsAll tree = tree) := by
  have hread := parse_eq_ok.mp h
  have annotated {D : Demand} (hD : Node.MeetAll D nodes) :
      ∀ tree ∈ [nodes, resolveSlots p.capabilities nodes, (extract p.capabilities nodes).1,
        (annotate p.capabilities nodes).nodes], Node.MeetAll D tree := by
    have hresolved := resolveSlots_meets p.capabilities hD
    simp only [List.forall_mem_cons, List.not_mem_nil, false_implies, implies_true, and_true]
    exact ⟨hD, hresolved, extract_meets _ hD, extract_meets _ hresolved⟩
  intro tree htree
  refine ⟨ofJson?_toJson (annotated (read_readable hread) tree htree), fun hsize => ?_⟩
  exact Node.inWordsAll_eq tree (annotated (read_wordSized hsize hread) tree htree)

/-- A loop and a slot in one chain, with outlets and keys. -/
theorem parse_stored_loopOrSlot :
    ∃ nodes, parse {} loopOrSlot = .ok nodes ∧
      let tree := (annotate Platform.weixin.capabilities nodes).nodes
      tree.length = 1 ∧ ofJson? (toJson tree) = some tree := by
  have hrun : (parse {} loopOrSlot).toOption.map (fun nodes =>
      (annotate Platform.weixin.capabilities nodes).nodes.length) = some 1 := by
    decide +kernel
  have hsize : Text.byteLength loopOrSlot.toList + 1 < 0x100000000 := by
    decide +kernel
  cases hp : parse {} loopOrSlot with
  | error e =>
    rw [hp] at hrun
    cases hrun
  | ok nodes =>
    rw [hp] at hrun
    obtain ⟨hstored, hwords⟩ := parse_stored hp .weixin
      (annotate Platform.weixin.capabilities nodes).nodes (by simp)
    rw [hwords hsize] at hstored
    exact ⟨nodes, rfl, Option.some.inj hrun, hstored⟩

end Template

/-! ## Trees as text -/

/-- A word of 64 bits is at most the greatest. -/
theorem mod_le_word (n : Nat) : n % 0x10000000000000000 ≤ word :=
  Nat.le_of_lt_succ (Nat.mod_lt n (by decide))

theorem hasWords_storedName {α : Type} [DecidableEq α] (all : List (String × α)) (a : α) :
    (storedName all a).HasWords := by
  unfold storedName
  split <;> trivial

theorem Location.hasWords_toJson (l : Location) : l.inWords.toJson.HasWords := by
  have hword (n : Nat) : n % 0x100000000 ≤ word :=
    Nat.le_trans (Nat.le_of_lt (Nat.mod_lt n (by decide))) (by decide)
  exact hasWords_ofFields
    ⟨hasWords_nat (hword _), hasWords_nat (hword _), hasWords_nat (hword _), trivial⟩

theorem Attribute.hasWords_toJson (a : Attribute) : a.inWords.toJson.HasWords :=
  hasWords_ofFields ⟨trivial, hasWords_ofOption_str _, a.location.hasWords_toJson, trivial⟩

theorem Structure.hasWords_toJson (s : Structure) : s.toJson.HasWords := by
  cases s with
  | forEach source item index =>
    exact hasWords_ofFields ⟨trivial, trivial, trivial, hasWords_ofOption_str _, trivial⟩
  | otherwise => exact hasWords_ofFields ⟨trivial, trivial⟩
  | _ => exact hasWords_ofFields ⟨trivial, trivial, trivial⟩

theorem Directive.hasWords_toJson (d : Directive) : d.inWords.toJson.HasWords := by
  cases d with
  | structural kind location =>
    exact hasWords_ofFields ⟨trivial, kind.hasWords_toJson, location.hasWords_toJson, trivial⟩
  | binding b =>
    exact hasWords_ofFields
      ⟨trivial, hasWords_storedName _ _, trivial, trivial, hasWords_ofOption_str _,
        b.location.hasWords_toJson, trivial⟩
  | unsupported name value location =>
    exact hasWords_ofFields
      ⟨trivial, trivial, hasWords_ofOption_str _, location.hasWords_toJson, trivial⟩

theorem OutletBase.hasWords_toJson (b : OutletBase) : b.toJson.HasWords := by
  cases b <;> exact hasWords_ofFields ⟨trivial, trivial, trivial⟩

theorem Resolution.hasWords_toJson (r : Resolution) : r.inWords.toJson.HasWords := by
  have hloops : (ofList Json.nat r.inWords.loopPath).HasWords :=
    hasWords_ofList (List.forall_mem_map.mpr fun n _ => hasWords_nat (mod_le_word n))
  have hbranch : (ofOption Json.nat r.inWords.branch).HasWords := by
    refine hasWords_ofOption fun n hn => ?_
    obtain ⟨m, -, rfl⟩ := Option.map_eq_some_iff.mp hn
    exact hasWords_nat (mod_le_word m)
  exact hasWords_ofFields
    ⟨r.base.hasWords_toJson, hloops, hbranch, hasWords_storedName _ _, trivial⟩

theorem SlotKeys.hasWords_toJson (k : SlotKeys) : k.toJson.HasWords :=
  hasWords_ofFields ⟨hasWords_ofOption_str _, hasWords_ofOption_str _, trivial⟩

theorem Attribute.hasWords_ofList (as : List Attribute) :
    (ofList toJson (as.map inWords)).HasWords :=
  Json.hasWords_ofList (List.forall_mem_map.mpr fun a _ => a.hasWords_toJson)

theorem Directive.hasWords_ofList (ds : List Directive) :
    (ofList toJson (ds.map inWords)).HasWords :=
  Json.hasWords_ofList (List.forall_mem_map.mpr fun d _ => d.hasWords_toJson)

mutual

/-- The numbers in a stored node are words. -/
theorem Node.hasWords_toJson (n : Node) : n.inWords.toJson.HasWords := by
  match n with
  | .element info children =>
    exact hasWords_ofFields
      ⟨trivial, trivial, hasWords_storedName _ _, Attribute.hasWords_ofList info.attributes,
        Directive.hasWords_ofList info.directives, Node.hasWords_toJsonAll children, trivial,
        trivial, info.location.hasWords_toJson, trivial⟩
  | .text value location =>
    exact hasWords_ofFields ⟨trivial, trivial, location.hasWords_toJson, trivial⟩
  | .interpolation e key location =>
    exact hasWords_ofFields
      ⟨trivial, trivial, hasWords_ofOption_str _, location.hasWords_toJson, trivial⟩
  | .slot info fallback =>
    have hresolution : (ofOption Resolution.toJson info.inWords.resolution).HasWords := by
      refine hasWords_ofOption fun r hr => ?_
      obtain ⟨r, -, rfl⟩ := Option.map_eq_some_iff.mp hr
      exact r.hasWords_toJson
    exact hasWords_ofFields
      ⟨trivial, hasWords_ofOption_str _, hasWords_ofOption fun _ _ => trivial,
        Attribute.hasWords_ofList info.attributes, Directive.hasWords_ofList info.directives,
        Node.hasWords_toJsonAll fallback, trivial, hresolution, info.keys.hasWords_toJson,
        info.location.hasWords_toJson, trivial⟩
  | .chain branches key location =>
    exact hasWords_ofFields
      ⟨trivial, Branch.hasWords_toJsonAll branches, hasWords_ofOption_str _,
        location.hasWords_toJson, trivial⟩
  | .loop info children =>
    exact hasWords_ofFields
      ⟨trivial, trivial, trivial, hasWords_ofOption_str _, hasWords_nat (mod_le_word _),
        Node.hasWords_toJsonAll children, hasWords_ofOption_str _,
        info.location.hasWords_toJson, trivial⟩
  | .comment value location =>
    exact hasWords_ofFields ⟨trivial, trivial, location.hasWords_toJson, trivial⟩

theorem Node.hasWords_toJsonAll (ns : List Node) :
    HaveWords (Node.toJsonAll (Node.inWordsAll ns)) := by
  match ns with
  | [] => trivial
  | n :: rest => exact ⟨Node.hasWords_toJson n, Node.hasWords_toJsonAll rest⟩

theorem Branch.hasWords_toJsonAll (bs : List Branch) :
    HaveWords (Branch.toJsonAll (Branch.inWordsAll bs)) := by
  match bs with
  | [] => trivial
  | .mk info children :: rest =>
    refine ⟨hasWords_ofFields ?_, Branch.hasWords_toJsonAll rest⟩
    exact ⟨hasWords_storedName BranchKind.names info.kind,
      hasWords_ofOption (o := info.condition) fun _ _ => trivial,
      Node.hasWords_toJsonAll children, hasWords_ofOption_str info.key,
      info.location.hasWords_toJson, trivial⟩

end

namespace Template

/-- The numbers in a stored tree are words. -/
theorem hasWords_toJson (nodes : List Node) : (toJson (Node.inWordsAll nodes)).HasWords :=
  Node.hasWords_toJsonAll nodes

/-- A tree that was read, bare or with slots resolved or bound values extracted, is read again from
its stored text. The reader of texts gives up where more than `Json.maxDepth` arrays and objects lie
inside each other. -/
theorem parse_stored_text {options : ParseOptions} {source : String} {nodes : List Node}
    (h : parse options source = .ok nodes) (p : Platform) :
    ∀ tree ∈ [nodes, resolveSlots p.capabilities nodes, (extract p.capabilities nodes).1,
        (annotate p.capabilities nodes).nodes],
      (toJson (Node.inWordsAll tree)).depth ≤ maxDepth →
        ofText? (text (Node.inWordsAll tree)) = some (Node.inWordsAll tree) := by
  intro tree htree hdepth
  have hread : read? (text (Node.inWordsAll tree)) = some (toJson (Node.inWordsAll tree)) :=
    read?_compact (hasWords_toJson tree)
  rw [ofText?, hread]
  simp only [Option.bind_eq_bind, Option.bind_some, if_pos hdepth]
  exact (parse_stored h p tree htree).1

end Template

end UiTemplate
