import UiTemplate.Proofs.Binding.Extraction
import UiTemplate.Proofs.Printing.Attributes

/-!
# References in markup

The host of markup takes what stands between double braces for a reference to a bound value. These
are the notions with which it is said what the compiler puts there.

- `View`: what is seen from a place in markup, and `Enters`, what is seen inside an element.
- `Made`: what the compiler puts between double braces in attributes.
- `Raw.ResolveAll`: in a tree of markup nothing else stands between double braces outside comments.
- `Node.BraceFree`: what a node hands on to markup as it stands holds no placeholder.
-/

namespace UiTemplate

/-! ## Views -/

/-- What is seen from a place in markup: the names that lead to the record of the scope there, and
that record. -/
structure View where
  way : List String
  record : Record

namespace View

/-- What is seen at the top of a template. -/
def root (c : BindingContext) : View :=
  ⟨[], c.root⟩

/-- The reference leads to a value of the record. -/
def Refers (v : View) (reference : String) (t : Thunk) : Prop :=
  ∃ key, reference = Markup.reference v.way (some key) ∧ v.record.get? key = some t

/-- How it is tested, by its name, whether the outlet of a slot has content. -/
inductive Tests (v : View) (info : SlotInfo) : String → Prop
  | bound {key : Key} {t : Thunk} (hkey : info.keys.name = some key)
      (h : v.record.get? key = some t) :
      Tests v info ("$slots[" ++ Markup.reference v.way (some key) ++ "]")
  | field {r : Resolution} {name : String} (hr : info.resolution = some r)
      (hname : r.base = .fixed name) (hplain : Code.fieldKey name = name) :
      Tests v info ("$slots." ++ name)
  | quoted {r : Resolution} {name : String} (hr : info.resolution = some r)
      (hname : r.base = .fixed name) (hplain : Code.fieldKey name ≠ name) :
      Tests v info ("$slots['" ++ name ++ "']")

end View

/-- A tag carries an attribute, maybe with a value. -/
def Carries (attributes : List RawAttribute) (name : String) (value : Option String) : Prop :=
  ∃ a ∈ attributes, a.name = name ∧ a.value = value

/-- A tag with these attributes repeats an element for a loop of the record that is seen. -/
def Repeats (d : Dialect) (attributes : List RawAttribute) (v : View) : Prop :=
  ∃ (key : Key) (source : Expression) (item : String) (index : Option String) (depth : Nat)
    (record : Record), v.record.get? key = some (.loop source item index depth record) ∧
      Carries attributes (d.directive "for")
        (some (Markup.placeholder (Markup.reference v.way (some key))))

/-- What is seen inside an element: the record of a branch if the element is that branch of a chain,
the record of a loop if the loop repeats the element, and otherwise what is seen around the
element. -/
inductive Enters (d : Dialect) (attributes : List RawAttribute) (v : View) : View → Prop
  | stays (hfor : ¬Repeats d attributes v) : Enters d attributes v v
  | branch {key k : Key} {branches : List MergeBranch} {condition : Option Expression}
      {record : Record} {name : String} (hkey : v.record.get? key = some (.merge branches))
      (hbranch : .mk condition (some k) record ∈ branches) (hname : name = "if" ∨ name = "elif")
      (htest : Carries attributes (d.directive name)
        (some (Markup.placeholder (Markup.reference (v.way ++ [key]) (some k))))) :
      Enters d attributes v ⟨v.way ++ [key], record⟩
  | otherwise {key : Key} {branches : List MergeBranch} {record : Record}
      (hkey : v.record.get? key = some (.merge branches)) (hbranch : .mk none none record ∈ branches)
      (helse : Carries attributes (d.directive "else") none) :
      Enters d attributes v ⟨v.way ++ [key], record⟩
  | loop {key : Key} {source : Expression} {item : String} {index : Option String} {depth : Nat}
      {record : Record} (hkey : v.record.get? key = some (.loop source item index depth record))
      (hfor : Carries attributes (d.directive "for")
        (some (Markup.placeholder (Markup.reference v.way (some key)))))
      (hitem : Carries attributes (d.directive "for-item") (some item)) :
      Enters d attributes v ⟨[item], record⟩

/-! ## Placeholders -/

/-- Whether the value is what a loop runs over. -/
def Thunk.isLoop : Thunk → Bool
  | .loop .. => true
  | _ => false

/-- What the compiler puts between double braces in the attribute `name` of an element, which stands
where `outer` is seen and inside which `inner` is seen. -/
inductive Made (settings : MarkupSettings) (nodes : List Node) (tag name : String)
    (outer inner : View) : String → Prop
  /-- A value of the record in scope. -/
  | reference {body : String} {t : Thunk} (h : inner.Refers body t) (hplain : t.isLoop = false) :
      Made settings nodes tag name outer inner body
  /-- What a loop runs over, which is a value of the record around the loop. -/
  | source {body : String} {source : Expression} {item : String} {index : Option String}
      {depth : Nat} {record : Record} (hname : name = settings.dialect.directive "for")
      (h : outer.Refers body (.loop source item index depth record)) :
      Made settings nodes tag name outer inner body
  /-- What is passed to an outlet, which is a value of the record in scope. -/
  | props {reference : String} {call : OutletCall} (hname : name = "props")
      (h : inner.Refers reference (.outlet call)) :
      Made settings nodes tag name outer inner (reference ++ ".props")
  /-- Whether the outlet of a slot with a fallback has content. -/
  | presence {info : SlotInfo} {fallback : List Node} {test : String}
      (hname : name = settings.dialect.directive "if")
      (hslot : Node.slot info fallback ∈ Node.withinAll nodes) (hfallback : fallback ≠ [])
      (h : inner.Tests info test) : Made settings nodes tag name outer inner test
  /-- The outlets for which a component with content has it. -/
  | content {info : ElementInfo} {children : List Node} (hname : name = "u-s")
      (hcomponent : Node.element info children ∈ Node.withinAll nodes)
      (hkind : info.kind = .component) (hchildren : children ≠ []) (htag : info.tag = tag) :
      Made settings nodes tag name outer inner ("['" ++ settings.defaultOutlet ++ "']")

/-- Every placeholder of an attribute is one that the compiler made. -/
def RawAttribute.Resolves (settings : MarkupSettings) (nodes : List Node) (tag : String)
    (outer inner : View) (a : RawAttribute) : Prop :=
  placeholders a.name.toList = [] ∧ ∀ value ∈ a.value, ∀ body ∈ placeholders value.toList,
    ∃ made, body = Markup.escaped made.toList ∧ Made settings nodes tag a.name outer inner made

section Resolves

variable (settings : MarkupSettings) (nodes : List Node)

mutual

/-- Every placeholder of a node is one that the compiler made, if the node stands where `v` is
seen. -/
def Raw.Resolves (v : View) : Raw → Prop
  | .element tag attributes _ _ children =>
    placeholders tag.toList = [] ∧ ∃ inner, Enters settings.dialect attributes v inner ∧
      (∀ a ∈ attributes, a.Resolves settings nodes tag v inner) ∧ Raw.ResolveAll inner children
  | .text value _ => placeholders value.toList = []
  | .interpolation source _ => ∃ t, v.Refers source t
  | .comment .. => True

/-- Every placeholder of siblings is one that the compiler made. -/
def Raw.ResolveAll (v : View) : List Raw → Prop
  | [] => True
  | r :: rest => r.Resolves v ∧ Raw.ResolveAll v rest

end

variable {settings : MarkupSettings} {nodes : List Node} {v : View}

theorem Raw.resolveAll_iff {rs : List Raw} :
    Raw.ResolveAll settings nodes v rs ↔ ∀ r ∈ rs, r.Resolves settings nodes v := by
  induction rs with
  | nil => simp [Raw.ResolveAll]
  | cons r rs ih => rw [Raw.ResolveAll, List.forall_mem_cons, ih]

/-! ### Places do not matter -/

theorem Carries.mono {as bs : List RawAttribute} {name : String} {value : Option String}
    (h : Carries as name value) (hsub : ∀ a ∈ as, Carries bs a.name a.value) :
    Carries bs name value := by
  obtain ⟨a, ha, rfl, rfl⟩ := h
  exact hsub a ha

theorem Repeats.mono {d : Dialect} {as bs : List RawAttribute} (h : Repeats d as v)
    (hsub : ∀ a ∈ as, Carries bs a.name a.value) : Repeats d bs v := by
  obtain ⟨key, source, item, index, depth, record, hkey, hfor⟩ := h
  exact ⟨key, source, item, index, depth, record, hkey, hfor.mono hsub⟩

/-- Other attributes that carry the same lead to the same place, if they repeat no more. -/
theorem Enters.mono {d : Dialect} {as bs : List RawAttribute} {inner : View}
    (h : Enters d as v inner) (hsub : ∀ a ∈ as, Carries bs a.name a.value)
    (hstays : inner = v → Repeats d bs v → Repeats d as v) : Enters d bs v inner := by
  cases h with
  | stays hfor => exact .stays fun h => hfor (hstays rfl h)
  | branch hkey hbranch hname htest => exact .branch hkey hbranch hname (htest.mono hsub)
  | otherwise hkey hbranch helse => exact .otherwise hkey hbranch (helse.mono hsub)
  | loop hkey hfor hitem => exact .loop hkey (hfor.mono hsub) (hitem.mono hsub)

theorem Enters.of_unlocated {d : Dialect} {as : List RawAttribute} {inner : View} :
    Enters d (as.map RawAttribute.unlocated) v inner ↔ Enters d as v inner := by
  have hback : ∀ a ∈ as.map RawAttribute.unlocated, Carries as a.name a.value :=
    List.forall_mem_map.mpr fun a ha => ⟨a, ha, rfl, rfl⟩
  have hforth : ∀ a ∈ as, Carries (as.map RawAttribute.unlocated) a.name a.value :=
    fun a ha => ⟨_, List.mem_map_of_mem ha, rfl, rfl⟩
  exact ⟨fun h => h.mono hback fun _ hr => hr.mono hforth,
    fun h => h.mono hforth fun _ hr => hr.mono hback⟩

mutual

theorem Raw.resolves_unlocated (v : View) (r : Raw) :
    r.unlocated.Resolves settings nodes v ↔ r.Resolves settings nodes v := by
  match r with
  | .element tag attributes selfClosing start children =>
    rw [Raw.unlocated, Raw.Resolves, Raw.Resolves]
    refine and_congr_right fun _ => exists_congr fun inner => and_congr Enters.of_unlocated ?_
    exact and_congr List.forall_mem_map (Raw.resolveAll_unlocated inner children)
  | .text .. => exact Iff.rfl
  | .interpolation .. => exact Iff.rfl
  | .comment .. => exact Iff.rfl

/-- The places where nodes stand do not matter. -/
theorem Raw.resolveAll_unlocated (v : View) (rs : List Raw) :
    Raw.ResolveAll settings nodes v (Raw.unlocatedAll rs) ↔ Raw.ResolveAll settings nodes v rs := by
  match rs with
  | [] => exact Iff.rfl
  | r :: rest =>
    exact and_congr (Raw.resolves_unlocated v r) (Raw.resolveAll_unlocated v rest)

end

end Resolves

/-! ## Nodes without placeholders -/

/-- The name under which markup hands on a bound value. -/
def Dialect.boundName (d : Dialect) (b : Binding) : String :=
  if b.kind = .event then d.eventAttribute b.name else b.name

/-- The name of an outlet that is fixed. -/
def OutletBase.fixed? : OutletBase → Option String
  | .fixed name => some name
  | .computed _ => none

/-- The name by which markup refers to the outlet of a slot, if no value is bound to it. -/
def SlotInfo.literalName? (info : SlotInfo) : Option String :=
  if info.keys.name.isSome then none else info.resolution.bind fun r => r.base.fixed?

/-- What markup takes over from a node as it stands holds no placeholder: names and values of
attributes, names of bound values, and the fixed name of an outlet. Such a name does not close a
placeholder either where it is tested whether the outlet has content. -/
def Node.BraceFree (d : Dialect) : Node → Prop
  | .element info _ =>
    (∀ a ∈ info.attributes,
      placeholders a.name.toList = [] ∧ ∀ v ∈ a.value, placeholders v.toList = []) ∧
    ∀ b ∈ bindings info.directives, placeholders (d.boundName b).toList = []
  | .slot info fallback => ∀ name ∈ info.literalName?, placeholders name.toList = [] ∧
    (fallback ≠ [] → info.keys.outlet = none →
      Place.breakList ['\x7d', '\x7d'] name.toList = none)
  | _ => True

instance (d : Dialect) (n : Node) : Decidable (n.BraceFree d) :=
  match n with
  | .element .. => inferInstanceAs (Decidable (_ ∧ _))
  | .slot .. => inferInstanceAs (Decidable (∀ name ∈ (_ : Option String), _))
  | .text .. => isTrue trivial
  | .interpolation .. => isTrue trivial
  | .chain .. => isTrue trivial
  | .loop .. => isTrue trivial
  | .comment .. => isTrue trivial

/-! ## Texts without marks -/

/-- Neither a brace nor a double quote. -/
def isBare (c : Char) : Bool :=
  c != '\x7b' && c != '\x7d' && c != '"'

/-- The text has neither braces nor double quotes. -/
def Bare (cs : List Char) : Prop :=
  ∀ c ∈ cs, isBare c = true

instance (cs : List Char) : Decidable (Bare cs) :=
  decidable_of_iff (cs.all isBare = true) List.all_eq_true

namespace Bare

variable {cs ds : List Char}

theorem append (h : Bare cs) (h' : Bare ds) : Bare (cs ++ ds) :=
  List.forall_mem_append.mpr ⟨h, h'⟩

theorem notMem {c : Char} (h : Bare cs) (hc : isBare c = false) : c ∉ cs := by
  intro hm
  rw [h c hm] at hc
  cases hc

/-- Names with dots between them. -/
theorem intercalate {names : List String} (h : ∀ name ∈ names, Bare name.toList) :
    Bare (".".intercalate names).toList := by
  induction names with
  | nil => exact fun c hc => absurd hc List.not_mem_nil
  | cons name names ih =>
    rw [List.forall_mem_cons] at h
    cases names with
    | nil => exact h.1
    | cons next names =>
      rw [String.intercalate_cons_cons, String.toList_append, String.toList_append]
      exact (h.1.append (by decide)).append (ih h.2)

end Bare

/-- Keys are made of letters. -/
theorem Key.bare_number (n : Nat) : Bare (Key.number n).toList := by
  have hletter (n : Nat) (h : n < 26) : isBare (Key.letter n) = true := by
    have hall : ∀ n < 26, isBare (Key.letter n) = true := by decide
    exact hall n h
  have hspelling (n : Nat) : Bare (Key.spelling n) := by
    fun_induction Key.spelling n with
    | case1 n h => exact List.forall_mem_singleton.mpr (hletter n h)
    | case2 n h ih =>
      exact ih.append (List.forall_mem_singleton.mpr (hletter _ (Nat.mod_lt _ (by omega))))
  rw [Key.number, String.toList_ofList]
  exact hspelling _

/-- The names in loop heads are made of characters of names. -/
theorem LoopHead.IsName.bare {name : String} (h : LoopHead.IsName name) : Bare name.toList := by
  obtain ⟨c, cs, hname, hc, hcs⟩ := h
  have hpart {c : Char} (h : LoopHead.isNamePart c = true) : isBare c = true := by
    by_contra hne
    have hmark : c = '\x7b' ∨ c = '\x7d' ∨ c = '"' := by
      simpa [isBare, -not_and, Classical.not_and_iff_not_or_not, or_assoc] using hne
    rcases hmark with rfl | rfl | rfl <;> exact absurd h (by decide +kernel)
  rw [hname]
  exact List.forall_mem_cons.mpr ⟨hpart (LoopHead.isNameStart_begins hc).1,
    fun d hd => hpart (List.all_eq_true.mp hcs d hd)⟩

/-! ## Views without marks -/

/-- A reference is the names on the way, each with a dot behind it, and the key. -/
theorem Markup.reference_eq (way : List String) (key : Key) :
    Markup.reference way (some key) = String.join (way.map (· ++ ".")) ++ key := by
  unfold Markup.reference
  induction way with
  | nil => rfl
  | cons name way ih =>
    cases way with
    | nil => simp [String.intercalate_cons_cons, String.join_cons]
    | cons next way =>
      rw [List.map_cons, String.join_cons, String.append_assoc, ← ih]
      exact String.intercalate_cons_cons

/-- References to different keys of a record are different. -/
theorem Markup.reference_injective {way : List String} {key key' : Key}
    (h : Markup.reference way (some key) = Markup.reference way (some key')) : key = key' := by
  rw [reference_eq, reference_eq] at h
  exact (String.append_right_inj _).mp h

theorem Record.mem_of_get? {r : Record} {key : Key} {t : Thunk} (h : r.get? key = some t) :
    (key, t) ∈ r := by
  induction r with
  | nil => cases h
  | cons e r ih =>
    rw [Record.get?] at h
    split at h
    · rename_i hkey
      cases h
      rw [← hkey]
      exact List.mem_cons_self
    · exact List.mem_cons_of_mem _ (ih h)

theorem Record.nested_subset {r : Record} {key : Key} {t : Thunk} (h : (key, t) ∈ r) :
    t.nested ⊆ Record.nested r := by
  induction r with
  | nil => exact absurd h List.not_mem_nil
  | cons e r ih =>
    rw [Record.nested]
    rcases List.mem_cons.mp h with rfl | h
    · exact List.subset_append_left _ _
    · exact List.subset_append_of_subset_right _ (ih h)

theorem MergeBranch.nested_subset {bs : List MergeBranch} {condition : Option Expression}
    {k : Option Key} {record : Record} (h : .mk condition k record ∈ bs) :
    record :: Record.nested record ⊆ MergeBranch.nested bs := by
  induction bs with
  | nil => exact absurd h List.not_mem_nil
  | cons b bs ih =>
    obtain ⟨condition', k', record'⟩ := b
    rw [MergeBranch.nested]
    rcases List.mem_cons.mp h with heq | h
    · cases heq
      exact List.subset_append_left _ _
    · exact List.subset_append_of_subset_right _ (ih h)

/-- No name that leads to a value from here has a brace or a double quote. -/
structure View.IsBare (v : View) : Prop where
  way : ∀ name ∈ v.way, Bare name.toList
  keys : ∀ record ∈ v.record :: Record.nested v.record, ∀ e ∈ record, Bare e.1.toList

namespace View.IsBare

variable {v : View} {key : Key}

theorem root {c : BindingContext} (h : ∀ record ∈ c.records, record.InOrder) :
    (View.root c).IsBare := by
  refine ⟨fun name hname => absurd hname List.not_mem_nil, fun record hrecord e he => ?_⟩
  obtain ⟨ns, -, hkeys⟩ := h record hrecord
  have hkey : e.1 ∈ ns.map Key.number := hkeys ▸ List.mem_map_of_mem he
  obtain ⟨n, -, hn⟩ := List.mem_map.mp hkey
  rw [← hn]
  exact Key.bare_number n

theorem get? (h : v.IsBare) {t : Thunk} (hkey : v.record.get? key = some t) : Bare key.toList :=
  h.keys v.record List.mem_cons_self _ (Record.mem_of_get? hkey)

theorem reference (h : v.IsBare) {t : Thunk} (hkey : v.record.get? key = some t) :
    Bare (Markup.reference v.way (some key)).toList :=
  .intercalate (List.forall_mem_append.mpr ⟨h.way, List.forall_mem_singleton.mpr (h.get? hkey)⟩)

theorem inside (h : v.IsBare) {t : Thunk} (hkey : v.record.get? key = some t) {record : Record}
    (hsub : record :: Record.nested record ⊆ t.nested) {way : List String}
    (hway : ∀ name ∈ way, Bare name.toList) : View.IsBare ⟨way, record⟩ := by
  refine ⟨hway, fun r hr => h.keys r (List.mem_cons_of_mem _ ?_)⟩
  exact Record.nested_subset (Record.mem_of_get? hkey) (hsub hr)

theorem branch (h : v.IsBare) {branches : List MergeBranch} {condition : Option Expression}
    {k : Option Key} {record : Record} (hkey : v.record.get? key = some (.merge branches))
    (hbranch : .mk condition k record ∈ branches) : View.IsBare ⟨v.way ++ [key], record⟩ :=
  h.inside hkey (MergeBranch.nested_subset hbranch)
    (List.forall_mem_append.mpr ⟨h.way, List.forall_mem_singleton.mpr (h.get? hkey)⟩)

theorem loop (h : v.IsBare) {source : Expression} {item : String} {index : Option String}
    {depth : Nat} {record : Record}
    (hkey : v.record.get? key = some (.loop source item index depth record))
    (hitem : LoopHead.IsName item) : View.IsBare ⟨[item], record⟩ :=
  h.inside hkey (List.Subset.refl _) (List.forall_mem_singleton.mpr hitem.bare)

end View.IsBare

end UiTemplate
