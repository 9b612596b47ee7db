import UiTemplate.Compile
import UiTemplate.Proofs.Binding.Renaming
import UiTemplate.Proofs.Binding.Values

/-!
# Values up to keys

- `Record.Agree`: two objects that are equal entry by entry, under the renaming that takes the keys
  of one record to those of another one, and so are the objects inside them.
- `Record.eval_agree`: records that are the same up to keys have, over every scope, such values, or
  their computation fails with the same error.
- `Template.annotate_agree`: so do the mappings of a template for two platforms.
-/

namespace UiTemplate

/-- The value is an object with entries under the given keys and no others. -/
def Json.HasKeys (v : Json) (keys : List Key) : Prop :=
  ∃ entries, v = .obj entries ∧ ∀ key, (lookup key entries).isSome = true ↔ key ∈ keys

mutual

/-- Two values of matching bound values that are equal up to the keys of the records in them. -/
inductive Thunk.Agree : Thunk → Thunk → Json → Json → Prop where
  | leaf {t : Thunk} {v : Json} : t.isLeaf = true → Thunk.Agree t t v v
  | loop {source : Expression} {item : String} {index : Option String} {depth : Nat}
      {r r' : List (Key × Thunk)} {vs vs' : List Json} :
      Record.AgreeAll r r' vs vs' →
      Thunk.Agree (.loop source item index depth r) (.loop source item index depth r') (.arr vs)
        (.arr vs')
  | merge {bs bs' : List MergeBranch} {v v' : Json} :
      MergeBranch.Agree bs bs' v v' → Thunk.Agree (.merge bs) (.merge bs') v v'

/-- Two objects with the entries of two records. The entry under a key of the one agrees with the
entry of the other under the key that it is renamed to. -/
inductive Record.Agree : List (Key × Thunk) → List (Key × Thunk) → Json → Json → Prop where
  | mk {r r' : List (Key × Thunk)} {v v' : Json} :
      v.HasKeys (r.map Prod.fst) → v'.HasKeys (r'.map Prod.fst) →
      Record.EntriesAgree (Record.rename r r') r r' v v' → Record.Agree r r' v v'

/-- The entries of two objects agree, one after the other. -/
inductive Record.EntriesAgree :
    (Key → Key) → List (Key × Thunk) → List (Key × Thunk) → Json → Json → Prop where
  | nil {rename : Key → Key} {v v' : Json} : Record.EntriesAgree rename [] [] v v'
  | cons {rename : Key → Key} {k k' : Key} {t t' : Thunk} {r r' : List (Key × Thunk)}
      {v v' u u' : Json} :
      v.get? k = some u → v'.get? (rename k) = some u' → Thunk.Agree t t' u u' →
      Record.EntriesAgree rename r r' v v' →
      Record.EntriesAgree rename ((k, t) :: r) ((k', t') :: r') v v'

/-- Two arrays with one object a pass, which agree pass by pass. -/
inductive Record.AgreeAll :
    List (Key × Thunk) → List (Key × Thunk) → List Json → List Json → Prop where
  | nil {r r' : List (Key × Thunk)} : Record.AgreeAll r r' [] []
  | cons {r r' : List (Key × Thunk)} {v v' : Json} {vs vs' : List Json} :
      Record.Agree r r' v v' → Record.AgreeAll r r' vs vs' →
      Record.AgreeAll r r' (v :: vs) (v' :: vs')

/-- The objects of the same branch of two chains, or the empty ones if no branch is chosen. -/
inductive MergeBranch.Agree :
    List MergeBranch → List MergeBranch → Json → Json → Prop where
  | none : MergeBranch.Agree [] [] (.obj []) (.obj [])
  | here {condition condition' : Option Expression} {key key' : Option Key}
      {r r' : List (Key × Thunk)} {bs bs' : List MergeBranch} {v v' : Json} :
      Record.Agree r r' v v' →
      MergeBranch.Agree (.mk condition key r :: bs) (.mk condition' key' r' :: bs') v v'
  | later {b b' : MergeBranch} {bs bs' : List MergeBranch} {v v' : Json} :
      MergeBranch.Agree bs bs' v v' → MergeBranch.Agree (b :: bs) (b' :: bs') v v'

end

/-! ## Objects of fields -/

/-- The fields of two records agree, place by place. -/
inductive Record.FieldsAgree :
    Record → Record → List (String × Json) → List (String × Json) → Prop where
  | nil : Record.FieldsAgree [] [] [] []
  | cons {k k' : Key} {t t' : Thunk} {r r' : Record} {v v' : Json}
      {fields fields' : List (String × Json)} :
      Thunk.Agree t t' v v' → Record.FieldsAgree r r' fields fields' →
      Record.FieldsAgree ((k, t) :: r) ((k', t') :: r') ((k, v) :: fields) ((k', v') :: fields')

namespace Record

theorem hasKeys_ofFields {fields : List (String × Json)} (hn : (fields.map Prod.fst).Nodup) :
    (Json.ofFields fields).HasKeys (fields.map Prod.fst) := by
  refine ⟨_, rfl, fun key => ?_⟩
  constructor
  · intro h
    by_contra hm
    have hnone : (Json.ofFields fields).get? key = none := Json.ofFields_get?_of_notMem hm
    rw [show Json.lookup key _ = none from hnone] at h
    cases h
  · intro hm
    obtain ⟨f, hf, rfl⟩ := List.mem_map.mp hm
    have hsome : (Json.ofFields fields).get? f.1 = some f.2 := Json.ofFields_get?_of_mem hn hf
    rw [show Json.lookup f.1 _ = some f.2 from hsome]
    rfl

theorem FieldsAgree.keys {r r' : Record} {fields fields' : List (String × Json)}
    (h : FieldsAgree r r' fields fields') :
    fields.map Prod.fst = r.map Prod.fst ∧ fields'.map Prod.fst = r'.map Prod.fst := by
  induction h with
  | nil => exact ⟨rfl, rfl⟩
  | cons _ _ ih => simp [ih.1, ih.2]

/-- The entries of objects whose fields agree, if the objects have them under their keys. -/
theorem FieldsAgree.entries {rename : Key → Key} {r r' : Record}
    {fields fields' : List (String × Json)} (h : FieldsAgree r r' fields fields') {v v' : Json}
    (hkeys : (r.map Prod.fst).map rename = r'.map Prod.fst)
    (hv : ∀ f ∈ fields, v.get? f.1 = some f.2) (hv' : ∀ f ∈ fields', v'.get? f.1 = some f.2) :
    EntriesAgree rename r r' v v' := by
  induction h with
  | nil => exact .nil
  | @cons k k' t t' r r' u u' fields fields' ht hr ih =>
    obtain ⟨hk, hkeys⟩ := List.cons.inj hkeys
    obtain ⟨hu, hv⟩ := List.forall_mem_cons.mp hv
    obtain ⟨hu', hv'⟩ := List.forall_mem_cons.mp hv'
    have hk' : rename k = k' := hk
    exact .cons hu (hk' ▸ hu') ht (ih hkeys hv hv')

theorem FieldsAgree.agree {r r' : Record} {fields fields' : List (String × Json)}
    (h : FieldsAgree r r' fields fields') (hn : (r.map Prod.fst).Nodup)
    (hkeys : (r.map Prod.fst).map (rename r r') = r'.map Prod.fst)
    (hn' : (r'.map Prod.fst).Nodup) :
    Agree r r' (Json.ofFields fields) (Json.ofFields fields') := by
  obtain ⟨hk, hk'⟩ := h.keys
  rw [← hk] at hn
  rw [← hk'] at hn'
  have hf := hasKeys_ofFields hn
  have hf' := hasKeys_ofFields hn'
  rw [hk] at hf
  rw [hk'] at hf'
  exact .mk hf hf' (h.entries hkeys (fun f hm => Json.ofFields_get?_of_mem hn hm)
    fun f hm => Json.ofFields_get?_of_mem hn' hm)

end Record

/-! ## Evaluation -/

/-- Passes that agree at every step agree as a whole. -/
theorem Helper.iterate_agree {r r' : Record} {f f' : Helper.Step → Except EvalError Json}
    (h : ∀ step, Except.Agree (Record.Agree r r') (f step) (f' step)) (source : Json) :
    Except.Agree (Record.AgreeAll r r') (Helper.iterate source f) (Helper.iterate source f') := by
  unfold Helper.iterate
  induction Helper.iteration source with
  | nil => exact .ok .nil
  | cons step steps ih =>
    rw [List.mapM_cons, List.mapM_cons]
    exact (h step).bind fun v v' hv => ih.bind fun vs vs' hvs => .ok (.cons hv hvs)

mutual

theorem Thunk.eval_agree (scope : Scope) {t t' : Thunk} (h : Thunk.Renamed t t') :
    Except.Agree (Thunk.Agree t t') (t.eval scope) (t'.eval scope) := by
  match h with
  | .leaf hleaf =>
    cases t.eval scope with
    | error e => exact .error e
    | ok v => exact .ok (.leaf hleaf)
  | @Thunk.Renamed.loop source item index depth r r' hr =>
    rw [Thunk.eval, Thunk.eval]
    refine .after fun items => ?_
    have hpass := Helper.iterate_agree
      (fun step => Record.eval_agree (scope.atStep item index depth step) hr) items
    exact hpass.bind fun vs vs' hvs => .ok (.loop hvs)
  | .merge hb =>
    rw [Thunk.eval, Thunk.eval]
    exact (MergeBranch.choose_agree scope hb).imp fun v v' hv => .merge hv

theorem Record.eval_agree (scope : Scope) {r r' : List (Key × Thunk)} (h : Record.Renamed r r') :
    Except.Agree (Record.Agree r r')
      (do
        let fields ← Record.evalFields scope r
        .ok (Json.ofFields fields))
      (do
        let fields ← Record.evalFields scope r'
        .ok (Json.ofFields fields)) := by
  match h with
  | .mk hn hn' hkeys hinj hentries =>
    exact (Record.evalFields_agree scope hentries).bind fun fields fields' hf =>
      .ok (hf.agree hn hkeys hn')

theorem Record.evalFields_agree (scope : Scope) {r r' : List (Key × Thunk)}
    (h : Record.EntriesRenamed r r') :
    Except.Agree (Record.FieldsAgree r r') (Record.evalFields scope r)
      (Record.evalFields scope r') := by
  match h with
  | .nil => exact .ok .nil
  | .cons ht hr =>
    rw [Record.evalFields, Record.evalFields]
    exact (Thunk.eval_agree scope ht).bind fun v v' hv =>
      (Record.evalFields_agree scope hr).bind fun fields fields' hf => .ok (.cons hv hf)

theorem MergeBranch.choose_agree (scope : Scope) {bs bs' : List MergeBranch}
    (h : MergeBranch.RenamedAll bs bs') :
    Except.Agree (MergeBranch.Agree bs bs')
      (Helper.chooseBranch (MergeBranch.producers scope bs))
      (Helper.chooseBranch (MergeBranch.producers scope bs')) := by
  match h with
  | .nil => exact .ok .none
  | .cons hr hb =>
    have hrecord := Record.eval_agree scope hr
    have hrest := MergeBranch.choose_agree scope hb
    simp only [MergeBranch.producers, Helper.chooseBranch]
    refine .after fun c => ?_
    by_cases hc : c.isTruthy = true
    · rw [if_pos hc, if_pos hc]
      exact hrecord.imp fun v v' hv => .here hv
    · rw [if_neg hc, if_neg hc]
      exact hrest.imp fun v v' hv => .later hv

end

/-! ## The whole template -/

/-- **The families bind the same values.** A text without slots that is a template for one platform
is a template for every other one. The bound values that are extracted from it for two platforms are
the same up to a renaming of keys, with the same entries in the same order in every record, loop and
branch. Over every rendering context the mappings of both are equal entry by entry under the
renaming, or their computation fails with the same error. -/
theorem Template.annotate_agree (p q : Platform) (whitespace : Whitespace) {source : String}
    {nodes : List Node} (hp : Template.parse ⟨p, whitespace⟩ source = .ok nodes)
    (hs : Node.NoSlots nodes) :
    ∃ nodes', Template.parse ⟨q, whitespace⟩ source = .ok nodes' ∧
      let c := (Template.annotate p.capabilities nodes).context
      let c' := (Template.annotate q.capabilities nodes').context
      Record.Renamed c.root c'.root ∧
        ∀ context, Except.Agree (Record.Agree c.root c'.root) (c.eval context) (c'.eval context) := by
  have hparse := Template.parse_neutral p q whitespace source
  rcases Except.map_eq_map hparse with ⟨e, he, -⟩ | ⟨ns, nodes', hns, hq, hn⟩
  · rw [hp] at he
    cases he
  · rw [hp] at hns
    cases hns
    have hs' : Node.NoSlots nodes' := (Node.noSlots_neutral nodes').mp (hn ▸
      (Node.noSlots_neutral nodes).mpr hs)
    have hroot : Record.Renamed (Template.annotate p.capabilities nodes).context.root
        (Template.annotate q.capabilities nodes').context.root := by
      unfold Template.annotate Template.resolveSlots
      rw [Node.resolveSlotsAll_of_noSlot p.capabilities [] none nodes hs,
        Node.resolveSlotsAll_of_noSlot q.capabilities [] none nodes' hs']
      exact Template.extract_renamed p.capabilities q.capabilities hs hn
    refine ⟨nodes', hq, hroot, fun context => ?_⟩
    exact Record.eval_agree (Scope.ofContext context) hroot

/-- A loop around a chain, with a text behind it. -/
def loopAndText : String := "<a v-for=\"i in j\"><b v-if=\"i\">\x7b\x7b i \x7d\x7d</b></a>\x7b\x7b k \x7d\x7d"

/-- The key of the text behind the loop differs between the families. -/
theorem Template.annotate_agree_loopAndText :
    ∃ nodes nodes', Template.parse ⟨.web, .condense⟩ loopAndText = .ok nodes ∧ Node.NoSlots nodes ∧
      Template.parse ⟨.weixin, .condense⟩ loopAndText = .ok nodes' ∧
      let c := (Template.annotate Platform.web.capabilities nodes).context
      let c' := (Template.annotate Platform.weixin.capabilities nodes').context
      c.root.map Prod.fst = ["a", "e"] ∧ c'.root.map Prod.fst = ["a", "b"] ∧
        Record.Renamed c.root c'.root ∧
        ∀ context, Except.Agree (Record.Agree c.root c'.root) (c.eval context) (c'.eval context) := by
  have hweb : (Template.parse ⟨.web, .condense⟩ loopAndText).toOption.map (fun nodes =>
      ((Node.withinAll nodes).all fun n => !n.isSlot,
        (Template.annotate Platform.web.capabilities nodes).context.root.map Prod.fst)) =
      some (true, ["a", "e"]) := by
    decide +kernel
  have hweixin : (Template.parse ⟨.weixin, .condense⟩ loopAndText).toOption.map (fun nodes =>
      (Template.annotate Platform.weixin.capabilities nodes).context.root.map Prod.fst) =
      some ["a", "b"] := by
    decide +kernel
  cases hp : Template.parse ⟨.web, .condense⟩ loopAndText with
  | error e =>
    rw [hp] at hweb
    cases hweb
  | ok nodes =>
    rw [hp] at hweb
    obtain ⟨hslots, hkeys⟩ := Prod.mk.inj (Option.some.inj hweb)
    have hs : Node.NoSlots nodes := by
      intro n hn
      simpa using List.all_eq_true.mp hslots n hn
    obtain ⟨nodes', hq, hrenamed, hagree⟩ :=
      Template.annotate_agree .web .weixin .condense hp hs
    rw [hq] at hweixin
    exact ⟨nodes, nodes', rfl, hs, hq, hkeys, Option.some.inj hweixin, hrenamed, hagree⟩

end UiTemplate
