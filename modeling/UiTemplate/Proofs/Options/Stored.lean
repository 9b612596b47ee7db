import Mathlib.Data.List.Induction
import UiTemplate.Options.Stored
import UiTemplate.Proofs.Json.ReadBack
import UiTemplate.Proofs.Json.Record

/-!
# Reading back options

- `CompileOptions.read?_text`: the stored text of options is their stored form, so that different
  options have different texts (`CompileOptions.text_injective`).
- `CompileOptions.ofText?_text`: options are read back from their stored text.
-/

namespace UiTemplate

open Json

/-! ## Names -/

theorem Platform.ofName?_name (p : Platform) : ofName? p.name = some p := by
  cases p <;> rfl

theorem Platform.name_injective {p q : Platform} (h : p.name = q.name) : p = q :=
  Option.some.inj (by rw [← p.ofName?_name, h, q.ofName?_name])

theorem EmissionMode.ofName?_name (m : EmissionMode) : ofName? m.name = some m := by
  cases m <;> rfl

theorem EmissionMode.name_injective {m n : EmissionMode} (h : m.name = n.name) : m = n :=
  Option.some.inj (by rw [← m.ofName?_name, h, n.ofName?_name])

theorem Whitespace.ofName?_name (w : Whitespace) : ofName? w.name = some w := by
  cases w <;> rfl

theorem Whitespace.name_injective {w x : Whitespace} (h : w.name = x.name) : w = x :=
  Option.some.inj (by rw [← w.ofName?_name, h, x.ofName?_name])

/-! ## Component tables -/

namespace ComponentEntry

theorem ofJson?_toJson (e : ComponentEntry) : ofJson? e.toJson = some e := by
  cases e with
  | resolved c =>
    have hrecord : IsRecord (resolved c).toJson _ := ⟨_, rfl, .refl _, by simp⟩
    refine hrecord.tagged?_bind fun body hbody => hbody.fields?_bind rfl fun f hf => ?_
    simp [Fields.required, Fields.withDefault, hf.lookup, Json.lookup, str?]
  | file path =>
    have hrecord : IsRecord (file path).toJson _ := ⟨_, rfl, .refl _, by simp⟩
    refine hrecord.tagged?_bind fun body hbody => hbody.fields?_bind rfl fun f hf => ?_
    simp [Fields.required, hf.lookup, Json.lookup, str?]

theorem isNumberless_toJson (e : ComponentEntry) : e.toJson.IsNumberless := by
  cases e with
  | resolved c =>
    obtain ⟨identifier, sourceModule, space⟩ := c
    cases space <;> exact ⟨trivial, trivial, trivial, trivial, trivial⟩
  | file path => exact ⟨trivial, trivial, trivial⟩

end ComponentEntry

namespace ComponentTable

/-- An entry whose tag is behind all others comes last. -/
theorem insert_last {tag : String} (entry : ComponentEntry)
    {entries : List (String × ComponentEntry)} (h : ∀ e ∈ entries, e.1 < tag) :
    ComponentEntry.insert tag entry entries = entries ++ [(tag, entry)] := by
  induction entries with
  | nil => rfl
  | cons first entries ih =>
    obtain ⟨hfirst, hentries⟩ := List.forall_mem_cons.mp h
    rw [ComponentEntry.insert, if_neg (String.lt_asymm hfirst), if_neg (fun he => ?_), ih hentries,
      List.cons_append]
    exact String.lt_irrefl _ (he ▸ hfirst)

theorem entries_ofList {entries : List (String × ComponentEntry)}
    (h : ComponentEntry.AreOrdered entries) : (ofList entries).entries = entries := by
  induction entries using List.reverseRecOn with
  | nil => rfl
  | append_singleton entries e ih =>
    obtain ⟨hentries, -, hlast⟩ := List.pairwise_append.mp h
    have hbefore : (ofList entries).entries = entries := ih hentries
    unfold ofList at hbefore ⊢
    rw [List.foldl_append]
    show ComponentEntry.insert e.1 e.2 _ = _
    rw [hbefore]
    exact insert_last e.2 fun e' he' => hlast e' he' e List.mem_cons_self

@[ext]
theorem ext {table table' : ComponentTable} (h : table.entries = table'.entries) :
    table = table' := by
  cases table
  cases table'
  cases h
  rfl

/-- A table is made of its entries. -/
theorem ofList_entries (table : ComponentTable) : ofList table.entries = table :=
  ext (entries_ofList table.isOrdered)

theorem ofJson?_toJson (table : ComponentTable) : ofJson? table.toJson = some table := by
  have hentries : (table.entries.map fun e => (e.1, e.2.toJson)).mapM (fun e => do
      let entry ← ComponentEntry.ofJson? e.2
      some (e.1, entry)) = some table.entries := by
    refine mapM_map fun e _ => ?_
    rw [ComponentEntry.ofJson?_toJson]
    rfl
  unfold toJson ofJson?
  dsimp only
  rw [hentries]
  exact congrArg some table.ofList_entries

theorem isNumberless_toJson (table : ComponentTable) : table.toJson.IsNumberless := by
  show HaveNumberless (table.entries.map fun e => (e.1, e.2.toJson))
  induction table.entries with
  | nil => trivial
  | cons e entries ih => exact ⟨e.2.isNumberless_toJson, ih⟩

theorem toJson_injective {table table' : ComponentTable} (h : table.toJson = table'.toJson) :
    table = table' := by
  have hentry : Function.Injective fun (e : String × ComponentEntry) => (e.1, e.2.toJson) := by
    rintro ⟨tag, entry⟩ ⟨tag', entry'⟩ he
    obtain ⟨htag, hjson⟩ := Prod.mk.inj he
    have hsome := (entry.ofJson?_toJson).symm.trans ((congrArg _ hjson).trans entry'.ofJson?_toJson)
    exact Prod.ext htag (Option.some.inj hsome)
  exact ext (List.map_injective_iff.mpr hentry (Json.obj.inj h))

end ComponentTable

/-! ## Options -/

namespace CompileOptions

theorem isNumberless_toJson (o : CompileOptions) : o.toJson.IsNumberless :=
  ⟨trivial, trivial, trivial, trivial, trivial, trivial, trivial, trivial,
    ComponentTable.isNumberless_toJson o.components, trivial⟩

theorem toJson_injective {o o' : CompileOptions} (h : o.toJson = o'.toJson) : o = o' := by
  obtain ⟨platform, mode, whitespace, name, runtime, vnode, hoist, partly, components⟩ := o
  obtain ⟨platform', mode', whitespace', name', runtime', vnode', hoist', partly', components'⟩ := o'
  simp only [toJson, Json.obj.injEq, List.cons.injEq, Prod.mk.injEq, Json.str.injEq,
    Json.bool.injEq, true_and, and_true] at h
  obtain ⟨hplatform, hmode, hwhitespace, rfl, rfl, rfl, rfl, rfl, hcomponents⟩ := h
  obtain rfl := Platform.name_injective hplatform
  obtain rfl := EmissionMode.name_injective hmode
  obtain rfl := Whitespace.name_injective hwhitespace
  obtain rfl := ComponentTable.toJson_injective hcomponents
  rfl

/-- The stored text of options is their stored form. -/
theorem read?_text (o : CompileOptions) : read? o.text = some o.toJson :=
  read?_compact (o.isNumberless_toJson.hasWords _)

/-- Different options have different texts. -/
theorem text_injective {o o' : CompileOptions} (h : o.text = o'.text) : o = o' := by
  have hread := o.read?_text
  rw [h, o'.read?_text] at hread
  exact (toJson_injective (Option.some.inj hread)).symm

theorem ofJson?_toJson (o : CompileOptions) : ofJson? o.toJson = some o := by
  have hrecord : IsRecord o.toJson _ := ⟨_, rfl, .refl _, by simp⟩
  refine hrecord.fields?_bind rfl fun f hf => ?_
  simp [Fields.withDefault, hf.lookup, lookup, str?, bool?, variantNamed?, variant?,
    Platform.ofName?_name, EmissionMode.ofName?_name, Whitespace.ofName?_name,
    ComponentTable.ofJson?_toJson]

/-- **Stored options are read back.** Options are read back from their stored text. -/
theorem ofText?_text (o : CompileOptions) : ofText? o.text = some o := by
  unfold ofText?
  rw [read?_text]
  exact o.ofJson?_toJson

/-- Two components, whose tags and paths have characters in them that are escaped. -/
theorem ofText?_text_twoComponents :
    let o : CompileOptions :=
      { platform := .alipay, emissionMode := .standalonePair, partialOutput := true,
        components := .ofList
          [("x-\"y\"", .file "C:\\x\ny.vue"), ("my-card", .resolved ⟨"Card", "@/cards", none⟩)] }
    o.components.entries.map Prod.fst = ["my-card", "x-\"y\""] ∧ ofText? o.text = some o :=
  ⟨by decide, ofText?_text _⟩

end CompileOptions

end UiTemplate
