import Mathlib.Data.List.Nodup
import UiTemplate.Json.Fields

/-!
# Reading back records

- `Json.IsRecord`: an object has just the given fields, in whatever order.
- `Json.IsRecord.tagged?_bind`, `Json.IsRecord.fields?_bind`: the tag of a stored variant and the fields of a
  stored record are found again.
- `Json.list?_ofList`, `Json.stored?_storedName`: lists and variants without fields are read back.
- `Json.IsRecord.depth_lt`: a field is not nested as deep as its record.
-/

namespace UiTemplate.Json

/-! ## Objects -/

/-- The value is an object with just these fields. -/
def IsRecord (v : Json) (fields : List (String × Json)) : Prop :=
  ∃ entries, v = .obj entries ∧ entries.Perm fields ∧ (fields.map Prod.fst).Nodup

theorem insert_perm {key : String} (value : Json) {entries : List (String × Json)}
    (h : key ∉ entries.map Prod.fst) : (insert key value entries).Perm ((key, value) :: entries) := by
  induction entries with
  | nil => exact .refl _
  | cons entry entries ih =>
    obtain ⟨k, u⟩ := entry
    rw [List.map_cons, List.mem_cons, not_or] at h
    rw [insert]
    split
    · exact .refl _
    · rw [if_neg h.1]
      exact ((ih h.2).cons _).trans (.swap ..)

theorem foldl_insert_perm {fields entries : List (String × Json)}
    (h : ((entries ++ fields).map Prod.fst).Nodup) :
    (fields.foldl (fun es f => insert f.1 f.2 es) entries).Perm (entries ++ fields) := by
  induction fields generalizing entries with
  | nil => simp
  | cons f fields ih =>
    have hmiddle : (entries ++ f :: fields).Perm (f :: entries ++ fields) := List.perm_middle
    have hnodup := (hmiddle.map Prod.fst).nodup_iff.mp h
    have hf : f.1 ∉ entries.map Prod.fst := by
      rw [List.cons_append, List.map_cons, List.nodup_cons, List.map_append, List.mem_append,
        not_or] at hnodup
      exact hnodup.1.1
    have hins : (insert f.1 f.2 entries).Perm (f :: entries) := insert_perm f.2 hf
    refine (ih ?_).trans ((hins.append_right fields).trans hmiddle.symm)
    exact ((hins.append_right fields).map Prod.fst).nodup_iff.mpr hnodup

theorem isRecord_ofFields {fields : List (String × Json)} (h : (fields.map Prod.fst).Nodup) :
    IsRecord (ofFields fields) fields :=
  ⟨_, rfl, foldl_insert_perm h, h⟩

/-! ## Fields -/

theorem lookup_eq_none_iff {key : String} {entries : List (String × Json)} :
    lookup key entries = none ↔ key ∉ entries.map Prod.fst := by
  induction entries with
  | nil => simp [lookup]
  | cons entry entries ih =>
    obtain ⟨k, v⟩ := entry
    rw [lookup, List.map_cons, List.mem_cons, not_or]
    split
    · rename_i hk
      simp [hk]
    · rename_i hk
      rw [ih]
      exact (and_iff_right fun e => hk e.symm).symm

theorem lookup_eq_some_iff {key : String} {v : Json} {entries : List (String × Json)}
    (h : (entries.map Prod.fst).Nodup) : lookup key entries = some v ↔ (key, v) ∈ entries := by
  induction entries with
  | nil => simp [lookup]
  | cons entry entries ih =>
    obtain ⟨k, u⟩ := entry
    rw [List.map_cons, List.nodup_cons] at h
    rw [lookup, List.mem_cons]
    split
    · rename_i hk
      subst hk
      have hv : (k, v) ∉ entries := fun hm => h.1 (List.mem_map.mpr ⟨_, hm, rfl⟩)
      simp [hv, eq_comm]
    · rename_i hk
      rw [ih h.2]
      simp [Ne.symm hk]

theorem hasDistinctKeys_of_nodup {entries : List (String × Json)}
    (h : (entries.map Prod.fst).Nodup) : hasDistinctKeys entries = true := by
  induction entries with
  | nil => rfl
  | cons entry entries ih =>
    rw [List.map_cons, List.nodup_cons] at h
    rw [hasDistinctKeys, lookup_eq_none_iff.mpr h.1, ih h.2]
    rfl

/-- The fields found are those of the record. -/
structure Fields.Of (f : Fields) (fields : List (String × Json)) : Prop where
  keyed : f.positional = false
  lookup : ∀ name, Json.lookup name f.present = Json.lookup name fields

/-- A field of a record that was found. -/
theorem Fields.Of.required {f : Fields} {fields : List (String × Json)} (h : f.Of fields)
    {name : String} {v : Json} (hl : Json.lookup name fields = some v) {α : Type}
    (decode? : Json → Option α) : f.required name decode? = decode? v := by
  rw [Fields.required, h.lookup, hl]
  rfl

namespace IsRecord

variable {v : Json} {fields : List (String × Json)}

/-- The fields of a record are found if they are the ones asked for. -/
theorem fields?_bind (h : IsRecord v fields) {names : List String}
    (hn : fields.map Prod.fst = names) {β : Type} {k : Fields → Option β} {b : β}
    (hk : ∀ f : Fields, f.Of fields → k f = some b) : Json.fields? names v >>= k = some b := by
  obtain ⟨entries, rfl, hperm, hnodup⟩ := h
  have hkeys : (entries.map Prod.fst).Nodup := (hperm.map Prod.fst).nodup_iff.mpr hnodup
  have hall : entries.filter (fun e => names.contains e.1) = entries := by
    refine List.filter_eq_self.mpr fun e he => ?_
    rw [List.contains_iff_mem, ← hn]
    exact List.mem_map_of_mem (hperm.mem_iff.mp he)
  have hfields : Json.fields? names (.obj entries) = some ⟨entries, false⟩ := by
    simp only [Json.fields?, hall, hasDistinctKeys_of_nodup hkeys, if_true]
  rw [hfields]
  refine hk ⟨entries, false⟩ ⟨rfl, fun name => Option.ext fun u => ?_⟩
  rw [lookup_eq_some_iff hkeys, lookup_eq_some_iff hnodup, hperm.mem_iff]

/-- The tag of a variant is found, and its fields are left. -/
theorem tagged?_bind {tag name : String} (h : IsRecord v ((tag, .str name) :: fields)) {β : Type}
    {k : String × Json → Option β} {b : β}
    (hk : ∀ body, IsRecord body fields → k (name, body) = some b) :
    Json.tagged? tag v >>= k = some b := by
  obtain ⟨entries, rfl, hperm, hnodup⟩ := h
  rw [List.map_cons, List.nodup_cons] at hnodup
  have hother : ∀ e ∈ fields, e.1 ≠ tag := fun e he heq =>
    hnodup.1 (List.mem_map.mpr ⟨e, he, heq⟩)
  have htag : entries.filter (fun e => e.1 == tag) = [(tag, .str name)] := by
    have hnone : fields.filter (fun e => e.1 == tag) = [] :=
      List.filter_eq_nil_iff.mpr fun e he => by simpa using hother e he
    have hp := hperm.filter fun e => e.1 == tag
    rw [List.filter_cons_of_pos (by simp), hnone] at hp
    exact List.perm_singleton.mp hp
  have hrest : (entries.filter fun e => e.1 != tag).Perm fields := by
    have hall : fields.filter (fun e => e.1 != tag) = fields :=
      List.filter_eq_self.mpr fun e he => by simpa using hother e he
    have hp := hperm.filter fun e => e.1 != tag
    rwa [List.filter_cons_of_neg (by simp), hall] at hp
  have htagged : Json.tagged? tag (.obj entries) =
      some (name, .obj (entries.filter fun e => e.1 != tag)) := by
    simp only [Json.tagged?, htag]
  rw [htagged]
  exact hk _ ⟨_, rfl, hrest, hnodup.2⟩

end IsRecord

/-! ## Values in records -/

/-- An optional value is read back if a value is, and is not stored as `null`. -/
theorem orNull_ofOption {α : Type} {encode : α → Json} {decode? : Json → Option α} {a : Option α}
    (h : ∀ x ∈ a, decode? (encode x) = some x ∧ (encode x).isNull = false) :
    Fields.orNull decode? (ofOption encode a) = some a := by
  cases a with
  | none => rfl
  | some x =>
    obtain ⟨hd, hn⟩ := h x rfl
    rw [ofOption, Fields.orNull, hn, hd]
    rfl

/-- A text that may be missing is read back; the readers of records are simplified with it. -/
@[simp]
theorem orNull_str (a : Option String) : Fields.orNull str? (ofOption .str a) = some a :=
  orNull_ofOption fun _ _ => ⟨rfl, rfl⟩

theorem mapM_map {α β : Type} {encode : α → β} {decode? : β → Option α} {as : List α}
    (h : ∀ a ∈ as, decode? (encode a) = some a) : (as.map encode).mapM decode? = some as := by
  induction as with
  | nil => rfl
  | cons a as ih =>
    rw [List.forall_mem_cons] at h
    rw [List.map_cons, List.mapM_cons, h.1, ih h.2]
    rfl

/-- A list is read back if its items are. -/
theorem list?_ofList {α : Type} {encode : α → Json} {decode? : Json → Option α} {as : List α}
    (h : ∀ a ∈ as, decode? (encode a) = some a) : list? decode? (ofList encode as) = some as :=
  mapM_map h

theorem natBelow?_nat {bound n : Nat} (h : n < bound) : natBelow? bound (.nat n) = some n :=
  if_pos h

/-! ## Nesting -/

theorem depth_le_entriesDepth {key : String} {v : Json} {entries : List (String × Json)}
    (h : (key, v) ∈ entries) : v.depth ≤ entriesDepth entries := by
  induction entries with
  | nil => exact absurd h List.not_mem_nil
  | cons entry entries ih =>
    obtain ⟨k, w⟩ := entry
    rw [entriesDepth]
    rcases List.mem_cons.mp h with h | h
    · cases h
      exact Nat.le_max_left ..
    · exact Nat.le_trans (ih h) (Nat.le_max_right ..)

/-- A field is not nested as deep as its record. -/
theorem IsRecord.depth_lt {v : Json} {fields : List (String × Json)} (h : IsRecord v fields)
    {key : String} {w : Json} (hw : (key, w) ∈ fields) : w.depth < v.depth := by
  obtain ⟨entries, rfl, hperm, -⟩ := h
  rw [depth]
  exact Nat.lt_succ_of_le (depth_le_entriesDepth (hperm.mem_iff.mpr hw))

end UiTemplate.Json
