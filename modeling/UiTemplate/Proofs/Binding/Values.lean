import UiTemplate.Binding.Evaluate
import UiTemplate.Proofs.Binding.Lookup
import UiTemplate.Proofs.Result

/-!
# The values of records

- `Json.ofFields_get?_of_mem`, `Json.ofFields_get?_of_notMem`: an object has its fields, and nothing
  else.
- `Record.evalFields_mem`, `Record.evalFields_keys`: every entry of a record is computed, under its
  key.
-/

namespace UiTemplate

/-! ## Objects -/

namespace Json

theorem lookup_insert (key key' : String) (v : Json) (entries : List (String × Json)) :
    lookup key (insert key' v entries) = if key' = key then some v else lookup key entries := by
  induction entries with
  | nil => rfl
  | cons entry entries ih =>
    obtain ⟨k, u⟩ := entry
    rw [insert]
    split
    · rfl
    · split
      · next h =>
        subst h
        rw [lookup, lookup]
        split <;> rfl
      · next h =>
        rw [lookup, lookup, ih]
        by_cases hk : k = key
        · rw [if_pos hk, if_pos hk, if_neg fun e => h (e.trans hk.symm)]
        · rw [if_neg hk, if_neg hk]

theorem lookup_foldl_insert {key : String} (fields entries : List (String × Json))
    (h : key ∉ fields.map Prod.fst) :
    lookup key (fields.foldl (fun es f => insert f.1 f.2 es) entries) = lookup key entries := by
  induction fields generalizing entries with
  | nil => rfl
  | cons f fields ih =>
    rw [List.map_cons, List.mem_cons, not_or] at h
    rw [List.foldl_cons, ih _ h.2, lookup_insert, if_neg fun e => h.1 e.symm]

theorem ofFields_get?_of_notMem {key : String} {fields : List (String × Json)}
    (h : key ∉ fields.map Prod.fst) : (ofFields fields).get? key = none :=
  lookup_foldl_insert fields [] h

/-- A field whose name no other one has is found under it. -/
theorem ofFields_get?_of_mem {fields : List (String × Json)} (hn : (fields.map Prod.fst).Nodup)
    {f : String × Json} (hf : f ∈ fields) : (ofFields fields).get? f.1 = some f.2 := by
  show lookup f.1 (fields.foldl _ []) = _
  generalize ([] : List (String × Json)) = entries
  induction fields generalizing entries with
  | nil => exact absurd hf List.not_mem_nil
  | cons g fields ih =>
    rw [List.map_cons, List.nodup_cons] at hn
    rw [List.foldl_cons]
    rcases List.mem_cons.mp hf with rfl | hf
    · rw [lookup_foldl_insert fields _ hn.1, lookup_insert, if_pos rfl]
    · exact ih hn.2 hf _

end Json

/-! ## Records -/

namespace Record

variable {scope : Scope} {r : Record} {fields : List (String × Json)}

/-- The value of an entry comes first, then those of the other ones. -/
theorem evalFields_cons {key : Key} {t : Thunk} (h : evalFields scope ((key, t) :: r) = .ok fields) :
    ∃ v more, t.eval scope = .ok v ∧ evalFields scope r = .ok more ∧
      fields = (key, v) :: more := by
  rw [evalFields, Except.bind_eq_ok] at h
  obtain ⟨v, hv, h⟩ := h
  rw [Except.bind_eq_ok] at h
  obtain ⟨more, hm, h⟩ := h
  cases h
  exact ⟨v, more, hv, hm, rfl⟩

/-- The values of a record are under its keys, in its order. -/
theorem evalFields_keys (h : evalFields scope r = .ok fields) :
    fields.map Prod.fst = r.map Prod.fst := by
  induction r generalizing fields with
  | nil =>
    rw [evalFields] at h
    cases h
    rfl
  | cons entry r ih =>
    obtain ⟨key, t⟩ := entry
    obtain ⟨v, rest, -, hr, rfl⟩ := evalFields_cons h
    rw [List.map_cons, List.map_cons, ih hr]

/-- Every entry of a record is computed. -/
theorem evalFields_mem (h : evalFields scope r = .ok fields) {key : Key} {t : Thunk}
    (hm : (key, t) ∈ r) : ∃ v, t.eval scope = .ok v ∧ (key, v) ∈ fields := by
  induction r generalizing fields with
  | nil => exact absurd hm List.not_mem_nil
  | cons entry r ih =>
    obtain ⟨k, u⟩ := entry
    obtain ⟨v, rest, hv, hr, rfl⟩ := evalFields_cons h
    rcases List.mem_cons.mp hm with he | hm
    · cases he
      exact ⟨v, hv, List.mem_cons_self⟩
    · obtain ⟨w, hw, hm⟩ := ih hr hm
      exact ⟨w, hw, List.mem_cons_of_mem _ hm⟩

end Record

end UiTemplate
