import UiTemplate.Proofs.Binding.Extraction
import UiTemplate.Proofs.Binding.Values
import UiTemplate.Proofs.Json.Record

/-!
# The mapping key by key

A mapping is computed as a whole, or one key at a time. `Template.eval_keywise` says that the two
agree, in their values as in their failures, for the bound values of any tree.

- `Record.evalFields_error`: the failure of a record is that of its first entry that fails.
- `Template.extract_nodup`: no key of a template is given to two values of one scope, on which all
  of this rests.
-/

namespace UiTemplate

namespace Record

variable {scope : Scope} {r : Record}

/-- If a record cannot be computed, the entries up to one can be, and this one fails as the record
does. -/
theorem evalFields_error {e : EvalError} (h : evalFields scope r = .error e) :
    ∃ before key t after, r = before ++ (key, t) :: after ∧ t.eval scope = .error e ∧
      ∀ entry ∈ before, ∃ v, entry.2.eval scope = .ok v := by
  induction r with
  | nil =>
    rw [evalFields] at h
    cases h
  | cons entry r ih =>
    obtain ⟨key, t⟩ := entry
    rw [evalFields] at h
    cases ht : t.eval scope with
    | error e' =>
      rw [ht] at h
      cases h
      exact ⟨[], key, t, r, rfl, ht, by simp⟩
    | ok v =>
      have hr : evalFields scope r = .error e := by
        rcases Except.bind_eq_error.mp h with h | ⟨w, -, h⟩
        · rw [ht] at h
          cases h
        · rcases Except.bind_eq_error.mp h with h | ⟨more, -, h⟩
          · exact h
          · cases h
      obtain ⟨before, key', t', after, rfl, hfail, hbefore⟩ := ih hr
      refine ⟨(key, t) :: before, key', t', after, rfl, hfail, ?_⟩
      exact List.forall_mem_cons.mpr ⟨⟨v, ht⟩, hbefore⟩

theorem get?_eq_none {key : Key} (h : key ∉ r.map Prod.fst) : get? key r = none := by
  induction r with
  | nil => rfl
  | cons entry r ih =>
    obtain ⟨k, t⟩ := entry
    rw [List.map_cons, List.mem_cons, not_or] at h
    rw [get?, if_neg (Ne.symm h.1), ih h.2]

end Record

/-- No two bound values of the scope of a template have one key. -/
theorem Template.extract_nodup (capabilities : Capabilities) (nodes : List Node) :
    ((Template.extract capabilities nodes).2.root.map Prod.fst).Nodup := by
  have hparts := Node.partsAll_sublist capabilities (Template.extract capabilities nodes).1
  rw [Template.extract_root]
  exact ((Template.extract_increasing capabilities nodes).sublist hparts).nodup

namespace BindingContext

variable {c : BindingContext} {context : Json}

/-- The value of a key is that of the entry under it. -/
theorem evalKey_of_mem (hn : (c.root.map Prod.fst).Nodup) {key : Key} {t : Thunk}
    (h : (key, t) ∈ c.root) : c.evalKey key context = t.eval (Scope.ofContext context) := by
  rw [evalKey, Record.get?_of_mem hn h]

theorem evalKey_of_notMem {key : Key} (h : key ∉ c.root.map Prod.fst) :
    c.evalKey key context = .error (.unknownKey key) := by
  rw [evalKey, Record.get?_eq_none h]

/-- A mapping is an object with an entry for each key of the record, whose value is the one that the
key has by itself. -/
theorem eval_ok (hn : (c.root.map Prod.fst).Nodup) {mapping : Json}
    (h : c.eval context = .ok mapping) :
    (∃ entries, mapping = .obj entries ∧ (entries.map Prod.fst).Perm (c.root.map Prod.fst)) ∧
      ∀ key ∈ c.root.map Prod.fst, ∃ v, mapping.get? key = some v ∧
        c.evalKey key context = .ok v := by
  obtain ⟨fields, hfields, h⟩ := Except.bind_eq_ok.mp h
  cases h
  have hkeys := Record.evalFields_keys hfields
  have hnf : (fields.map Prod.fst).Nodup := by rwa [hkeys]
  constructor
  · obtain ⟨entries, hentries, hperm, -⟩ := Json.isRecord_ofFields hnf
    refine ⟨entries, hentries, ?_⟩
    rw [← hkeys]
    exact hperm.map Prod.fst
  · intro key hkey
    obtain ⟨⟨key, t⟩, hm, rfl⟩ := List.mem_map.mp hkey
    obtain ⟨v, hv, hf⟩ := Record.evalFields_mem hfields hm
    exact ⟨v, Json.ofFields_get?_of_mem hnf hf, by rw [evalKey_of_mem hn hm, hv]⟩

/-- A mapping that cannot be computed fails as the first key does that fails by itself. -/
theorem eval_error (hn : (c.root.map Prod.fst).Nodup) {e : EvalError}
    (h : c.eval context = .error e) :
    ∃ before entry after, c.root = before ++ entry :: after ∧
      c.evalKey entry.1 context = .error e ∧
      ∀ earlier ∈ before, ∃ v, c.evalKey earlier.1 context = .ok v := by
  have hfields : Record.evalFields (Scope.ofContext context) c.root = .error e := by
    rcases Except.bind_eq_error.mp h with h | ⟨fields, -, h⟩
    · exact h
    · cases h
  obtain ⟨before, key, t, after, hroot, hfail, hbefore⟩ := Record.evalFields_error hfields
  have hmem {entry : Key × Thunk} (he : entry ∈ before ++ (key, t) :: after) :
      c.evalKey entry.1 context = entry.2.eval (Scope.ofContext context) :=
    evalKey_of_mem hn (hroot ▸ he)
  refine ⟨before, (key, t), after, hroot, ?_, fun earlier he => ?_⟩
  · rw [hmem (by simp), hfail]
  · obtain ⟨v, hv⟩ := hbefore earlier he
    exact ⟨v, by rw [hmem (by simp [he]), hv]⟩

end BindingContext

/-- **The mapping agrees with its keys.** For the bound values of any tree and any rendering context:
if the mapping is computed, it is an object with just the keys of the record, and under each of them
is the value that the key has by itself; no other key has a value. If it cannot be computed, it
fails as the first key of the record does that fails by itself. -/
theorem Template.eval_keywise (capabilities : Capabilities) (nodes : List Node) (context : Json) :
    let c := (Template.extract capabilities nodes).2
    (∀ mapping, c.eval context = .ok mapping →
      (∃ entries, mapping = .obj entries ∧ (entries.map Prod.fst).Nodup ∧
        ∀ key, key ∈ entries.map Prod.fst ↔ key ∈ c.root.map Prod.fst) ∧
      (∀ key ∈ c.root.map Prod.fst, ∃ v, mapping.get? key = some v ∧
        c.evalKey key context = .ok v) ∧
      ∀ key ∉ c.root.map Prod.fst, c.evalKey key context = .error (.unknownKey key)) ∧
    ∀ e, c.eval context = .error e →
      ∃ before entry after, c.root = before ++ entry :: after ∧
        c.evalKey entry.1 context = .error e ∧
        ∀ earlier ∈ before, ∃ v, c.evalKey earlier.1 context = .ok v := by
  have hn := Template.extract_nodup capabilities nodes
  refine ⟨fun mapping h => ?_, fun e h => BindingContext.eval_error hn h⟩
  obtain ⟨⟨entries, hentries, hperm⟩, hvalues⟩ := BindingContext.eval_ok hn h
  exact ⟨⟨entries, hentries, hperm.nodup_iff.mpr hn, fun key => hperm.mem_iff⟩, hvalues,
    fun key hkey => BindingContext.evalKey_of_notMem hkey⟩

/-- A name, a loop over it, and a property of another name. -/
def namesAndLoop : List Node :=
  let items : Expression := ⟨"items", .ident "items", []⟩
  [.interpolation items none {},
    .loop { source := items, item := "x", index := none, depth := 0 }
      [.interpolation items none {}],
    .interpolation ⟨"user.name", .member (.ident "user") (.str "name"), []⟩ none {}]

/-- A key that has a value, and the first key that has none. -/
theorem eval_keywise_namesAndLoop :
    let c := (Template.extract Platform.weixin.capabilities namesAndLoop).2
    (∃ v, c.evalKey "b" (.obj [("items", .arr [.null]), ("user", .obj [])]) = .ok v) ∧
      ∃ before entry after, c.root = before ++ entry :: after ∧
        c.evalKey entry.1 (.obj [("items", .arr [.null])]) = .error (.nullProperty "name") ∧
        ∀ earlier ∈ before, ∃ v,
          c.evalKey earlier.1 (.obj [("items", .arr [.null])]) = .ok v := by
  constructor
  · obtain ⟨h, -⟩ := Template.eval_keywise Platform.weixin.capabilities namesAndLoop
      (.obj [("items", .arr [.null]), ("user", .obj [])])
    obtain ⟨-, hvalues, -⟩ := h _ rfl
    obtain ⟨v, -, hv⟩ := hvalues "b" (by decide +kernel)
    exact ⟨v, hv⟩
  · exact (Template.eval_keywise Platform.weixin.capabilities namesAndLoop
      (.obj [("items", .arr [.null])])).2 _ rfl

end UiTemplate
