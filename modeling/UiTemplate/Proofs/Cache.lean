import Mathlib
import UiTemplate.Cache
import UiTemplate.Proofs.Options.Stored

/-!
# The cache as a map

- `CompileCache.keyBytes_inj`: what is digested tells text and options apart.
- `CompileCache.entries_run`: after any calls, the entries are those of a table by text and options,
  with digests for keys, unless two digests collide.
- `CompileCache.run_isMap`: so the cache answers with the result that was stored last.
-/

namespace UiTemplate

/-! ## Bytes of texts -/

theorem utf8Bytes_injective {s t : String} (h : utf8Bytes s = utf8Bytes t) : s = t := by
  have hencode : s.toList.utf8Encode = t.toList.utf8Encode := by
    rw [List.utf8Encode, List.utf8Encode]
    exact congrArg List.toByteArray h
  rw [String.utf8Encode_toList, String.utf8Encode_toList] at hencode
  exact String.toByteArray_inj.mp hencode

/-- A zero byte stands for the zero character only. -/
theorem zero_notMem_utf8EncodeChar {c : Char} (h : 0 < c.toNat) :
    (0 : UInt8) ∉ String.utf8EncodeChar c := by
  have hbyte {n : Nat} (hn : 0 < n % 256) : (0 : UInt8) ≠ UInt8.ofNat n := by
    intro he
    have hnat := congrArg UInt8.toNat he
    rw [UInt8.toNat_ofNat'] at hnat
    exact absurd hnat (Nat.ne_of_lt hn)
  change 0 < c.val.toNat at h
  unfold String.utf8EncodeChar
  dsimp only
  split_ifs <;> simp only [List.mem_cons, List.not_mem_nil, or_false, not_or]
  · exact hbyte (by omega)
  · exact ⟨hbyte (by omega), hbyte (by omega)⟩
  · exact ⟨hbyte (by omega), hbyte (by omega), hbyte (by omega)⟩
  · exact ⟨hbyte (by omega), hbyte (by omega), hbyte (by omega), hbyte (by omega)⟩

theorem zero_notMem_utf8Bytes {s : String} (h : Json.AreVisible s.toList) : 0 ∉ utf8Bytes s := by
  intro hmem
  obtain ⟨c, hc, hzero⟩ := List.mem_flatMap.mp hmem
  exact zero_notMem_utf8EncodeChar (Nat.lt_of_lt_of_le (by decide) (h c hc)) hzero

/-- The last zero divides bytes in one way. -/
theorem append_zero_inj {before before' after after' : List UInt8} (h : 0 ∉ after)
    (h' : 0 ∉ after') (heq : before ++ 0 :: after = before' ++ 0 :: after') :
    before = before' ∧ after = after' := by
  rcases List.append_eq_append_iff.mp heq with ⟨more, rfl, hmore⟩ | ⟨more, rfl, hmore⟩
  · cases more with
    | nil => simpa using hmore
    | cons b more =>
      obtain ⟨-, rfl⟩ := List.cons.inj hmore
      exact absurd (List.mem_append_right _ List.mem_cons_self) h
  · cases more with
    | nil => simpa using hmore.symm
    | cons b more =>
      obtain ⟨-, rfl⟩ := List.cons.inj hmore
      exact absurd (List.mem_append_right _ List.mem_cons_self) h'

namespace CompileCache

/-- What is digested tells text and options apart, zeros in the text or not. -/
theorem keyBytes_inj {source source' : String} {o o' : CompileOptions}
    (h : keyBytes source o = keyBytes source' o') : source = source' ∧ o = o' := by
  have hzero (o : CompileOptions) : 0 ∉ utf8Bytes o.text :=
    zero_notMem_utf8Bytes (Json.areVisible_compact _ o.isNumberless_toJson)
  obtain ⟨hsource, htext⟩ := append_zero_inj (hzero o) (hzero o') h
  exact ⟨utf8Bytes_injective hsource, CompileOptions.text_injective (utf8Bytes_injective htext)⟩

end CompileCache

/-! ## Runs -/

/-- A call of the cache. -/
inductive CacheCall where
  | get (source : String) (o : CompileOptions)
  | set (source : String) (o : CompileOptions) (result : CompileResult)
  | clear

/-- The text and the options that a call is about. -/
def CacheCall.subject? : CacheCall → Option (String × CompileOptions)
  | get source o => some (source, o)
  | set source o _ => some (source, o)
  | clear => none

/-- The bytes that a call digests. -/
def CacheCall.digested? (c : CacheCall) : Option (List UInt8) :=
  c.subject?.map fun p => CompileCache.keyBytes p.1 p.2

namespace CompileCache

/-- The cache after a call. -/
def step (cache : CompileCache) : CacheCall → CompileCache
  | .get _ _ => cache
  | .set source o result => cache.set source o result
  | .clear => cache.clear

/-- The cache after calls, which starts empty. -/
def run (calls : List CacheCall) : CompileCache :=
  calls.foldl step {}

/-- No two of the byte strings that calls digest have one digest. -/
def CollisionFree (calls : List CacheCall) : Prop :=
  ∀ c ∈ calls, ∀ c' ∈ calls, ∀ bytes ∈ c.digested?, ∀ bytes' ∈ c'.digested?,
    Sha256.digest bytes = Sha256.digest bytes' → bytes = bytes'

/-- The result was stored by the latest of the calls that stored one for the text and the options,
and nothing was cleared since. -/
def IsLatest (calls : List CacheCall) (source : String) (o : CompileOptions)
    (result : CompileResult) : Prop :=
  ∃ before after, calls = before ++ .set source o result :: after ∧
    .clear ∉ after ∧ ∀ result', .set source o result' ∉ after

/-! ## The table behind the cache -/

/-- A table of results by text and options. -/
abbrev Table := List ((String × CompileOptions) × CompileResult)

/-- The table after a call. -/
def Table.step (table : Table) : CacheCall → Table
  | .get _ _ => table
  | .set source o result => ((source, o), result) :: table.filter fun e => e.1 ≠ (source, o)
  | .clear => []

/-- The table after calls, which starts empty. -/
def Table.run (calls : List CacheCall) : Table :=
  calls.foldl step []

theorem Table.run_append (calls : List CacheCall) (c : CacheCall) :
    run (calls ++ [c]) = (run calls).step c :=
  List.foldl_concat ..

theorem run_append (calls : List CacheCall) (c : CacheCall) :
    run (calls ++ [c]) = (run calls).step c :=
  List.foldl_concat ..

/-- No text and options have two results. -/
theorem Table.nodup_run (calls : List CacheCall) : ((run calls).map Prod.fst).Nodup := by
  induction calls using List.reverseRecOn with
  | nil => exact List.nodup_nil
  | append_singleton calls c ih =>
    rw [run_append]
    cases c with
    | get source o => exact ih
    | clear => exact List.nodup_nil
    | set source o result =>
      refine List.nodup_cons.mpr ⟨fun hmem => ?_, ih.sublist (List.filter_sublist.map _)⟩
      obtain ⟨e, he, heq⟩ := List.mem_map.mp hmem
      exact absurd heq (by simpa using (List.mem_filter.mp he).2)

/-- What one more call does to the results that were stored last. -/
theorem isLatest_append {calls : List CacheCall} {c : CacheCall} {source : String}
    {o : CompileOptions} {result : CompileResult} :
    IsLatest (calls ++ [c]) source o result ↔ c = .set source o result ∨
      IsLatest calls source o result ∧ c ≠ .clear ∧ ∀ result', c ≠ .set source o result' := by
  constructor
  · rintro ⟨before, after, heq, hclear, hset⟩
    rcases List.eq_nil_or_concat' after with rfl | ⟨after, c', rfl⟩
    · exact .inl (List.singleton_inj.mp (List.append_inj' heq rfl).2)
    · rw [← List.cons_append, ← List.append_assoc] at heq
      obtain ⟨rfl, hc⟩ := List.append_inj' heq rfl
      cases hc
      simp only [List.mem_append, List.mem_singleton, not_or] at hclear hset
      exact .inr ⟨⟨before, after, rfl, hclear.1, fun r => (hset r).1⟩, fun h => hclear.2 h.symm,
        fun r h => (hset r).2 h.symm⟩
  · rintro (rfl | ⟨⟨before, after, rfl, hclear, hset⟩, hc, hcset⟩)
    · exact ⟨calls, [], rfl, List.not_mem_nil, fun _ => List.not_mem_nil⟩
    · refine ⟨before, after ++ [c], by simp, ?_, fun r => ?_⟩
      · simpa [hclear] using hc.symm
      · simpa [hset r] using (hcset r).symm

/-- The table has the results that were stored last. -/
theorem Table.mem_run_iff {calls : List CacheCall} {source : String} {o : CompileOptions}
    {result : CompileResult} :
    ((source, o), result) ∈ run calls ↔ IsLatest calls source o result := by
  induction calls using List.reverseRecOn with
  | nil => simp [run, IsLatest]
  | append_singleton calls c ih =>
    rw [run_append]
    rw [isLatest_append, ← ih]
    cases c with
    | get source' o' => simp [step]
    | clear => simp [step]
    | set source' o' result' =>
      rw [step, List.mem_cons, List.mem_filter]
      by_cases heq : (source, o) = (source', o')
      · obtain ⟨rfl, rfl⟩ := Prod.mk.inj heq
        simp [eq_comm]
      · have hne : CacheCall.set source' o' result' ≠ .set source o result := by
          rintro ⟨⟩
          exact heq rfl
        have hnever (r : CompileResult) : CacheCall.set source' o' result' ≠ .set source o r := by
          rintro ⟨⟩
          exact heq rfl
        simp [heq, hne, hnever]

/-- The subject of a result in the table was stored by a call. -/
theorem Table.exists_call {calls : List CacheCall} {e : (String × CompileOptions) × CompileResult}
    (h : e ∈ run calls) : ∃ c ∈ calls, c.subject? = some e.1 := by
  obtain ⟨before, after, rfl, -⟩ := mem_run_iff.mp h
  exact ⟨_, List.mem_append_right _ List.mem_cons_self, rfl⟩

/-! ## The cache -/

theorem CollisionFree.of_subset {calls calls' : List CacheCall} (h : CollisionFree calls')
    (hsub : calls ⊆ calls') : CollisionFree calls :=
  fun c hc c' hc' => h c (hsub hc) c' (hsub hc')

/-- Where no digests collide, calls about different subjects have different keys. -/
theorem CollisionFree.subject_inj {calls : List CacheCall} (h : CollisionFree calls)
    {c c' : CacheCall} (hc : c ∈ calls) (hc' : c' ∈ calls) {p p' : String × CompileOptions}
    (hp : c.subject? = some p) (hp' : c'.subject? = some p')
    (hkey : keyOf p.1 p.2 = keyOf p'.1 p'.2) : p = p' := by
  have hd : c.digested? = some (keyBytes p.1 p.2) := by rw [CacheCall.digested?, hp]; rfl
  have hd' : c'.digested? = some (keyBytes p'.1 p'.2) := by rw [CacheCall.digested?, hp']; rfl
  obtain ⟨hsource, ho⟩ := keyBytes_inj (h c hc c' hc' _ hd _ hd' hkey)
  exact Prod.ext hsource ho

/-- An entry of the table under its digest. -/
def Table.stored (e : (String × CompileOptions) × CompileResult) : String × CompileResult :=
  (keyOf e.1.1 e.1.2, e.2)

/-- Where no digests collide, an entry has the key of a later call just if it is about the same. -/
theorem Table.key_beq {calls : List CacheCall} {c : CacheCall} (h : CollisionFree (calls ++ [c]))
    {p : String × CompileOptions} (hp : c.subject? = some p)
    {e : (String × CompileOptions) × CompileResult} (he : e ∈ run calls) :
    ((stored e).1 == keyOf p.1 p.2) = decide (e.1 = p) := by
  obtain ⟨c', hc', hs⟩ := exists_call he
  refine Bool.eq_iff_iff.mpr ?_
  rw [beq_iff_eq, decide_eq_true_eq]
  refine ⟨fun hkey => ?_, fun heq => heq ▸ rfl⟩
  exact h.subject_inj (List.mem_append_left _ hc') (List.mem_append_right _ List.mem_cons_self)
    hs hp hkey

/-- The entry that is found for a text and options is the only one for them. -/
theorem Table.find?_run_eq_some {calls : List CacheCall} {p : String × CompileOptions}
    {e : (String × CompileOptions) × CompileResult} :
    (run calls).find? (fun e => decide (e.1 = p)) = some e ↔ e ∈ run calls ∧ e.1 = p := by
  have hsubject {e : (String × CompileOptions) × CompileResult}
      (h : (run calls).find? (fun e => decide (e.1 = p)) = some e) : e.1 = p := by
    simpa using List.find?_some h
  constructor
  · exact fun h => ⟨List.mem_of_find?_eq_some h, hsubject h⟩
  · rintro ⟨he, heq⟩
    obtain ⟨e', hfound⟩ := Option.isSome_iff_exists.mp
      (List.find?_isSome (p := fun e => decide (e.1 = p)).mpr ⟨e, he, decide_eq_true heq⟩)
    rw [hfound, List.inj_on_of_nodup_map (nodup_run calls) (List.mem_of_find?_eq_some hfound) he
      ((hsubject hfound).trans heq.symm)]

/-- The cache has the entries of the table. -/
theorem entries_run {calls : List CacheCall} (h : CollisionFree calls) :
    (run calls).entries = (Table.run calls).map Table.stored := by
  induction calls using List.reverseRecOn with
  | nil => rfl
  | append_singleton calls c ih =>
    have hbefore := ih (h.of_subset (List.subset_append_left ..))
    rw [run_append, Table.run_append]
    cases c with
    | get source o => exact hbefore
    | clear => rfl
    | set source o result =>
      show (keyOf source o, result) :: (run calls).entries.filter _ = _ :: List.map _ _
      refine congrArg ((keyOf source o, result) :: ·) ?_
      rw [hbefore, List.filter_map]
      refine congrArg (List.map Table.stored) (List.filter_congr fun e he => ?_)
      have hkey := Table.key_beq h rfl he
      exact (congrArg not hkey).trans (decide_not (p := e.1 = (source, o))).symm

/-- The cache answers with the result of the table. -/
theorem get?_run {calls : List CacheCall} {source : String} {o : CompileOptions}
    (h : CollisionFree (calls ++ [.get source o])) (result : CompileResult) :
    (run calls).get? source o = some result ↔ ((source, o), result) ∈ Table.run calls := by
  have hfind : (run calls).entries.find? (fun e => e.1 == keyOf source o) =
      ((Table.run calls).find? fun e => e.1 = (source, o)).map Table.stored := by
    rw [entries_run (h.of_subset (List.subset_append_left ..)), List.find?_map]
    exact congrArg (Option.map Table.stored) (List.find?_congr fun e he => Table.key_beq h rfl he)
  unfold get?
  rw [hfind, Option.map_map, Option.map_eq_some_iff]
  constructor
  · rintro ⟨⟨p, result⟩, hfound, rfl⟩
    obtain ⟨he, hp⟩ := Table.find?_run_eq_some.mp hfound
    cases hp
    exact he
  · exact fun he => ⟨_, Table.find?_run_eq_some.mpr ⟨he, rfl⟩, rfl⟩

/-- The cache is as large as the table. -/
theorem size_run {calls : List CacheCall} (h : CollisionFree calls) :
    (run calls).size =
      {p : String × CompileOptions | ∃ result, IsLatest calls p.1 p.2 result}.ncard := by
  have hsubjects : {p : String × CompileOptions | ∃ result, IsLatest calls p.1 p.2 result} =
      ((Table.run calls).map Prod.fst).toFinset := by
    ext p
    simp [← Table.mem_run_iff]
  rw [hsubjects, Set.ncard_coe_finset, List.toFinset_card_of_nodup (Table.nodup_run calls),
    List.length_map, size, entries_run h, List.length_map]

/-- **The cache is a map by text and options.** What is digested tells text and options apart. So if
no two of the byte strings digested have one digest, then after any calls the cache has, for a text
and options, the result that was stored last since it was cleared, and none if there is no such
result; and its size is the number of texts and options with such a result. -/
theorem run_isMap :
    (∀ source source' o o', keyBytes source o = keyBytes source' o' → source = source' ∧ o = o') ∧
    (∀ calls source o, CollisionFree (calls ++ [.get source o]) →
      ∀ result, (run calls).get? source o = some result ↔ IsLatest calls source o result) ∧
    ∀ calls, CollisionFree calls → (run calls).size =
      {p : String × CompileOptions | ∃ result, IsLatest calls p.1 p.2 result}.ncard := by
  refine ⟨fun _ _ _ _ => keyBytes_inj, fun calls source o h result => ?_, fun calls => size_run⟩
  exact (get?_run h result).trans Table.mem_run_iff

set_option maxRecDepth 100000 in
theorem keyOf_ne : keyOf "a" {} ≠ keyOf "b" {} := by
  decide +kernel

/-- No digests collide in a run about two subjects with different keys. -/
theorem collisionFree_of_ne {p q : String × CompileOptions} (hne : keyOf p.1 p.2 ≠ keyOf q.1 q.2)
    {calls : List CacheCall} (h : ∀ c ∈ calls, c.subject? = some p ∨ c.subject? = some q) :
    CollisionFree calls := by
  intro c hc c' hc' bytes hbytes bytes' hbytes' heq
  obtain ⟨s, hs, rfl⟩ := Option.map_eq_some_iff.mp hbytes
  obtain ⟨s', hs', rfl⟩ := Option.map_eq_some_iff.mp hbytes'
  have hcase {c : CacheCall} (hc : c ∈ calls) {s : String × CompileOptions}
      (hs : c.subject? = some s) : s = p ∨ s = q :=
    (h c hc).imp (fun hp => Option.some_inj.mp (hs.symm.trans hp))
      fun hq => Option.some_inj.mp (hs.symm.trans hq)
  rcases hcase hc hs with rfl | rfl <;> rcases hcase hc' hs' with rfl | rfl
  · rfl
  · exact absurd heq hne
  · exact absurd heq.symm hne
  · rfl

/-- Of two texts the first is stored twice: it is found with its last result. -/
theorem run_isMap_storedTwice :
    let result (code : String) : CompileResult := ⟨.function code, [], [], []⟩
    let calls : List CacheCall :=
      [.set "a" {} (result "first"), .set "b" {} (result "other"), .set "a" {} (result "last")]
    CollisionFree (calls ++ [.get "a" {}]) ∧ (run calls).get? "a" {} = some (result "last") ∧
      (run calls).size =
        {p : String × CompileOptions | ∃ result, IsLatest calls p.1 p.2 result}.ncard := by
  intro result calls
  have hfree : CollisionFree (calls ++ [.get "a" {}]) := by
    refine collisionFree_of_ne (p := ("a", {})) (q := ("b", {})) keyOf_ne ?_
    simp [calls, CacheCall.subject?]
  refine ⟨hfree, ?_, run_isMap.2.2 calls (hfree.of_subset (List.subset_append_left ..))⟩
  have hlatest : IsLatest calls "a" {} (result "last") :=
    ⟨calls.take 2, [], rfl, List.not_mem_nil, fun _ => List.not_mem_nil⟩
  exact (run_isMap.2.1 calls "a" {} hfree _).mpr hlatest

end CompileCache

end UiTemplate
