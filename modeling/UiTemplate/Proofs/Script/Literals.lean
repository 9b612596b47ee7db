import UiTemplate.Proofs.Script.Escapes

/-!
# Where literals and words end

Strings and the chunks of template literals end with a mark of their own, so that nothing behind
them matters (`scanString_eq_some`, `scanQuasi_eq_some`). Regular expressions and words end before
the first character that is no part of a word (`scanRegex_eq_some`, `scanWord_eq_some`).
-/

namespace UiTemplate.Script

open Text

variable {cs ds rest s r : List Char}

/-! ## Strings -/

theorem scanString_eq_some {quote : Char} (hquote : quote ∈ barriers) {fuel : Nat}
    {units : List TextUnit} {width : Nat}
    (h : scanString quote fuel cs = some (units, width, rest)) :
    ∃ s, cs = s ++ rest ∧ width = byteLength s ∧ quote ∈ s ∧
      ∀ r fuel', s.length < fuel' → scanString quote fuel' (s ++ r) = some (units, width, r) := by
  induction fuel generalizing cs units width with
  | zero => cases h
  | succ fuel ih =>
    cases cs with
    | nil => cases h
    | cons c cs =>
      rw [scanString] at h
      split at h
      · rename_i hc
        cases h
        rw [beq_iff_eq] at hc
        subst hc
        -- Quotes are one byte long.
        have hsizes : (barriers.all fun q => q.utf8Size == 1) = true := by decide
        have hsize : c.utf8Size = 1 := eq_of_beq (List.all_eq_true.mp hsizes c hquote)
        refine ⟨[c], rfl, by rw [byteLength, hsize]; rfl, List.mem_singleton_self c,
          fun r fuel' hfuel => ?_⟩
        obtain ⟨fuel', rfl⟩ := Nat.exists_eq_add_of_lt hfuel
        simp [scanString]
      · rename_i hc
        split at h
        · cases h
        · rename_i hend
          split at h
          · rename_i hslash
            simp only [Option.bind_eq_bind, Option.bind_eq_some_iff, Prod.exists] at h
            obtain ⟨first, w, tail, hescape, more, w', rest', hmore, h⟩ := h
            cases h
            obtain ⟨s, rfl, rfl, hs, hread⟩ := ih hmore
            obtain ⟨e, rfl, rfl, -, hreade⟩ := escape?_eq_some hescape
            rw [beq_iff_eq] at hslash
            subst hslash
            refine ⟨'\\' :: (e ++ s), by simp, ?_, by simp [hs], fun r fuel' hfuel => ?_⟩
            · rw [byteLength, byteLength_append, Nat.add_assoc]
              rfl
            · obtain ⟨fuel', rfl⟩ : ∃ k, fuel' = k + 1 := ⟨fuel' - 1, by omega⟩
              simp only [List.length_cons, List.length_append] at hfuel
              -- An escape looks at the text behind it only up to the quote, which is in both texts.
              have hnear : Near (s ++ rest) (s ++ r) := .of_mem hquote hs _ _
              rw [List.cons_append, List.append_assoc, scanString, if_neg hc, if_neg hend,
                if_pos (beq_self_eq_true _), hreade _ hnear]
              simp only [Option.bind_eq_bind, Option.bind_some, hread r fuel' (by omega)]
          · rename_i hslash
            simp only [Option.bind_eq_bind, Option.bind_eq_some_iff, Prod.exists] at h
            obtain ⟨more, w', rest', hmore, h⟩ := h
            cases h
            obtain ⟨s, rfl, rfl, hs, hread⟩ := ih hmore
            refine ⟨c :: s, rfl, rfl, List.mem_cons_of_mem c hs, fun r fuel' hfuel => ?_⟩
            obtain ⟨fuel', rfl⟩ : ∃ k, fuel' = k + 1 := ⟨fuel' - 1, by omega⟩
            rw [List.length_cons] at hfuel
            rw [List.cons_append, scanString, if_neg hc, if_neg hend, if_neg hslash,
              hread r fuel' (by omega)]
            rfl

/-! ## Template literals -/

/-- A chunk before another text. -/
def Quasi.before (q : Quasi) (r : List Char) : Quasi :=
  { q with rest := r }

theorem Quasi.map_cons_eq_some {units : Option (List TextUnit)} {width : Nat} {o : Option Quasi}
    {q : Quasi} (h : o.map (Quasi.cons units width) = some q) :
    ∃ q', o = some q' ∧ q'.rest = q.rest ∧ q = Quasi.cons units width q' := by
  obtain ⟨q', hq', rfl⟩ := Option.map_eq_some_iff.mp h
  exact ⟨q', hq', rfl, rfl⟩

/-- A chunk takes a barrier off the text, and nothing behind that matters. -/
structure Quasi.Spans (q : Quasi) (s : List Char) : Prop where
  width_eq : q.width = byteLength s
  closed : ∃ b ∈ barriers, b ∈ s
  scan : ∀ r fuel, s.length < fuel → scanQuasi fuel (s ++ r) = some (q.before r)

theorem Quasi.Spans.cons {q : Quasi} (h : q.Spans s) {units : Option (List TextUnit)} {c : Char}
    {e : List Char} {width : Nat} (hwidth : width = byteLength (c :: e))
    (hscan : ∀ r fuel, scanQuasi (fuel + 1) (c :: (e ++ (s ++ r))) =
      (scanQuasi fuel (s ++ r)).map (Quasi.cons units width)) :
    (Quasi.cons units width q).Spans (c :: (e ++ s)) where
  width_eq := by
    show width + q.width = _
    rw [hwidth, h.width_eq, ← byteLength_append, List.cons_append]
  closed := by
    obtain ⟨b, hb, hs⟩ := h.closed
    exact ⟨b, hb, by simp [hs]⟩
  scan r fuel hfuel := by
    obtain ⟨fuel, rfl⟩ : ∃ k, fuel = k + 1 := ⟨fuel - 1, by omega⟩
    rw [List.length_cons, List.length_append] at hfuel
    rw [List.cons_append, List.append_assoc, hscan, h.scan r fuel (by omega)]
    rfl

theorem scanQuasi_eq_some {fuel : Nat} {q : Quasi} (h : scanQuasi fuel cs = some q) :
    ∃ s, cs = s ++ q.rest ∧ q.Spans s := by
  induction fuel generalizing cs q with
  | zero => cases h
  | succ fuel ih =>
    unfold scanQuasi at h
    split at h
    · cases h
    · cases h
      refine ⟨['\x60'], rfl, rfl, ⟨'\x60', by decide, by decide⟩, fun r fuel hfuel => ?_⟩
      obtain ⟨fuel, rfl⟩ := Nat.exists_eq_add_of_lt hfuel
      rfl
    · cases h
      refine ⟨['$', '\x7b'], rfl, rfl, ⟨'$', by decide, by decide⟩, fun r fuel hfuel => ?_⟩
      obtain ⟨fuel, rfl⟩ := Nat.exists_eq_add_of_lt hfuel
      rfl
    · obtain ⟨q', hq', hrest, rfl⟩ := Quasi.map_cons_eq_some h
      obtain ⟨s, rfl, hs⟩ := ih hq'
      exact ⟨'\r' :: (['\n'] ++ s), rfl, hs.cons rfl fun _ _ => rfl⟩
    -- A carriage return alone: no line feed follows, in the text or in front of any other end.
    · rename_i hfeed
      obtain ⟨q', hq', hrest, rfl⟩ := Quasi.map_cons_eq_some h
      obtain ⟨s, rfl, hs⟩ := ih hq'
      refine ⟨'\r' :: ([] ++ s), rfl, hs.cons rfl fun r fuel => ?_⟩
      obtain ⟨b, hb, hmem⟩ := hs.closed
      rw [List.nil_append, scanQuasi]
      exact ne_cons_of_head? hfeed (Near.of_mem hb hmem _ r).head?_eq
    · split at h
      · rename_i units width tail hescape
        obtain ⟨q', hq', hrest, rfl⟩ := Quasi.map_cons_eq_some h
        obtain ⟨s, rfl, hs⟩ := ih hq'
        obtain ⟨e, rfl, rfl, -, hread⟩ := escape?_eq_some hescape
        refine ⟨'\\' :: (e ++ s), by simp [Quasi.cons], hs.cons (Nat.add_comm _ _) fun r fuel => ?_⟩
        obtain ⟨b, hb, hmem⟩ := hs.closed
        rw [scanQuasi.eq_def]
        simp only [hread _ (.of_mem hb hmem _ r)]
      -- A wrong escape takes one character, and is as wrong in front of any other end.
      · rename_i hescape
        split at h
        · rename_i c tail
          obtain ⟨q', hq', hrest, rfl⟩ := Quasi.map_cons_eq_some h
          obtain ⟨s, rfl, hs⟩ := ih hq'
          refine ⟨'\\' :: ([c] ++ s), rfl, hs.cons rfl fun r fuel => ?_⟩
          obtain ⟨b, hb, hmem⟩ := hs.closed
          have hnone := ((Near.of_mem hb hmem _ r).cons c).escape?_isNone hescape
          rw [List.singleton_append, scanQuasi, hnone]
        · cases h
    · rename_i c tail htick hdollar hreturnfeed hreturn hslash
      obtain ⟨q', hq', hrest, rfl⟩ := Quasi.map_cons_eq_some h
      obtain ⟨s, rfl, hs⟩ := ih hq'
      refine ⟨c :: ([] ++ s), rfl, hs.cons rfl fun r fuel => ?_⟩
      obtain ⟨b, hb, hmem⟩ := hs.closed
      rw [List.nil_append, scanQuasi]
      · exact htick
      · rintro t rfl ht
        exact ne_cons_of_head? (fun t ht => hdollar t rfl ht)
          (Near.of_mem hb hmem _ r).head?_eq t ht
      · rintro t rfl
        exact absurd rfl hreturn
      · exact hreturn
      · exact hslash

/-! ## Regular expressions -/

theorem regexBody_eq_some {inClass : Bool} {fuel width : Nat}
    (h : regexBody inClass fuel cs = some (width, rest)) :
    ∃ s, cs = s ++ rest ∧ width = byteLength s ∧ s ≠ [] ∧
      ∀ r fuel', s.length < fuel' → regexBody inClass fuel' (s ++ r) = some (width, r) := by
  induction fuel generalizing inClass cs width with
  | zero => cases h
  | succ fuel ih =>
    -- What is read first, and then the rest of the body by the induction.
    have hmore {cls : Bool} {e tail : List Char} {w : Nat} (he : e ≠ [])
        (hcs : cs = e ++ tail) (hwidth : w = byteLength e)
        (h : (regexBody cls fuel tail).map (fun x => (x.1 + w, x.2)) = some (width, rest))
        (hscan : ∀ r fuel, tail.head? = r.head? → regexBody inClass (fuel + 1) (e ++ r) =
          (regexBody cls fuel r).map fun x => (x.1 + w, x.2)) :
        ∃ s, cs = s ++ rest ∧ width = byteLength s ∧ s ≠ [] ∧
          ∀ r fuel', s.length < fuel' →
            regexBody inClass fuel' (s ++ r) = some (width, r) := by
      obtain ⟨⟨n, t⟩, hbody, h⟩ := Option.map_eq_some_iff.mp h
      obtain ⟨rfl, rfl⟩ : n + w = width ∧ rest = t :=
        ⟨congrArg Prod.fst h, (congrArg Prod.snd h).symm⟩
      obtain ⟨s, rfl, rfl, hs, hread⟩ := ih hbody
      refine ⟨e ++ s, by rw [hcs, List.append_assoc], ?_, by simp [he], fun r fuel' hfuel => ?_⟩
      · rw [byteLength_append, hwidth, Nat.add_comm]
      · obtain ⟨fuel', rfl⟩ : ∃ k, fuel' = k + 1 := ⟨fuel' - 1, by omega⟩
        rw [List.length_append] at hfuel
        have hpos := List.length_pos_of_ne_nil he
        have hhead : (s ++ rest).head? = (s ++ r).head? := by
          cases s with
          | nil => exact absurd rfl hs
          | cons => rfl
        rw [List.append_assoc, hscan _ _ hhead, hread r fuel' (by omega)]
        rfl
    unfold regexBody at h
    split at h
    · cases h
    · rename_i tail
      split at h
      · rename_i hclass
        refine hmore (e := ['/']) (w := 1) (by simp) rfl rfl h fun r fuel _ => ?_
        rw [List.singleton_append, regexBody, if_pos hclass]
      · rename_i hclass
        cases h
        refine ⟨['/'], rfl, rfl, by simp, fun r fuel' hfuel => ?_⟩
        obtain ⟨fuel', rfl⟩ := Nat.exists_eq_add_of_lt hfuel
        rw [List.singleton_append, regexBody, if_neg hclass]
    · rename_i c tail
      split at h
      · cases h
      · rename_i hend
        simp only [Nat.add_assoc] at h
        refine hmore (e := ['\\', c]) (by simp) rfl rfl h fun r fuel _ => ?_
        rw [List.cons_append, List.singleton_append, regexBody, if_neg hend]
        simp only [Nat.add_assoc]
        rfl
    · rename_i c tail hslash hescape
      split at h
      · cases h
      · rename_i hend
        refine hmore (e := [c]) (by simp) rfl rfl h fun r fuel hr => ?_
        rw [List.singleton_append, regexBody, if_neg hend]
        · rfl
        · exact hslash
        -- The character would be an escape with the next one, which is the same in both texts.
        · rintro d t rfl rfl
          cases tail with
          | nil => cases hr
          | cons d' t' => exact hescape d' t' rfl rfl

/-- The characters of flags take one byte each. -/
theorem byteLength_of_validFlags (h : validFlags s = true) : byteLength s = s.length := by
  have hsizes : (regexFlags.all fun c => c.utf8Size == 1) = true := by decide
  rw [validFlags, Bool.and_eq_true] at h
  have hflags := h.1
  clear h
  induction s with
  | nil => rfl
  | cons c s ih =>
    simp only [distinctFlags, Bool.and_eq_true] at hflags
    have hsize : c.utf8Size = 1 :=
      eq_of_beq (List.all_eq_true.mp hsizes c (List.contains_iff_mem.mp hflags.1.1))
    rw [byteLength, List.length_cons, ih hflags.2, hsize, Nat.add_comm]

/-- No part of a word separates. -/
theorem isIdentPart_of_separates : ∀ c, separates c = true → isIdentPart c = false :=
  eq_false_of_separates (by decide +kernel) (by decide +kernel)

/-- A regular expression ends before the first character that is no part of a word. -/
theorem scanRegex_eq_some {width : Nat} (h : scanRegex cs = some (width, rest)) :
    ∃ s, cs = s ++ rest ∧ width = byteLength s ∧ s ≠ [] ∧
      ∀ r, Meets rest r → scanRegex (s ++ r) = some (width, r) := by
  obtain ⟨⟨w, tail⟩, hbody, hflags⟩ := Option.bind_eq_some_iff.mp h
  obtain ⟨s, rfl, rfl, hs, hread⟩ := regexBody_eq_some hbody
  clear h hbody
  obtain ⟨htail, hall, hend⟩ := takeWhile_run isIdentPart tail
  dsimp only at hflags
  generalize tail.takeWhile isIdentPart = flags at hflags htail hall hend
  split at hflags
  · rename_i hvalid
    simp only [Option.some.injEq, Prod.mk.injEq] at hflags
    obtain ⟨rfl, rfl⟩ := hflags
    refine ⟨s ++ flags, ?_, ?_, by simp [hs], fun r hr => ?_⟩
    · rw [List.append_assoc, ← htail]
    · rw [byteLength_append, byteLength_of_validFlags hvalid]
    · have hrun : (flags ++ r).takeWhile isIdentPart = flags :=
        takeWhile_eq_run hall (hr.any_head? isIdentPart_of_separates ▸ hend)
      rw [List.append_assoc, scanRegex, hread _ _ (by simp only [List.length_append]; omega)]
      simp only [Option.bind_eq_bind, Option.bind_some, hrun, hvalid, if_true, List.drop_left]
  · cases hflags

/-! ## Words -/

/-- A word takes its spelling off the text, and only the character behind that matters. -/
structure Word.Spans (w : Word) (first : Bool) (s : List Char) : Prop where
  width_eq : w.width = byteLength s
  name_eq : w.escaped = false → w.name = s
  ends : first = false ∨ w.name ≠ [] → EndsWord w.rest
  scan : ∀ r fuel, Meets w.rest r → s.length < fuel →
    scanWord first fuel (s ++ r) = some { w with rest := r }

theorem Word.Spans.cons {w : Word} {first : Bool} (h : w.Spans false s) {c d : Char}
    {e : List Char} {width : Nat} {escaped : Bool} (hwidth : width = byteLength (d :: e))
    (hname : escaped = false → c = d ∧ e = [])
    (hscan : ∀ r fuel, scanWord first (fuel + 1) (d :: (e ++ (s ++ r))) =
      (scanWord false fuel (s ++ r)).map (Word.cons c width escaped)) :
    (Word.cons c width escaped w).Spans first (d :: (e ++ s)) where
  width_eq := by
    show width + w.width = _
    rw [hwidth, h.width_eq, ← byteLength_append, List.cons_append]
  name_eq hescaped := by
    obtain ⟨hthis, hrest⟩ := Bool.or_eq_false_iff.mp hescaped
    obtain ⟨rfl, rfl⟩ := hname hthis
    exact congrArg (c :: ·) (h.name_eq hrest)
  ends _ := h.ends (.inl rfl)
  scan r fuel hr hfuel := by
    obtain ⟨fuel, rfl⟩ : ∃ k, fuel = k + 1 := ⟨fuel - 1, by omega⟩
    rw [List.length_cons, List.length_append] at hfuel
    rw [List.cons_append, List.append_assoc, hscan, h.scan r fuel hr (by omega)]
    rfl

theorem scanWord_eq_some {first : Bool} {fuel : Nat} {w : Word}
    (h : scanWord first fuel cs = some w) : ∃ s, cs = s ++ w.rest ∧ w.Spans first s := by
  induction fuel generalizing first cs w with
  | zero => cases h
  | succ fuel ih =>
    unfold scanWord at h
    extract_lets allowed at h
    split at h
    · obtain ⟨⟨code, width, tail⟩, hcode, h⟩ := Option.bind_eq_some_iff.mp h
      dsimp only at h
      split at h
      · cases h
      · rename_i hallowed
        obtain ⟨w', hw', rfl⟩ := Option.map_eq_some_iff.mp h
        obtain ⟨s, rfl, hs⟩ := ih hw'
        obtain ⟨e, rfl, rfl, -, hread⟩ := codeEscape?_eq_some hcode
        refine ⟨'\\' :: ('u' :: e ++ s), by simp [Word.cons],
          hs.cons ?_ (absurd · (by decide)) fun r fuel => ?_⟩
        · rw [byteLength, byteLength, Nat.add_comm]
          simp only [show '\\'.utf8Size = 1 from rfl, show 'u'.utf8Size = 1 from rfl]
          omega
        · rw [List.cons_append, scanWord, hread]
          exact if_neg hallowed
    · cases h
    · rename_i c tail hcode hslash
      split at h
      · rename_i hallowed
        obtain ⟨w', hw', rfl⟩ := Option.map_eq_some_iff.mp h
        obtain ⟨s, rfl, hs⟩ := ih hw'
        refine ⟨c :: ([] ++ s), rfl, hs.cons rfl (fun _ => ⟨rfl, rfl⟩) fun r fuel => ?_⟩
        rw [List.nil_append, scanWord_cons hslash]
        exact if_pos hallowed
      · rename_i hallowed
        cases h
        refine ⟨[], rfl, rfl, fun _ => rfl, fun hfirst => ?_, fun r fuel hr hfuel => ?_⟩
        · obtain rfl : first = false := hfirst.resolve_right fun h => h rfl
          exact endsWord_cons (by simpa [allowed] using hallowed) hslash
        -- The word ends before the next character, and before any that is no part of a word,
        -- either.
        · obtain ⟨fuel, rfl⟩ := Nat.exists_eq_add_of_lt hfuel
          cases r with
          | nil => cases hr.symm.nil_left
          | cons d r =>
            have hfirst (p : Char → Bool) (hspace : p ' ' = false) (hparen : p ')' = false) :
                p c = p d :=
              hr.any_head? (eq_false_of_separates hspace hparen)
            have hslash' : d ≠ '\\' := by
              have hboth := hfirst (· == '\\') rfl rfl
              rwa [beq_eq_false_iff_ne.mpr hslash, eq_comm, beq_eq_false_iff_ne] at hboth
            rw [List.nil_append, scanWord_cons hslash']
            refine if_neg ?_
            rwa [← hfirst (fun c => if first = true then isIdentStart c else isIdentPart c)
              (by cases first <;> decide +kernel) (by cases first <;> decide +kernel)]
    · cases h
      refine ⟨[], rfl, rfl, fun _ => rfl, fun _ _ _ h => absurd h.symm (List.cons_ne_nil _ _),
        fun r fuel hr hfuel => ?_⟩
      obtain ⟨fuel, rfl⟩ := Nat.exists_eq_add_of_lt hfuel
      obtain rfl := hr.nil_left
      rfl

end UiTemplate.Script
