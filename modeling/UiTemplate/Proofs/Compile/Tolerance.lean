import UiTemplate.Compile
import UiTemplate.Proofs.Compile.Success
import UiTemplate.Proofs.Tolerance.Calls
import UiTemplate.Proofs.Tolerance.Markup

/-!
# Compilations that tolerate faults

- `compile_partialOutput`: a compilation that tolerates faults fails only where there is no tree to
  emit. It gives what a strict compilation gives if that succeeds, and otherwise notes the faults
  that end the strict one before any other.
-/

namespace UiTemplate

/-- A tolerant backend emits every tree, and what it emits is that of a strict one which succeeds. -/
theorem emitOutput_tolerated (resolver : Resolver) (o : CompileOptions) (a : Annotated) :
    Tolerated (fun r => r.2.2) (emitOutput resolver { o with partialOutput := false } a)
      (emitOutput resolver { o with partialOutput := true } a) := by
  unfold emitOutput
  dsimp only
  cases o.platform.family with
  | calls =>
    exact (Calls.generate_tolerated (o.callSettings resolver a.context) a.nodes).bind_ok
      fun _ => rfl
  | markup => exact (Markup.generate_tolerated o.markupSettings a.nodes).bind_ok fun _ => rfl

section Compile

variable (resolver : Resolver) {o : CompileOptions} {source : String}

theorem compile_of_emissionFault {d : Diagnostic} (h : o.emissionFault? = some d) :
    compile resolver o source = .error (.codegen [d]) := by
  unfold compile
  rw [h]

theorem compile_of_parseError {p : ParseError} (hm : o.emissionFault? = none)
    (h : Template.parse o.parseOptions source = .error p) :
    compile resolver o source = .error (.parse p) := by
  unfold compile
  rw [hm, h]

/-- Where there is a tree to emit, a compilation that tolerates faults succeeds. Its result is that
of a strict compilation, or begins with the faults that end the strict one. -/
theorem compile_tolerated {nodes : List Node} (hm : o.emissionFault? = none)
    (hp : Template.parse o.parseOptions source = .ok nodes) :
    ∃ r, compile resolver { o with partialOutput := true } source = .ok r ∧
      ((compile resolver { o with partialOutput := false } source = .ok r ∧ r.errors = []) ∨
        ∃ ds, compile resolver { o with partialOutput := false } source = .error (.codegen ds) ∧
          ds ≠ [] ∧ ds <+: r.errors) := by
  have hm' (b : Bool) : ({ o with partialOutput := b } : CompileOptions).emissionFault? = none := hm
  have hp' (b : Bool) : Template.parse
      ({ o with partialOutput := b } : CompileOptions).parseOptions source = .ok nodes := hp
  obtain ⟨r, htolerant, hstrict⟩ :=
    emitOutput_tolerated resolver o (Template.annotate o.platform.capabilities nodes)
  unfold compile
  simp only [hm', hp', htolerant, Bool.not_true, Bool.and_false, Bool.false_eq_true, if_false,
    Bool.not_false, Bool.and_true, Bool.not_eq_true', List.isEmpty_eq_false_iff]
  refine ⟨_, rfl, ?_⟩
  by_cases he : (Template.annotate o.platform.capabilities nodes).report.errors = []
  · rw [if_neg (not_not_intro he), he]
    rcases hstrict with ⟨h, hr⟩ | ⟨d, h, hd⟩
    · rw [h]
      exact .inl ⟨rfl, hr⟩
    · rw [h]
      exact .inr ⟨[d], rfl, List.cons_ne_nil _ _, hd⟩
  · rw [if_pos he]
    exact .inr ⟨_, rfl, he, List.prefix_append _ _⟩

end Compile

/-- **Tolerance extends strictness.** A compilation that tolerates faults fails only if the form of
the output does not fit the platform or the text is no template, and then a strict one fails
likewise. If a strict compilation succeeds, a tolerant one gives the same result and has tolerated
nothing. Otherwise the faults that end the strict one are the first that the tolerant one notes. -/
theorem compile_partialOutput (resolver : Resolver) (o : CompileOptions) (source : String) :
    let strict := compile resolver { o with partialOutput := false } source
    let tolerant := compile resolver { o with partialOutput := true } source
    (∀ e, tolerant = .error e → strict = .error e ∧
      ((∃ d, o.emissionFault? = some d ∧ e = .codegen [d]) ∨
        ∃ p, Template.parse o.parseOptions source = .error p ∧ e = .parse p)) ∧
    (∀ r, strict = .ok r → tolerant = .ok r ∧ r.errors = []) ∧
    ∀ ds, o.emissionFault? = none → strict = .error (.codegen ds) →
      ∃ r, tolerant = .ok r ∧ ds ≠ [] ∧ ds <+: r.errors := by
  intro strict tolerant
  cases hm : o.emissionFault? with
  | some d =>
    have hs : strict = .error (.codegen [d]) := compile_of_emissionFault resolver hm
    have ht : tolerant = .error (.codegen [d]) := compile_of_emissionFault resolver hm
    rw [hs, ht]
    refine ⟨?_, fun r hr => (nomatch hr), fun ds hn => (nomatch hn)⟩
    rintro e ⟨⟩
    exact ⟨rfl, .inl ⟨d, rfl, rfl⟩⟩
  | none =>
    cases hp : Template.parse o.parseOptions source with
    | error p =>
      have hs : strict = .error (.parse p) := compile_of_parseError resolver hm hp
      have ht : tolerant = .error (.parse p) := compile_of_parseError resolver hm hp
      rw [hs, ht]
      refine ⟨?_, fun r hr => (nomatch hr), fun ds _ hd => (nomatch hd)⟩
      rintro e ⟨⟩
      exact ⟨rfl, .inr ⟨p, rfl, rfl⟩⟩
    | ok nodes =>
      obtain ⟨r, (ht : tolerant = _), ⟨(hs : strict = _), hr⟩ | ⟨ds, (hs : strict = _), hne, hd⟩⟩ :=
        compile_tolerated resolver hm hp
      · rw [hs, ht]
        refine ⟨fun e he => (nomatch he), ?_, fun ds _ hd => (nomatch hd)⟩
        rintro r' ⟨⟩
        exact ⟨rfl, hr⟩
      · rw [hs, ht]
        refine ⟨fun e he => (nomatch he), fun r hr => (nomatch hr), ?_⟩
        rintro ds' - ⟨⟩
        exact ⟨r, rfl, hne, hd⟩

/-- The error of an unknown directive, which a tolerant run gives along with its output. -/
theorem compile_partialOutput_unknownDirective :
    let d : Diagnostic := ⟨.unsupportedDirective "v-x", [0], ⟨1, 4, 3⟩⟩
    compile Resolver.none {} "<a v-x/>" = .error (.codegen [d]) ∧
      ∃ r, compile Resolver.none { partialOutput := true } "<a v-x/>" = .ok r ∧ [d] <+: r.errors := by
  intro d
  have hpieces : pieces ⟨0, "<a v-x/>".toList⟩ =
      ([.openTag "a" [⟨"v-x", none, 3, 6⟩] true 0], none) :=
    pieces_eq_singleton 8 (by simp) (by cbv)
  have hstrict : compile Resolver.none {} "<a v-x/>" = .error (.codegen [d]) := by
    unfold compile Template.parse Template.read Raw.read
    rw [hpieces]
    rfl
  obtain ⟨r, hr, -, hd⟩ :=
    (compile_partialOutput Resolver.none {} "<a v-x/>").2.2 [d] rfl hstrict
  exact ⟨hstrict, r, hr, hd⟩

end UiTemplate
