import UiTemplate.Proofs.Compile.Success
import UiTemplate.Proofs.Hoisting.Calls

/-!
# Compilations that hoist

- `Template.generate_hoisted`: a template that was read becomes the same calls with static elements
  hoisted and without, but for their declarations and the names in their place.
-/

namespace UiTemplate

theorem Node.isPlain_strip (n : Node) : (n.strip SlotInfo.plain).IsPlain ↔ n.IsPlain := by
  cases n with
  | element info children => simp [Node.strip, Node.IsPlain]
  | _ => exact Iff.rfl

theorem Node.WellFormed.isSettled {depth : Nat} {role : Option ChainRole}
    {loop : Option (Expression × String × Option String)} {n : Node}
    (h : n.WellFormed depth role loop) : n.IsSettled :=
  ⟨h.isSingle, h.isOrdered, h.isStatic_iff.mp⟩

theorem Node.isSettled_strip (n : Node) : (n.strip SlotInfo.plain).IsSettled ↔ n.IsSettled := by
  have hstatic : (n.strip SlotInfo.plain).isStatic = n.isStatic := by cases n <;> rfl
  have hplain : (∀ m ∈ (n.strip SlotInfo.plain).within, m.IsPlain) ↔ ∀ m ∈ n.within, m.IsPlain := by
    rw [Node.within_strip, List.forall_mem_map]
    exact forall₂_congr fun m _ => m.isPlain_strip
  have hsingle := Node.isSingle_strip SlotInfo.plain n
  have hordered := Node.isOrdered_strip SlotInfo.plain n
  constructor
  · rintro ⟨hs, ho, hp⟩
    exact ⟨hsingle.mp hs, hordered.mp ho, fun h => hplain.mp (hp (hstatic.trans h))⟩
  · rintro ⟨hs, ho, hp⟩
    exact ⟨hsingle.mpr hs, hordered.mpr ho, fun h => hplain.mpr (hp (hstatic.symm.trans h))⟩

/-- **Hoisting preserves the program.** A strict emission of a template that was read fails with
static elements hoisted just if it fails without, and then with the same fault. If both succeed,
components, helpers and imports are the same. Hoisting declares each static element below the roots
that is in no other such element, one by one in the order of the document, and nothing it declares
refers to what the template computes or looks up. With the code of each, at the right level of
indentation and without the flag of hoisted nodes, in place of its name, the roots are the same. -/
theorem Template.generate_hoisted {options : ParseOptions} {source : String} {nodes : List Node}
    (h : Template.parse options source = .ok nodes) (capabilities : Capabilities)
    {settings : CallSettings} (ht : settings.tolerant = false) :
    Except.Agree
      (Calls.Hoisted settings.platform (Template.annotate capabilities nodes).nodes)
      (Calls.generate (settings.hoisting true) (Template.annotate capabilities nodes).nodes)
      (Calls.generate (settings.hoisting false) (Template.annotate capabilities nodes).nodes) := by
  refine Calls.generate_hoists settings ht ?_
  exact (Node.forall_within_of_stripAll_eq SlotInfo.plain Node.isSettled_strip
    (Template.annotate_strip capabilities nodes)).mpr
      (Template.parse_forall_within Node.WellFormed.isSettled h)

/-- A static element with something in it, and another one in a branch. -/
def twoStatic : String :=
  "<view :id=\"x\"><text a=\"b\"><view/>c</text><view v-if=\"y\"><text/></view></view>"

/-- The settings of a compilation with the options left as they are. -/
def plainSettings (nodes : List Node) : CallSettings :=
  ({} : CompileOptions).callSettings Resolver.none
    (Template.annotate Family.calls.capabilities nodes).context

/-- Two static elements become constants. What is within the first one stays in it. -/
theorem Template.generate_hoisted_twoStatic :
    ∃ nodes on off, Template.parse {} twoStatic = .ok nodes ∧
      Calls.generate ((plainSettings nodes).hoisting true)
        (Template.annotate Family.calls.capabilities nodes).nodes = .ok on ∧
      Calls.generate ((plainSettings nodes).hoisting false)
        (Template.annotate Family.calls.capabilities nodes).nodes = .ok off ∧
      on.1.hoisted =
        ["const _hoisted_1 = createElementVNode(\"text\", \x7b a: \"b\" \x7d, [\n" ++
            "  createElementVNode(\"view\"),\n  createTextVNode(\"c\")\n], -1 /* HOISTED */)",
          "const _hoisted_2 = createElementVNode(\"text\", null, null, -1 /* HOISTED */)"] ∧
      Calls.Hoisted .web (Template.annotate Family.calls.capabilities nodes).nodes on off := by
  have hfacts : ∃ nodes ∈ (Template.parse {} twoStatic).toOption,
      ∃ on ∈ (Calls.generate ((plainSettings nodes).hoisting true)
        (Template.annotate Family.calls.capabilities nodes).nodes).toOption,
      on.1.hoisted =
        ["const _hoisted_1 = createElementVNode(\"text\", \x7b a: \"b\" \x7d, [\n" ++
            "  createElementVNode(\"view\"),\n  createTextVNode(\"c\")\n], -1 /* HOISTED */)",
          "const _hoisted_2 = createElementVNode(\"text\", null, null, -1 /* HOISTED */)"] := by
    decide +kernel
  obtain ⟨nodes, hnodes, on, hon, hhoisted⟩ := hfacts
  have hnodes := Except.toOption_eq_some.mp hnodes
  have hon := Except.toOption_eq_some.mp hon
  have hagree := Template.generate_hoisted hnodes Family.calls.capabilities
    (show (plainSettings nodes).tolerant = false from rfl)
  rw [hon] at hagree
  cases hoff : Calls.generate ((plainSettings nodes).hoisting false)
      (Template.annotate Family.calls.capabilities nodes).nodes with
  | error d =>
    rw [hoff] at hagree
    cases hagree
  | ok off =>
    rw [hoff] at hagree
    cases hagree with
    | ok h => exact ⟨nodes, on, off, hnodes, hon, hoff, hhoisted, h⟩

end UiTemplate
