import Mathlib.Data.List.Nodup
import Mathlib.Data.List.Pairwise
import UiTemplate.Backend.Calls
import UiTemplate.Proofs.Outlet.Identity
import UiTemplate.Proofs.Rendering.Aliases

/-!
# The names of a module

A unit is written as a module whose statements bind names: imports and hoisted constants outside the
render function, constants for components inside it.

- `RenderUnit.importLines_eq`: the lines of the module are the texts of these statements.
- `RenderUnit.WellNamed`: what an emission keeps of the names.
- `RenderUnit.WellNamed.constants_nodup_iff`, `module_nodup_iff`: when no name is bound twice.
-/

namespace UiTemplate

/-! ## Statements that bind names -/

/-- A name that is imported, under its own name or another. -/
structure Specifier where
  name : String
  shortName? : Option String := none

def Specifier.text (s : Specifier) : String :=
  match s.shortName? with
  | none => s.name
  | some shortName => s.name ++ " as " ++ shortName

/-- A statement that binds names. -/
inductive Statement where
  | imports (specifiers : List Specifier) (source : String)
  | importDefault (name source : String)
  | constant (name value : String)

namespace Statement

def text : Statement → String
  | imports specifiers source =>
    "import \x7b " ++ ", ".intercalate (specifiers.map Specifier.text) ++ " \x7d from " ++ source
  | importDefault name source => "import " ++ name ++ " from " ++ source
  | constant name value => "const " ++ name ++ " = " ++ value

/-- The names that the statement binds. -/
def names : Statement → List String
  | imports specifiers _ => specifiers.map fun s => s.shortName?.getD s.name
  | importDefault name _ => [name]
  | constant name _ => [name]

end Statement

/-! ## The import of helpers -/

namespace Helper

/-- The import of helpers, each under its short name. -/
def imports (helpers : List Helper) (runtime : String) : List Statement :=
  if helpers.isEmpty then []
  else [.imports (helpers.map fun h => ⟨h.name, some h.shortName⟩) (Code.literal runtime ++ ";")]

theorem importStatement_eq (helpers : List Helper) (runtime : String) :
    (importStatement helpers runtime).toList = (imports helpers runtime).map Statement.text := by
  unfold importStatement imports
  split
  · rfl
  · simp [Statement.text, Specifier.text, Function.comp_def, String.append_assoc]

/-- The helpers are bound by the names that emitted code calls them by. -/
theorem names_imports (helpers : List Helper) (runtime : String) :
    (imports helpers runtime).flatMap Statement.names = helpers.map shortName := by
  unfold imports
  split
  · rename_i hempty
    rw [List.isEmpty_iff.mp hempty]
    rfl
  · rw [List.flatMap_singleton, Statement.names, List.map_map]
    rfl

end Helper

/-! ## The statements of a unit -/

/-- The name that a component is imported under as the resolver says it. -/
def ComponentSource.imported? (platform : Platform) : ComponentSource → Option String
  | .resolved r => if r.space.isNone || !platform.isTyped then some r.identifier else none
  | _ => none

/-- Whether a component is a file of its own. -/
def ComponentSource.IsFile : ComponentSource → Prop
  | .file _ => True
  | _ => False

theorem ComponentSource.IsFile.imported?_eq_none {source : ComponentSource} (h : source.IsFile)
    (platform : Platform) : source.imported? platform = none := by
  cases source with
  | file path => rfl
  | _ => exact h.elim

namespace ComponentRef

/-- The statement that imports the component. -/
def importStatement? (c : ComponentRef) (platform : Platform) : Option Statement :=
  match c.source with
  | .resolved r =>
    if r.space.isNone || !platform.isTyped then
      some (.imports [⟨r.identifier, none⟩] ("'" ++ r.sourceModule ++ "'"))
    else none
  | .file path => some (.importDefault c.importName ("'" ++ path ++ "'"))
  | .runtime => none

/-- The name that the import of the component binds. -/
def importedName? (c : ComponentRef) (platform : Platform) : Option String :=
  match c.source with
  | .file _ => some c.importName
  | source => source.imported? platform

theorem importLine_eq (c : ComponentRef) (platform : Platform) :
    c.importLine platform = (c.importStatement? platform).map Statement.text := by
  have hnamed : " \x7d from '" = " \x7d from " ++ "'" := by decide
  have hdefault : " from '" = " from " ++ "'" := by decide
  unfold importLine importStatement?
  cases c.source with
  | resolved r =>
    dsimp only
    rw [hnamed]
    split
    · simp [Statement.text, Specifier.text, String.append_assoc, -String.reduceAppend]
    · rfl
  | file path =>
    dsimp only
    rw [hdefault]
    simp [Statement.text, String.append_assoc, -String.reduceAppend]
  | runtime => rfl

/-- The import of a component binds one name. -/
theorem names_importStatement? (c : ComponentRef) (platform : Platform) :
    (c.importStatement? platform).toList.flatMap Statement.names =
      (c.importedName? platform).toList := by
  unfold importStatement? importedName?
  cases c.source with
  | resolved r =>
    dsimp only [ComponentSource.imported?]
    split <;> rfl
  | _ => rfl

theorem importedName?_eq_some {c : ComponentRef} {platform : Platform} {name : String} :
    c.importedName? platform = some name ↔
      c.source.imported? platform = some name ∨ c.source.IsFile ∧ name = c.importName := by
  unfold importedName?
  cases c.source with
  | resolved r => simp [ComponentSource.IsFile]
  | file path => simp [ComponentSource.IsFile, ComponentSource.imported?, eq_comm]
  | runtime => simp [ComponentSource.IsFile]

theorem importedName?_of_imported? {c : ComponentRef} {platform : Platform} {name : String}
    (h : c.source.imported? platform = some name) : c.importedName? platform = some name :=
  importedName?_eq_some.mpr (.inl h)

theorem importedName?_of_isFile {c : ComponentRef} (h : c.source.IsFile) (platform : Platform) :
    c.importedName? platform = some c.importName :=
  importedName?_eq_some.mpr (.inr ⟨h, rfl⟩)

end ComponentRef

/-- The constants that hold hoisted nodes. -/
def hoistedConstants (values : List String) : List Statement :=
  values.mapIdx fun i value => .constant ("_hoisted_" ++ Decimal.natText (i + 1)) value

/-- The names that statements bind. -/
def Statement.namesOf (ss : List Statement) : List String :=
  ss.flatMap Statement.names

@[simp]
theorem Statement.namesOf_append (ss ss' : List Statement) :
    namesOf (ss ++ ss') = namesOf ss ++ namesOf ss' :=
  List.flatMap_append

namespace RenderUnit

/-- The import of constructors, which typed code knows without. -/
def constructorImports (u : RenderUnit) (o : CompileOptions) : List Statement :=
  if !o.platform.isTyped && !u.imports.isEmpty then
    [.imports (u.imports.map fun name => ⟨name, none⟩) ("\"" ++ o.vnodeModule ++ "\";")]
  else []

/-- The import of helpers, each under its short name. -/
def helperImports (u : RenderUnit) (o : CompileOptions) : List Statement :=
  Helper.imports u.helpers.toList o.runtimeModule

def runtimeImports (u : RenderUnit) (o : CompileOptions) : List Statement :=
  u.constructorImports o ++ u.helperImports o

/-- The imports of components. -/
def componentImports (u : RenderUnit) (o : CompileOptions) : List Statement :=
  u.components.filterMap fun c => c.importStatement? o.platform

/-- The constants of the render function. -/
def constants (u : RenderUnit) (o : CompileOptions) : List Statement :=
  u.components.map fun c => .constant c.variableName (c.value o.platform)

/-- The lines that import are the texts of the imports. -/
theorem importLines_eq (u : RenderUnit) (o : CompileOptions) :
    u.importLines o = (u.runtimeImports o ++ u.componentImports o).map Statement.text := by
  have hsource : " \x7d from \"" = " \x7d from " ++ "\"" := by decide
  have hplain : (u.imports.map fun name => Specifier.text ⟨name, none⟩) = u.imports :=
    List.map_id u.imports
  have hcomponents : (u.componentImports o).map Statement.text =
      u.components.filterMap fun c => c.importLine o.platform := by
    simp only [componentImports, List.map_filterMap, ComponentRef.importLine_eq]
  have hconstructors : (if !o.platform.isTyped && !u.imports.isEmpty then
        ["import \x7b " ++ ", ".intercalate u.imports ++ " \x7d from \"" ++ o.vnodeModule ++ "\";"]
      else []) = (u.constructorImports o).map Statement.text := by
    unfold constructorImports
    rw [hsource]
    split
    · simp [Statement.text, Function.comp_def, hplain, String.append_assoc, -String.reduceAppend]
    · rfl
  have hhelpers : (Helper.importStatement u.helpers.toList o.runtimeModule).toList =
      (u.helperImports o).map Statement.text :=
    Helper.importStatement_eq u.helpers.toList o.runtimeModule
  rw [runtimeImports, List.map_append, List.map_append, ← hconstructors, ← hhelpers, hcomponents]
  rfl

theorem constants_text (u : RenderUnit) (o : CompileOptions) :
    (u.constants o).map Statement.text = u.components.map fun c => c.declaration o.platform := by
  rw [constants, List.map_map]
  rfl

/-- The statements of the module outside the render function. -/
def moduleStatements (u : RenderUnit) (o : CompileOptions) (values : List String) :
    List Statement :=
  u.runtimeImports o ++ u.componentImports o ++ hoistedConstants values

end RenderUnit

/-! ## Names that are chosen here -/

open Statement (namesOf)

theorem hoistedConstants_concat (values : List String) (value : String) :
    hoistedConstants (values ++ [value]) = hoistedConstants values ++
      [.constant ("_hoisted_" ++ Decimal.natText (values.length + 1)) value] :=
  List.mapIdx_concat

theorem hoistedConstants_names (values : List String) :
    namesOf (hoistedConstants values) =
      (List.range values.length).map fun i => "_hoisted_" ++ Decimal.natText (i + 1) := by
  induction values using List.reverseRecOn with
  | nil => rfl
  | append_singleton values value ih =>
    rw [hoistedConstants_concat, Statement.namesOf_append, ih, List.length_append, List.length_singleton,
      List.range_succ, List.map_append]
    rfl

theorem hoistedConstants_names_nodup (values : List String) :
    (namesOf (hoistedConstants values)).Nodup := by
  rw [hoistedConstants_names]
  refine List.nodup_range.map fun i j h => ?_
  have htext := (String.append_right_inj _).mp h
  have hdigits := Helper.toDigits_injective (String.ofList_injective htext)
  omega

/-- Short names and the names of hoisted constants differ. -/
theorem Helper.shortName_notMem_hoisted (h : Helper) (values : List String) :
    h.shortName ∉ namesOf (hoistedConstants values) := by
  rw [hoistedConstants_names]
  intro hmem
  obtain ⟨i, -, hi⟩ := List.mem_map.mp hmem
  have hchars := congrArg String.toList hi
  rw [String.toList_append] at hchars
  cases h <;> simp [Helper.shortName, Helper.abi] at hchars

/-- The resolver gives components names that differ from each other and from the names `own`. -/
structure Resolver.KeepsApart (resolver : Resolver) (platform : Platform)
    (tags own : List String) : Prop where
  /-- The tags of files are different identifiers. -/
  files : ∀ t ∈ tags, ∀ t' ∈ tags, (resolver t).IsFile → (resolver t').IsFile →
    Code.identifier t = Code.identifier t' → t = t'
  identifiers : ∀ t ∈ tags, ∀ t' ∈ tags, ∀ name, (resolver t).imported? platform = some name →
    (resolver t').imported? platform = some name → t = t'
  /-- An identifier of the resolver is neither among `own` nor the name of a file. -/
  fresh : ∀ t ∈ tags, ∀ name, (resolver t).imported? platform = some name → name ∉ own ∧
    ∀ t' ∈ tags, (resolver t').IsFile → name ≠ "_easycom_" ++ Code.identifier t'

/-- Fewer components are kept apart as well. -/
theorem Resolver.KeepsApart.mono {resolver : Resolver} {platform : Platform}
    {tags tags' own : List String} (h : resolver.KeepsApart platform tags own)
    (hsub : tags' ⊆ tags) : resolver.KeepsApart platform tags' own where
  files t ht t' ht' := h.files t (hsub ht) t' (hsub ht')
  identifiers t ht t' ht' := h.identifiers t (hsub ht) t' (hsub ht')
  fresh t ht name hname :=
    (h.fresh t (hsub ht) name hname).imp id fun hfiles t' ht' => hfiles t' (hsub ht')

theorem nodup_filterMap_iff {α β : Type} {f : α → Option β} {l : List α} (hl : l.Nodup) :
    (l.filterMap f).Nodup ↔ ∀ x ∈ l, ∀ y ∈ l, ∀ b, f x = some b → f y = some b → x = y := by
  rw [List.nodup_iff_pairwise_ne, List.pairwise_filterMap]
  constructor
  · intro h x hx y hy b hxb hyb
    by_contra hne
    have hsymm : Std.Symm fun x y => ∀ b, f x = some b → ∀ b', f y = some b' → b ≠ b' :=
      ⟨fun x y hxy b hb b' hb' heq => hxy b' hb' b hb heq.symm⟩
    exact h.forall hx hy hne b hxb b hyb rfl
  · intro h
    refine hl.imp_of_mem fun hx hy hne b hb b' hb' heq => hne ?_
    exact h _ hx _ hy b hb (heq ▸ hb')

namespace RenderUnit

/-- What an emission keeps of the names of a unit. -/
structure WellNamed (resolver : Resolver) (u : RenderUnit) : Prop where
  /-- A tag has one component. -/
  tags : (u.components.map ComponentRef.tag).Nodup
  sources : ∀ c ∈ u.components, c.source = resolver c.tag
  ascending : u.imports.Pairwise (· < ·)
  /-- Constructors have names without an underscore. -/
  plain : ∀ name ∈ u.imports, '_' ∉ name.toList
  hoisted : ∃ values, u.hoisted = (hoistedConstants values).map Statement.text

theorem runtimeImports_names (u : RenderUnit) (o : CompileOptions) :
    namesOf (u.runtimeImports o) =
      (if o.platform.isTyped then [] else u.imports) ++ u.helpers.toList.map Helper.shortName := by
  have hconstructors : namesOf (u.constructorImports o) =
      if o.platform.isTyped then [] else u.imports := by
    unfold constructorImports
    cases o.platform.isTyped <;> cases h : u.imports <;>
      simp [namesOf, Statement.names, Function.comp_def]
  have hhelpers : namesOf (u.helperImports o) = u.helpers.toList.map Helper.shortName :=
    Helper.names_imports u.helpers.toList o.runtimeModule
  rw [runtimeImports, Statement.namesOf_append, hconstructors, hhelpers]

theorem componentImports_names (u : RenderUnit) (o : CompileOptions) :
    namesOf (u.componentImports o) =
      u.components.filterMap fun c => c.importedName? o.platform := by
  unfold namesOf componentImports
  induction u.components with
  | nil => rfl
  | cons c cs ih =>
    have hc := c.names_importStatement? o.platform
    rw [List.filterMap_cons, List.filterMap_cons, ← ih]
    cases hi : c.importStatement? o.platform <;> cases hn : c.importedName? o.platform <;>
      simp_all

/-- The names in a unit that come neither from a tag nor from the resolver. -/
def ownNames (u : RenderUnit) (o : CompileOptions) (values : List String) : List String :=
  namesOf (u.runtimeImports o ++ hoistedConstants values)

namespace WellNamed

variable {resolver : Resolver} {u : RenderUnit} (h : u.WellNamed resolver) (o : CompileOptions)
  (values : List String)
include h

theorem imports_nodup : u.imports.Nodup :=
  h.ascending.imp fun {_ _} hlt => String.ne_of_lt hlt

/-- The names that come neither from a tag nor from the resolver are all different. -/
theorem ownNames_nodup : (u.ownNames o values).Nodup := by
  have hconstructors : (if o.platform.isTyped then [] else u.imports).Nodup := by
    split
    · exact List.nodup_nil
    · exact h.imports_nodup
  have hhelpers : (u.helpers.toList.map Helper.shortName).Nodup := by
    have hall : (Helper.all.map Helper.shortName).Nodup := by decide
    exact hall.sublist (List.filter_sublist.map _)
  have hplain : ∀ name ∈ (if o.platform.isTyped then [] else u.imports), '_' ∉ name.toList := by
    split
    · exact fun name hname => absurd hname List.not_mem_nil
    · exact h.plain
  have hruntime : (namesOf (u.runtimeImports o)).Nodup := by
    rw [runtimeImports_names]
    refine List.nodup_append.mpr ⟨hconstructors, hhelpers, fun name hname short hshort heq => ?_⟩
    obtain ⟨k, -, rfl⟩ := List.mem_map.mp hshort
    exact hplain name hname (heq ▸ k.underscore_mem_shortName)
  rw [ownNames, Statement.namesOf_append]
  refine List.nodup_append.mpr ⟨hruntime, hoistedConstants_names_nodup values,
    fun name hname constant hconstant heq => ?_⟩
  rw [runtimeImports_names] at hname
  rcases List.mem_append.mp hname with hname | hname
  · rw [hoistedConstants_names] at hconstant
    obtain ⟨i, -, rfl⟩ := List.mem_map.mp hconstant
    exact hplain name hname (by simp [heq])
  · obtain ⟨k, -, rfl⟩ := List.mem_map.mp hname
    exact k.shortName_notMem_hoisted values (heq ▸ hconstant)

/-- The name of a file is none of these. -/
theorem importName_notMem_ownNames (c : ComponentRef) : c.importName ∉ u.ownNames o values := by
  intro hmem
  rw [ownNames, Statement.namesOf_append, runtimeImports_names, hoistedConstants_names] at hmem
  rcases List.mem_append.mp hmem with hmem | hmem
  · rcases List.mem_append.mp hmem with hmem | hmem
    · split at hmem
      · cases hmem
      · exact h.plain _ hmem (by simp [ComponentRef.importName])
    · obtain ⟨k, -, hk⟩ := List.mem_map.mp hmem
      have hchars := congrArg String.toList hk
      rw [ComponentRef.importName, String.toList_append] at hchars
      cases k <;> simp [Helper.shortName, Helper.abi] at hchars
  · obtain ⟨i, -, hi⟩ := List.mem_map.mp hmem
    have hchars := congrArg String.toList hi
    rw [ComponentRef.importName, String.toList_append, String.toList_append] at hchars
    simp at hchars

/-- The component of a tag of the unit. -/
theorem tag_inj {c c' : ComponentRef} (hc : c ∈ u.components) (hc' : c' ∈ u.components) :
    c.tag = c'.tag ↔ c = c' := by
  refine ⟨fun htag => ?_, congrArg _⟩
  exact List.inj_on_of_nodup_map h.tags hc hc' htag

/-- The constants of the render function are all different exactly if the tags of the components are
different identifiers. -/
theorem constants_nodup_iff :
    (namesOf (u.constants o)).Nodup ↔
      ∀ t ∈ u.components.map ComponentRef.tag, ∀ t' ∈ u.components.map ComponentRef.tag,
        Code.identifier t = Code.identifier t' → t = t' := by
  have hnames : namesOf (u.constants o) = u.components.map ComponentRef.variableName := by
    rw [namesOf, constants, List.flatMap_map, List.map_eq_flatMap]
    rfl
  rw [hnames, List.nodup_map_iff_inj_on h.tags.of_map]
  simp only [List.forall_mem_map, ComponentRef.variableName, String.append_right_inj]
  refine forall₂_congr fun c hc => forall₂_congr fun c' hc' => imp_congr_right fun _ => ?_
  exact (h.tag_inj hc hc').symm

/-- The names of the imports of components are all different exactly if none is the name of two
tags. -/
theorem componentImports_nodup_iff :
    (namesOf (u.componentImports o)).Nodup ↔
      ∀ c ∈ u.components, ∀ c' ∈ u.components, ∀ name,
        c.importedName? o.platform = some name → c'.importedName? o.platform = some name →
        c.tag = c'.tag := by
  rw [componentImports_names, nodup_filterMap_iff h.tags.of_map]
  refine forall₂_congr fun c hc => forall₂_congr fun c' hc' => forall_congr' fun name =>
    imp_congr_right fun _ => imp_congr_right fun _ => ?_
  exact (h.tag_inj hc hc').symm

/-- No import of a component binds one of the other names exactly if no identifier of the resolver is
one of them. -/
theorem componentImports_disjoint_iff :
    (namesOf (u.componentImports o)).Disjoint (u.ownNames o values) ↔
      ∀ c ∈ u.components, ∀ name, c.source.imported? o.platform = some name →
        name ∉ u.ownNames o values := by
  rw [componentImports_names]
  constructor
  · intro hd c hc name hname
    exact hd (List.mem_filterMap.mpr ⟨c, hc, ComponentRef.importedName?_of_imported? hname⟩)
  · intro hfresh name hname
    obtain ⟨c, hc, hn⟩ := List.mem_filterMap.mp hname
    rcases ComponentRef.importedName?_eq_some.mp hn with hn | ⟨-, rfl⟩
    · exact hfresh c hc name hn
    · exact h.importName_notMem_ownNames o values c

/-- What keeps components apart, said of the components of the unit. -/
theorem keepsApart_iff (own : List String) :
    ((∀ c ∈ u.components, ∀ c' ∈ u.components, ∀ name,
        c.importedName? o.platform = some name → c'.importedName? o.platform = some name →
        c.tag = c'.tag) ∧
      ∀ c ∈ u.components, ∀ name, c.source.imported? o.platform = some name → name ∉ own) ↔
    resolver.KeepsApart o.platform (u.components.map ComponentRef.tag) own := by
  have hsource {c : ComponentRef} (hc : c ∈ u.components) : resolver c.tag = c.source :=
    (h.sources c hc).symm
  constructor
  · rintro ⟨hdistinct, hfresh⟩
    constructor <;> simp only [List.forall_mem_map]
    · intro c hc c' hc' hf hf' hid
      rw [hsource hc] at hf
      rw [hsource hc'] at hf'
      have hname : c'.importName = c.importName := by
        rw [ComponentRef.importName, ComponentRef.importName, hid]
      exact hdistinct c hc c' hc' _ (ComponentRef.importedName?_of_isFile hf _)
        (hname ▸ ComponentRef.importedName?_of_isFile hf' _)
    · intro c hc c' hc' name hn hn'
      rw [hsource hc] at hn
      rw [hsource hc'] at hn'
      exact hdistinct c hc c' hc' name (ComponentRef.importedName?_of_imported? hn)
        (ComponentRef.importedName?_of_imported? hn')
    · intro c hc name hn
      rw [hsource hc] at hn
      refine ⟨hfresh c hc name hn, fun c' hc' hf' heq => ?_⟩
      rw [hsource hc'] at hf'
      -- The two would be one component, which is not both a file and named by the resolver.
      have hname : c'.importedName? o.platform = some name :=
        heq ▸ ComponentRef.importedName?_of_isFile hf' _
      obtain rfl := (h.tag_inj hc hc').mp
        (hdistinct c hc c' hc' name (ComponentRef.importedName?_of_imported? hn) hname)
      rw [hf'.imported?_eq_none] at hn
      cases hn
  · intro hapart
    have hresolved {c : ComponentRef} (hc : c ∈ u.components) {name : String}
        (hn : c.source.imported? o.platform = some name) :=
      hapart.fresh _ (List.mem_map_of_mem hc) name (hsource hc ▸ hn)
    refine ⟨fun c hc c' hc' name hn hn' => ?_, fun c hc name hn => (hresolved hc hn).1⟩
    -- Each of the two names is said by the resolver or made of the tag of a file.
    rcases ComponentRef.importedName?_eq_some.mp hn with hn | ⟨hf, hname⟩
    · rcases ComponentRef.importedName?_eq_some.mp hn' with hn' | ⟨hf', hname'⟩
      · exact hapart.identifiers _ (List.mem_map_of_mem hc) _ (List.mem_map_of_mem hc') name
          (hsource hc ▸ hn) (hsource hc' ▸ hn')
      · exact absurd hname'
          ((hresolved hc hn).2 _ (List.mem_map_of_mem hc') (hsource hc' ▸ hf'))
    · rcases ComponentRef.importedName?_eq_some.mp hn' with hn' | ⟨hf', hname'⟩
      · exact absurd hname ((hresolved hc' hn').2 _ (List.mem_map_of_mem hc) (hsource hc ▸ hf))
      · refine hapart.files _ (List.mem_map_of_mem hc) _ (List.mem_map_of_mem hc')
          (hsource hc ▸ hf) (hsource hc' ▸ hf') ?_
        exact (String.append_right_inj _).mp (hname.symm.trans hname')

/-- The names of the module are all different exactly if the resolver keeps the components apart. -/
theorem module_nodup_iff :
    (namesOf (u.moduleStatements o values)).Nodup ↔
      resolver.KeepsApart o.platform (u.components.map ComponentRef.tag) (u.ownNames o values) := by
  have hperm : (namesOf (u.moduleStatements o values)).Perm
      (namesOf (u.componentImports o) ++ u.ownNames o values) := by
    rw [moduleStatements, ownNames]
    simp only [Statement.namesOf_append]
    rw [← List.append_assoc]
    exact List.perm_append_comm.append_right _
  rw [hperm.nodup_iff, List.nodup_append', h.componentImports_nodup_iff,
    h.componentImports_disjoint_iff, and_iff_right (h.ownNames_nodup o values)]
  exact h.keepsApart_iff o _

end WellNamed

end RenderUnit

end UiTemplate
