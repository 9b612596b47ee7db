import UiTemplate.Code.Name
import UiTemplate.Platform

/-!
# Components

Tags that the platform does not offer stand for components. A table says where some of them come
from; all others are looked up while rendering.
-/

namespace UiTemplate

/-- A component that a module exports, maybe inside a namespace. -/
structure ResolvedComponent where
  identifier : String
  sourceModule : String
  space : Option String
  deriving DecidableEq, Repr

/-- An entry of a component table. -/
inductive ComponentEntry where
  | resolved (component : ResolvedComponent)
  | file (path : String)
  deriving DecidableEq, Repr

namespace ComponentEntry

/-- The entry of a tag. -/
def lookup (tag : String) : List (String × ComponentEntry) → Option ComponentEntry
  | [] => none
  | (t, e) :: rest => if t = tag then some e else lookup tag rest

/-- Sets the entry of a tag among entries in ascending order of their tags. -/
def insert (tag : String) (entry : ComponentEntry) :
    List (String × ComponentEntry) → List (String × ComponentEntry)
  | [] => [(tag, entry)]
  | (t, e) :: rest =>
    if tag < t then (tag, entry) :: (t, e) :: rest
    else if tag = t then (tag, entry) :: rest
    else (t, e) :: insert tag entry rest

/-- The tags are in ascending order, one entry a tag. -/
def AreOrdered (entries : List (String × ComponentEntry)) : Prop :=
  entries.Pairwise fun a b => a.1 < b.1

theorem mem_insert {tag : String} {entry : ComponentEntry}
    {entries : List (String × ComponentEntry)} {e : String × ComponentEntry}
    (h : e ∈ insert tag entry entries) : e = (tag, entry) ∨ e ∈ entries := by
  induction entries with
  | nil => exact .inl (List.mem_singleton.mp h)
  | cons first entries ih =>
    rw [insert] at h
    split at h
    · exact List.mem_cons.mp h
    · split at h
      · exact (List.mem_cons.mp h).imp id (List.mem_cons_of_mem _)
      · rcases List.mem_cons.mp h with h | h
        · exact .inr (h ▸ List.mem_cons_self)
        · exact (ih h).imp id (List.mem_cons_of_mem _)

theorem AreOrdered.insert {entries : List (String × ComponentEntry)} (h : AreOrdered entries)
    (tag : String) (entry : ComponentEntry) : AreOrdered (insert tag entry entries) := by
  induction entries with
  | nil => exact List.pairwise_singleton ..
  | cons first entries ih =>
    obtain ⟨hfirst, hentries⟩ := List.pairwise_cons.mp h
    rw [ComponentEntry.insert]
    split
    · rename_i hlt
      refine List.pairwise_cons.mpr ⟨List.forall_mem_cons.mpr ⟨hlt, fun e he => ?_⟩, h⟩
      exact String.lt_trans hlt (hfirst e he)
    · rename_i hle
      split
      · rename_i heq
        exact List.pairwise_cons.mpr ⟨heq ▸ hfirst, hentries⟩
      · rename_i hne
        refine List.pairwise_cons.mpr ⟨fun e he => ?_, ih hentries⟩
        rcases mem_insert he with rfl | he
        · exact Std.lt_of_le_of_ne (String.not_lt.mp hle) (Ne.symm hne)
        · exact hfirst e he

end ComponentEntry

/-- Where components come from, by their tags, which are in ascending order. -/
structure ComponentTable where
  entries : List (String × ComponentEntry)
  isOrdered : ComponentEntry.AreOrdered entries
  deriving DecidableEq, Repr

namespace ComponentTable

/-- The table without entries. -/
def empty : ComponentTable :=
  ⟨[], List.Pairwise.nil⟩

/-- The entry of a tag. -/
def get? (tag : String) (table : ComponentTable) : Option ComponentEntry :=
  ComponentEntry.lookup tag table.entries

/-- Sets the entry of a tag. -/
def insert (tag : String) (entry : ComponentEntry) (table : ComponentTable) : ComponentTable where
  entries := ComponentEntry.insert tag entry table.entries
  isOrdered := table.isOrdered.insert tag entry

/-- The table of entries, of which a later one replaces an earlier one of its tag. -/
def ofList (entries : List (String × ComponentEntry)) : ComponentTable :=
  entries.foldl (fun table e => insert e.1 e.2 table) empty

end ComponentTable

/-- Where a component comes from: a module, a file of its own, or a look-up while rendering. -/
inductive ComponentSource where
  | resolved (component : ResolvedComponent)
  | file (path : String)
  | runtime
  deriving DecidableEq, Repr

/-- Says where the component of a tag comes from. -/
abbrev Resolver := String → ComponentSource

namespace Resolver

/-- Leaves every component to the runtime. -/
def none : Resolver := fun _ => .runtime

/-- Looks components up in a table, and leaves those without an entry to the runtime. -/
def ofTable (table : ComponentTable) : Resolver := fun tag =>
  match table.get? tag with
  | some (.resolved c) => .resolved c
  | some (.file path) => .file path
  | Option.none => .runtime

end Resolver

/-- A component that a unit uses. -/
structure ComponentRef where
  tag : String
  source : ComponentSource
  deriving DecidableEq, Repr

namespace ComponentRef

/-- The constant that holds the component. -/
def variableName (c : ComponentRef) : String :=
  "_component_" ++ Code.identifier c.tag

/-- The name under which the file of a component is imported. -/
def importName (c : ComponentRef) : String :=
  "_easycom_" ++ Code.identifier c.tag

/-- The line that imports the component, if it is imported. In typed code a component inside a
namespace is not. -/
def importLine (c : ComponentRef) (platform : Platform) : Option String :=
  match c.source with
  | .resolved r =>
    if r.space.isNone || !platform.isTyped then
      some ("import \x7b " ++ r.identifier ++ " \x7d from '" ++ r.sourceModule ++ "'")
    else none
  | .file path => some ("import " ++ c.importName ++ " from '" ++ path ++ "'")
  | .runtime => none

/-- The value of the constant. -/
def value (c : ComponentRef) (platform : Platform) : String :=
  match c.source with
  | .resolved r =>
    if platform.isTyped then
      match r.space with
      | some space => space ++ "." ++ r.identifier ++ ".name"
      | none => r.identifier ++ ".name"
    else r.identifier
  | .file _ => "resolveEasyComponent(\"" ++ c.tag ++ "\"," ++ c.importName ++ ")"
  | .runtime => "resolveComponent(\"" ++ c.tag ++ "\")"

/-- The declaration of the constant. -/
def declaration (c : ComponentRef) (platform : Platform) : String :=
  "const " ++ c.variableName ++ " = " ++ c.value platform

end ComponentRef

end UiTemplate
