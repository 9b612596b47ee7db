import UiTemplate.Json.Printer

/-!
# Patch flags

What of a node can change from one rendering to the next, as a set of bits in a word. A hoisted node
never changes.
-/

namespace UiTemplate

/-- A set of changes. -/
abbrev PatchFlag := Int32

namespace PatchFlag

/-- The text. -/
def text : PatchFlag := 1

/-- The classes. -/
def classes : PatchFlag := 2

/-- The style. -/
def style : PatchFlag := 4

/-- Properties, which are listed beside the flag. -/
def props : PatchFlag := 8

/-- Nothing in the order of the children. -/
def stableFragment : PatchFlag := 64

/-- The order of children that have keys. -/
def keyedFragment : PatchFlag := 128

/-- The order of children without keys. -/
def unkeyedFragment : PatchFlag := 256

/-- Nothing at all, as the node is made once. -/
def hoisted : PatchFlag := -1

/-- The names of the bits. -/
def names : List (PatchFlag × String) :=
  [(text, "TEXT"), (classes, "CLASS"), (style, "STYLE"), (props, "PROPS"),
    (stableFragment, "STABLE_FRAGMENT"), (keyedFragment, "KEYED_FRAGMENT"),
    (unkeyedFragment, "UNKEYED_FRAGMENT")]

/-- The flag as code, with the names of its bits in a comment. -/
def render (flag : PatchFlag) : String :=
  if flag == hoisted then "-1 /* HOISTED */"
  else
    let set := names.filterMap fun (bit, name) => if flag &&& bit != 0 then some name else none
    Json.intText flag.toInt ++ " /* " ++ ", ".intercalate set ++ " */"

end PatchFlag

end UiTemplate
