/-!
# Platforms

Where a template runs. Two families of platforms differ in what is emitted for them: calls that
construct nodes, or markup with a mapping of bound values.
-/

namespace UiTemplate

/-- A platform that templates are compiled for. -/
inductive Platform where
  | web
  | android
  | ios
  | weixin
  | alipay
  deriving DecidableEq, Repr, Inhabited

/-- What is emitted: calls that construct nodes, or markup. -/
inductive Family where
  | calls
  | markup
  deriving DecidableEq, Repr, Inhabited

/-- The form of what is emitted: a render function, or markup beside the function that computes its
mapping. -/
inductive EmissionMode where
  | functionWrapped
  | standalonePair
  deriving DecidableEq, Repr, Inhabited

/-- How the mode is called in messages. -/
def EmissionMode.title : EmissionMode → String
  | functionWrapped => "FunctionWrapped"
  | standalonePair => "StandalonePair"

/-- The form that fits a family. -/
def Family.emissionMode : Family → EmissionMode
  | calls => .functionWrapped
  | markup => .standalonePair

/-- What a family can do: whether the runtime can tell if an outlet has content, whether keys are
numbered anew in every loop, and the name of the default outlet. -/
structure Capabilities where
  family : Family
  introspectsOutlets : Bool
  localKeys : Bool
  defaultOutlet : String
  deriving DecidableEq, Repr

/-- What the family can do. -/
def Family.capabilities : Family → Capabilities
  | calls => ⟨calls, true, false, "default"⟩
  | markup => ⟨markup, false, true, "d"⟩

namespace Platform

/-- All platforms. -/
def all : List Platform := [web, android, ios, weixin, alipay]

/-- The name of a platform. -/
def name : Platform → String
  | web => "web"
  | android => "android"
  | ios => "ios"
  | weixin => "weixin"
  | alipay => "alipay"

/-- The platform of a name. -/
def ofName? (name : String) : Option Platform :=
  all.find? fun p => p.name == name

/-- The family of a platform. -/
def family : Platform → Family
  | web | android | ios => .calls
  | weixin | alipay => .markup

/-- What the platform can do. -/
def capabilities (p : Platform) : Capabilities :=
  p.family.capabilities

/-- Whether the code for the platform has types. -/
def isTyped : Platform → Bool
  | android | ios => true
  | _ => false

end Platform

end UiTemplate
