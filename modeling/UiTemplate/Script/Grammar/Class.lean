import UiTemplate.Script.Grammar.Function

/-!
# Classes

Classes are read to tell whether a text is a script; a template contains none. Words in front of a
member modify it. Which of them go together, and in which order, is `Modifier.mayFollow`; which kind
of member they may stand before is decided where the member is read.
-/

namespace UiTemplate.Script

open Reader

/-! ## Decorators and modifiers -/

/-- Decorators, each a chain after an at sign; the result tells whether there are any. -/
def decorators (r : Rules) (ctx : Context) : Reader Bool :=
  repeatFrom false fun found => do
    if ← eat .atSign then
      let _ ← r.chain { ctx with decorator := true }
      return .inl true
    else return .inr found

/-- A word in front of a member of a class. -/
inductive Modifier where
  /-- Who may use the member; `hidden` for nobody outside the class. -/
  | access (hidden : Bool)
  | static
  | override
  | abstract
  | declare
  | readonly
  | async
  | accessor
  deriving DecidableEq, Repr

/-- The modifier that a word is. -/
def Modifier.ofWord? : String → Option Modifier
  | "public" => some (.access false)
  | "protected" => some (.access false)
  | "private" => some (.access true)
  | "static" => some .static
  | "override" => some .override
  | "abstract" => some .abstract
  | "declare" => some .declare
  | "readonly" => some .readonly
  | "async" => some .async
  | "accessor" => some .accessor
  | _ => none

/-- The modifiers that cannot stand before the given one. -/
def Modifier.excluded : Modifier → List Modifier
  | .access _ =>
    [.access false, .access true, .override, .static, .accessor, .readonly, .async, .abstract]
  | .static => [.static, .readonly, .async, .accessor, .override, .abstract]
  | .override => [.override, .declare, .readonly, .accessor, .async]
  | .abstract => [.abstract, .static, .access true, .async, .override, .accessor]
  | .declare => [.declare, .async, .override, .accessor]
  | .readonly => [.readonly, .accessor]
  | .async => [.async, .declare, .abstract]
  | .accessor => [.accessor, .readonly, .declare]

/-- Whether the modifier can stand after those. -/
def Modifier.mayFollow (m : Modifier) (before : List Modifier) : Bool :=
  !before.any m.excluded.contains

/-- Whether the modifier is about who may use the member. -/
def Modifier.isAccess : Modifier → Bool
  | .access _ => true
  | _ => false

/-- The modifier that begins here, because the rest of a member follows it. All but `static` are on
the line of what follows. -/
def modifier? (before : List Modifier) : Reader (Option Modifier) := do
  match ← token with
  | .word name false =>
    let after ← lookahead
    match Modifier.ofWord? name with
    | some .static =>
      return if (after.token.beginsKey || isPunct .star after.token) && !before.contains .static
        then some .static else none
    | some m =>
      return if (after.token.beginsKey || isPunct .star after.token) && !after.newline
        then some m else none
    | none => return none
  | _ => return none

/-- The modifiers before a member. -/
def modifiers : Reader (List Modifier) :=
  repeatFrom [] fun before => do
    match ← modifier? before with
    | some m =>
      require (m.mayFollow before)
      advance
      return .inl (m :: before)
    | none => return .inr before

/-! ## Members -/

/-- The name of a member: its text unless it is computed, and whether it is private. -/
structure MemberName where
  text : Option String
  isPrivate : Bool

/-- Whether the name is the given text. -/
def MemberName.is (n : MemberName) (text : String) : Bool :=
  !n.isPrivate && n.text == some text

/-- The name of a member with the given modifiers. -/
def memberName (r : Rules) (ctx : Context) (mods : List Modifier) : Reader MemberName := do
  match ← token with
  | .privateName name =>
    require (name != "constructor" && !mods.any Modifier.isAccess)
    advance
    return ⟨some name, true⟩
  | _ =>
    let (text, _) ← propertyKey r ctx fun _ => ""
    return ⟨text, false⟩

/-- A method from its parameters on. The constructor of a class is an ordinary function without
decorators. -/
def methodRest (r : Rules) (decorated generator : Bool) (mods : List Modifier) (name : MemberName) :
    Reader Unit := do
  let async := mods.contains .async
  if name.is "constructor" && !mods.contains .static then
    require (!decorated && !generator && mods.all Modifier.isAccess)
  else
    require !(mods.any [Modifier.readonly, .declare, .accessor].contains)
  let _ ← functionRest r async generator

/-- A property from the mark after its name on. -/
def propertyRest (r : Rules) (ctx : Context) (mods : List Modifier) (name : MemberName) :
    Reader Unit := do
  require (!mods.contains .async && !name.is "constructor")
  let _ ← eat .bang
  let _ ← optionalValue r { ctx.inner with await := false, yield := false }
  endStatement

/-- A member after its decorators and modifiers. -/
def memberRest (r : Rules) (ctx : Context) (decorated : Bool) (mods : List Modifier) :
    Reader Unit := do
  match ← accessor? with
  | some a =>
    advance
    let name ← memberName r ctx mods
    require !(mods.any [Modifier.async, .readonly, .declare, .accessor].contains)
    require (if mods.contains .static then !name.is "prototype" else !name.is "constructor")
    accessorRest r a
  | none =>
    let generator ← eat .star
    let name ← memberName r ctx mods
    require !(mods.contains .static && name.is "prototype")
    let _ ← eat .question
    if generator || (← at? .leftParen) then methodRest r decorated generator mods name
    else propertyRest r ctx mods name

/-- A member of a class. Statements after `static` wait for what they run over, and have nothing to
return. -/
def classMember (r : Rules) (ctx : Context) : Reader Unit := do
  let decorated ← decorators r ctx
  let mods ← modifiers
  if (← atWord "static") && isPunct .leftBrace (← lookahead).token then
    require (!decorated && mods.isEmpty)
    advance
    let _ ← block r { ctx with await := true, yield := false, body := false }
  else memberRest r ctx decorated mods

/-! ## Heads -/

/-- A name with dots in it. -/
def dottedName (ctx : Context) : Reader Unit := do
  match ← token with
  | .word name _ =>
    require (ctx.isName name || name == "this")
    advance
    repeatFrom () fun _ => do
      if ← eat .dot then
        match ← token with
        | .word .. =>
          advance
          return .inl ()
        | _ => fail
      else return .inr ()
  | _ => fail

/-- Names with dots in them, with commas between. -/
def dottedNames (ctx : Context) : Reader Unit :=
  repeatFrom () fun _ => do
    dottedName ctx
    if ← eat .comma then return .inl () else return .inr ()

/-- What a class extends and implements, each at most once and in this order. -/
def heritage (r : Rules) (ctx : Context) : Reader Unit := do
  if ← eatWord "extends" then
    let _ ← r.chain ctx
  if ← eatWord "implements" then
    dottedNames ctx

/-- A class after its keyword; the result is its name. -/
def classAfterKeyword (r : Rules) (ctx : Context) : Reader (Option String) := do
  let name? ← match ← token with
    | .word name _ =>
      if isBindingWord name && name != "implements" then do
        require (ctx.isName name)
        advance
        pure (some name)
      else pure none
    | _ => pure none
  heritage r ctx
  expect .leftBrace
  repeatFrom () fun _ => do
    if ← eat .rightBrace then return .inr ()
    else if ← eat .semicolon then return .inl ()
    else
      classMember r ctx
      return .inl ()
  return name?

end UiTemplate.Script
