import UiTemplate.Compile
import UiTemplate.Digest.Sha256
import UiTemplate.Options.Stored

/-!
# Caching results

A store of results by the digest of the template's text and the options. Whoever compiles asks it;
compiling itself does not.
-/

namespace UiTemplate

/-- The bytes of a text. -/
def utf8Bytes (s : String) : List UInt8 :=
  s.toList.flatMap String.utf8EncodeChar

/-- Results by their digests, one a digest. -/
structure CompileCache where
  entries : List (String × CompileResult) := []

namespace CompileCache

/-- What is digested: the text, a zero byte, and the stored options. -/
def keyBytes (source : String) (o : CompileOptions) : List UInt8 :=
  utf8Bytes source ++ 0 :: utf8Bytes o.text

/-- The digest that a result is stored under. -/
def keyOf (source : String) (o : CompileOptions) : String :=
  Sha256.digest (keyBytes source o)

/-- The result for a text and options. -/
def get? (cache : CompileCache) (source : String) (o : CompileOptions) : Option CompileResult :=
  (cache.entries.find? fun e => e.1 == keyOf source o).map Prod.snd

/-- Stores the result for a text and options in place of an earlier one. -/
def set (cache : CompileCache) (source : String) (o : CompileOptions) (result : CompileResult) :
    CompileCache :=
  let key := keyOf source o
  ⟨(key, result) :: cache.entries.filter fun e => e.1 != key⟩

/-- The number of results. -/
def size (cache : CompileCache) : Nat :=
  cache.entries.length

/-- The store without any result. -/
def clear (_ : CompileCache) : CompileCache :=
  {}

end CompileCache

end UiTemplate
