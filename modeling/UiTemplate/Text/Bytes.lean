/-!
# Sizes in bytes

Texts are cut and measured in the bytes of their UTF-8 form.
-/

namespace UiTemplate.Text

/-- The number of bytes of a text. -/
def byteLength : List Char → Nat
  | [] => 0
  | c :: cs => c.utf8Size + byteLength cs

@[simp]
theorem byteLength_append (a b : List Char) :
    byteLength (a ++ b) = byteLength a + byteLength b := by
  induction a with
  | nil => simp [byteLength]
  | cons c a ih => simp [byteLength, ih, Nat.add_assoc]

/-- A text cut after its first `n` bytes. A character that the cut would divide belongs to the first
part. -/
def splitBytes : Nat → List Char → List Char × List Char
  | _, [] => ([], [])
  | 0, cs => ([], cs)
  | n + 1, c :: cs =>
    let (before, after) := splitBytes (n + 1 - c.utf8Size) cs
    (c :: before, after)

/-- A cut loses nothing. -/
theorem splitBytes_append (n : Nat) (cs : List Char) :
    (splitBytes n cs).1 ++ (splitBytes n cs).2 = cs := by
  induction cs generalizing n with
  | nil => cases n <;> rfl
  | cons c cs ih =>
    cases n with
    | zero => rfl
    | succ n => simp [splitBytes, ih]

/-- A cut after the bytes of a first part divides a text there. -/
theorem splitBytes_byteLength (a b : List Char) : splitBytes (byteLength a) (a ++ b) = (a, b) := by
  induction a with
  | nil => cases b <;> rfl
  | cons c a ih =>
    have hpos := c.utf8Size_pos
    obtain ⟨n, hn⟩ : ∃ n, c.utf8Size + byteLength a = n + 1 :=
      ⟨c.utf8Size + byteLength a - 1, by omega⟩
    have hrest : n + 1 - c.utf8Size = byteLength a := by omega
    simp only [List.cons_append, byteLength, hn, splitBytes, hrest, ih]

/-- The text from the byte `first` up to the byte `last`. There is none if one of them is inside a
character or behind the end. -/
def slice? (first last : Nat) (cs : List Char) : Option (List Char) :=
  let cut := splitBytes first cs
  let part := (splitBytes (last - first) cut.2).1
  if byteLength cut.1 = first ∧ first + byteLength part = last then some part else none

theorem slice?_byteLength (a b c : List Char) :
    slice? (byteLength a) (byteLength (a ++ b)) (a ++ (b ++ c)) = some b := by
  simp [slice?, splitBytes_byteLength]

end UiTemplate.Text
