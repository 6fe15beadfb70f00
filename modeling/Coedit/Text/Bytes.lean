import Coedit.Arithmetic

/-!
# Cutting texts by bytes

A text is stored as the bytes of its characters, of one to four bytes each, while positions and lengths count
characters.  Before a text is cut, the place of the cut is turned into the offset of a byte.  A cut inside of a character
is impossible, which is what `none` stands for.
-/

namespace Coedit.Text

/-- The offset of each of some characters, the first of which starts at `start`. -/
def charOffsets (start : Nat) : List Char → List Nat
  | [] => []
  | c :: cs => start :: charOffsets (start + c.utf8Size) cs

/-- The offset of the character behind the first `n`, or of the end if there is none. -/
def byteOffset (s : String) (n : Nat) : Nat := (charOffsets 0 s.toList).getD n s.utf8ByteSize

/-- The text before the byte at `offset`, and the text from there on. -/
def splitAt? (s : String) (offset : Nat) : Option (String × String) :=
  (s.pos? ⟨offset⟩).map fun p => ((s.sliceTo p).copy, (s.sliceFrom p).copy)

/-- The text from the byte at `start` up to the byte at `stop`. -/
def between? (s : String) (start stop : Nat) : Option String := do
  let p ← s.pos? ⟨start⟩
  let q ← s.pos? ⟨stop⟩
  (s.slice? p q).map String.Slice.copy

/-- The `length` characters from position `start` on; the offset of their end is found from that of their start. -/
def subrange? (s : String) (start length : Nat) : Option String := do
  let first := byteOffset s start
  let (_, tail) ← splitAt? s first
  between? s first (first + byteOffset tail length)

/-- Consecutive parts of the given lengths from position `start` on, each counted from the front of the text. -/
def subranges? [L : Lengths] (s : String) (start : Nat) : List Nat → Option (List String)
  | [] => some []
  | n :: lengths => do
    return (← subrange? s start n) :: (← subranges? s (L.arithmetic.wrap (start + n)) lengths)

/-- Consecutive parts of the given lengths from the front, each cut from what the last one left. -/
def runs? (s : String) : List Nat → Option (List String)
  | [] => some []
  | n :: lengths => do
    let (part, tail) ← splitAt? s (byteOffset s n)
    return part :: (← runs? tail lengths)

end Coedit.Text
