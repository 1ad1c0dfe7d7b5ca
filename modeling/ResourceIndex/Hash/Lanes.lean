import ResourceIndex.Hash.Fold
import ResourceIndex.Hash.Substitution

set_option autoImplicit false

/-! # The hash of a byte string

A string is taken in chunks of four bytes, the last of which may be shorter, by four
accumulators of one byte, the lanes: lane `j` takes the byte at the place `j` of each chunk. A
lane that takes a byte is replaced by the substitute of its xor with that byte. A zero byte ends
the hashing at once, in the middle of a chunk or between two, and is not taken itself.
The lanes, the first one lowest, form a 32-bit word, which is folded as an integer of 4 bits
for indices of 8 bits.
-/

namespace ResourceIndex

/-- The bytes in chunks of four and a shorter one for what remains, if anything does. -/
def chunks : List UInt8 → List (List UInt8)
  | a :: b :: c :: d :: rest => [a, b, c, d] :: chunks rest
  | [] => []
  | rest => [rest]

/-- A lane takes a byte. -/
def absorb (lane b : UInt8) : UInt8 := substitute (lane ^^^ b)

/-- Four accumulators. -/
abbrev Lanes := Vector UInt8 4

namespace Lanes

/-- All lanes are zero before the first byte. -/
def start : Lanes := Vector.replicate 4 0

/-- The lanes from `j` on take one byte of a chunk each. It is an error, with the lanes as they
are by then, to come to a zero byte: the string ends there. -/
def feed (l : Lanes) (j : Nat) : List UInt8 → Except Lanes Lanes
  | [] => .ok l
  | b :: rest =>
    if h : j < 4 then
      if b = 0 then .error l else feed (l.set j (absorb l[j] b)) (j + 1) rest
    else .ok l

/-- The lanes after all chunks, or after those before the string ends. -/
def afterChunks (l : Lanes) (cs : List (List UInt8)) : Lanes :=
  match cs.foldlM (fun l c => l.feed 0 c) l with
  | .ok l => l
  | .error l => l

/-- The lanes as 32 bits, lane 0 in the lowest byte. -/
def word (l : Lanes) : BitVec 32 :=
  l[3].toBitVec ++ l[2].toBitVec ++ l[1].toBitVec ++ l[0].toBitVec

end Lanes

/-- The smallest index width of a table keyed by names. -/
def nameIndexWidth : Nat := 8

/-- The width that the word of the lanes is folded from. -/
def nameFoldWidth : Nat := 4

/-- The hash of a byte string. -/
def hashBytes (bytes : List UInt8) : Word :=
  fold nameIndexWidth nameFoldWidth ((Lanes.start.afterChunks (chunks bytes)).word.setWidth 64)

end ResourceIndex
