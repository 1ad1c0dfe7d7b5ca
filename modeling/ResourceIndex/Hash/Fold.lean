set_option autoImplicit false

/-! # Folding a word

The hash of an integer is the integer itself, xor-ed with right-shifted copies of itself. The
shift starts at half the width of the integers to be hashed and is halved each round, rounding
down, until it no longer exceeds the width of the smallest index. High bits thereby bear on the
low bits, which alone choose the bucket. Nothing is masked here: a table masks the hash down to
the buckets it has.

A shift of zero would cancel the word, so a width too small to be halved leaves the word as it
is. A round never changes the highest set bit, so folding loses nothing.
-/

namespace ResourceIndex

/-- The 64-bit word that hashes and identifiers are made of. -/
abbrev Word := BitVec 64

/-- The rounds of a fold from the width `width` on: each halves the width, stops at zero, xors
the word with itself shifted by the halved width, and is the last one once that width is at
most `least`. -/
def foldRounds (least width : Nat) (w : Word) : Word :=
  if width / 2 = 0 then w
  else
    let folded := w ^^^ (w >>> (width / 2))
    if width / 2 ≤ least then folded else foldRounds least (width / 2) folded
termination_by width

/-- Folds a word whose low `width` bits may be set, for indices of at least `least` bits. A
width above 64 counts as 64. -/
def fold (least width : Nat) (w : Word) : Word :=
  foldRounds least (min width 64) w

end ResourceIndex
