import ResourceIndex.Identifier.Basic

set_option autoImplicit false

/-! # The geometry of a linear-hashing table

A table grows one bucket at a time. A *generation* begins with a power of two of buckets, and
each of its splits takes the next bucket in order, the one at the split cursor, and divides it
between itself and a new bucket at the end. Two masks cut a hash down to an index: the low one
to the buckets the generation began with, the high one to those it ends with. A bucket before
the cursor has been split, so its hashes are cut down by the high mask.

When the cursor has passed the low mask every bucket of the generation has been split. The
next split then begins a new generation with the next wider masks and the cursor at zero;
until then the finished generation addresses the same buckets.
-/

namespace ResourceIndex

/-- The masks of a generation and the bucket to be split next. -/
structure Geometry where
  lowMask : Nat
  highMask : Nat
  nextSplit : Nat
  deriving DecidableEq

namespace Geometry

/-- The mask of the generation after the one with the mask `mask`: one bit more. -/
def widen (mask : Nat) : Nat := 2 * mask + 1

/-- The generation that begins with `buckets` buckets. -/
def start (buckets : Nat) : Geometry where
  lowMask := buckets - 1
  highMask := widen (buckets - 1)
  nextSplit := 0

/-- The bucket that owns a hash. -/
def route (g : Geometry) (hash : Word) : Nat :=
  let low := hash.toNat &&& g.lowMask
  if g.nextSplit ≤ low then low else hash.toNat &&& g.highMask

/-- Whether every bucket of the generation has been split. -/
def finished (g : Geometry) : Bool := g.lowMask < g.nextSplit

/-- The geometry in which the next split takes place: that of the next generation if this one
is finished. -/
def forSplit (g : Geometry) : Geometry :=
  if g.finished then ⟨g.highMask, widen g.highMask, 0⟩ else g

/-- The buckets there are when the generation is finished. -/
def target (g : Geometry) : Nat := g.highMask + 1

/-- The geometry after a split: the cursor is at the bucket after the one split. -/
def advance (g : Geometry) : Geometry := { g with nextSplit := g.nextSplit + 1 }

end Geometry

end ResourceIndex
