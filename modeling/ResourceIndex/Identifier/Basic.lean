import ResourceIndex.Hash.Fold

set_option autoImplicit false

/-! # Identifiers

An identifier can be compared with another one of its kind and can be hashed. Its kind fixes
how few and how many buckets a table keyed by it has: both are powers of two, given by the
widths of an index into the buckets.

Comparison need not be reflexive: an identifier without a name matches nothing, itself
included. Hashing may fail, and the operation that asked for the hash then ends with a fault.
-/

namespace ResourceIndex

/-- The widths, in bits, of an index into the first and into the most buckets of a table. -/
structure IndexWidths where
  least : Nat
  most : Nat
  least_le_most : least ≤ most := by decide
  least_lt : least < 63 := by decide
  deriving DecidableEq

namespace IndexWidths

/-- The buckets of a fresh table. -/
def leastBuckets (w : IndexWidths) : Nat := Nat.pow 2 w.least

/-- The buckets after which a table is not split any more. No table has more than `2 ^ 63`. -/
def mostBuckets (w : IndexWidths) : Nat := Nat.pow 2 (min w.most 63)

end IndexWidths

/-- What a table needs of the identifiers it is keyed by. -/
class Identifier (ι : Type) where
  /-- The bounds on the buckets of a table keyed by this kind. -/
  widths : IndexWidths
  /-- The hash, of which a table uses as many low bits as it has buckets for. There is none
  when hashing fails. -/
  hash? : ι → Option Word
  /-- Whether an identifier, the first one, answers to another. -/
  same : ι → ι → Bool

/-- What a table needs of the resources it holds: the identifier each one carries. -/
class Resource (ρ : Type) (ι : outParam Type) where
  /-- The identifier a resource carries. -/
  id : ρ → ι

end ResourceIndex
