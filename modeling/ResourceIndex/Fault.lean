import ResourceIndex.Slots

set_option autoImplicit false

/-! # Faults, refusals and corruption

An operation can go wrong in three ways.

* A *refusal* is an answer: the table turns down a request and stays as it is.
* A *fault* cuts an operation short. It is due to the caller: an identifier that cannot be
  hashed, a cursor used after the table has changed under it, an identifier that was changed
  while its resource was installed, or a resource in no bucket that was taken out all the same.
  What was done before the fault stays done.
* *Corruption* means that the table breaks one of its own structural invariants. Wherever an
  operation relies on an invariant it checks it, so that no operation ever reports corruption
  is a statement about what they answer.
-/

namespace ResourceIndex

/-! ## Refusals -/

/-- The requests that are turned down. -/
inductive Refusal where
  /-- There is no memory for the first buckets of a table. -/
  | outOfMemory
  /-- Every serial number within the limit belongs to an installed resource. -/
  | numbersExhausted
  /-- A resource with an equal identifier is installed. -/
  | duplicateIdentifier
  deriving DecidableEq

/-- The text of a refusal. -/
def Refusal.message : Refusal → String
  | outOfMemory => "bucket array allocation failed"
  | numbersExhausted => "chronological id space exhausted"
  | duplicateIdentifier => "identifier already installed"

/-! ## Faults -/

/-- What cuts an operation short. -/
inductive Fault where
  /-- An identifier could not be hashed. -/
  | hashUnavailable
  /-- A cursor was resumed after the table had grown. -/
  | grown
  /-- A cursor was resumed after the resource it was to return had been removed. -/
  | successorRemoved
  /-- A resource is in one bucket and its identifier belongs in another. -/
  | misplaced (bucket expected : Nat)
  /-- Two resources in one bucket have equal identifiers. -/
  | duplicated (bucket : Nat)
  /-- The stored length of a bucket is not the number of its entries. -/
  | staleLength (bucket : Nat)
  /-- The buckets do not hold all resources that are installed. -/
  | countMismatch
  deriving DecidableEq

/-- The text of a fault. -/
def Fault.message : Fault → String
  | hashUnavailable => "hash unavailable"
  | grown => "resource table gained entries during traversal"
  | successorRemoved => "cursor's next resource was removed during traversal"
  | misplaced bucket expected =>
    "resource in bucket " ++ toString bucket ++ " belongs in bucket " ++ toString expected
  | duplicated bucket => "duplicate identifier in bucket " ++ toString bucket
  | staleLength bucket => "bucket " ++ toString bucket ++ " length is stale"
  | countMismatch => "installed count mismatch"

/-! ## Corruption -/

/-- The structural invariants an operation can find broken. -/
inductive Corruption where
  /-- The table has no bucket of this index. -/
  | noBucket (index : Nat)
  /-- A link leads to a handle that names no resource. -/
  | noEntry (h : Handle)
  /-- Links lead on after as many entries as there are, and so for ever. -/
  | endless
  /-- More buckets are asked for than can be counted, or fewer than there are. -/
  | unaddressable (buckets target : Nat)
  /-- The split cursor is past the end of its generation. -/
  | cursorPastGeneration
  /-- The two masks do not belong to adjacent generations. -/
  | masksOutOfStep
  /-- The masks and the split cursor call for another number of buckets. -/
  | bucketCountMismatch
  /-- An iterator came to more resources than it had left to count. -/
  | overcounted
  /-- An iterator over an unchanging table met a fault. -/
  | iteration (fault : Fault)
  /-- More serial numbers were tried than there are resources to hold them. -/
  | endlessRetry
  deriving DecidableEq

/-- A computation that checks the invariants it relies on. -/
abbrev Checked (α : Type) := Except Corruption α

end ResourceIndex
