set_option autoImplicit false

/-! # The log

Changes of a table that a caller may want to follow are logged as events. An event is data; its
entry, with a level, a message and named fields, is what a log shows of it.
-/

namespace ResourceIndex

namespace Log

/-- How much attention an entry deserves. -/
inductive Level where
  | trace
  | debug
  | info
  | warn
  deriving DecidableEq

/-- The value of a field. -/
inductive Field where
  | count (n : Nat)
  | real (x : Float)
  | text (s : String)

/-- An entry of the log. The fields stand in the order in which they are shown. -/
structure Entry where
  level : Level
  message : String
  fields : List (String × Field)

end Log

/-- A change of a table, or of the counter of a serial table. -/
inductive Event where
  /-- There was no memory for `requested` buckets; the split did not take place. -/
  | splitDeferred (buckets requested : Nat)
  /-- Space for `buckets` buckets was provided, which the generation of `lowMask` ends with. -/
  | arrayDoubled (buckets lowMask : Nat)
  /-- The bucket `split` was split, which left `buckets` buckets. -/
  | bucketSplit (split buckets : Nat)
  /-- The counter of serial numbers reached the limit and starts over. -/
  | counterWrapped (limit : UInt32)
  /-- A serial number was tried that an installed resource has. -/
  | numberInUse (number : UInt32)
  deriving DecidableEq

/-- The text of a failed request for memory. -/
def allocationFailure : String :=
  "memory allocation failed because the memory allocator returned an error"

/-- The entry that an event has in the log. -/
def Event.entry : Event → Log.Entry
  | splitDeferred buckets requested =>
    ⟨.warn, "bucket array growth failed; split deferred",
      [("buckets", .count buckets), ("requested", .count requested),
       ("error", .text allocationFailure)]⟩
  | arrayDoubled buckets lowMask =>
    ⟨.debug, "bucket array doubled", [("buckets", .count buckets), ("low_mask", .count lowMask)]⟩
  | bucketSplit split buckets =>
    ⟨.trace, "bucket split", [("split", .count split), ("buckets", .count buckets)]⟩
  | counterWrapped limit =>
    ⟨.trace, "chronological id counter wrapped", [("limit", .count limit.toNat)]⟩
  | numberInUse number =>
    ⟨.trace, "chronological id still live; retrying", [("id", .count number.toNat)]⟩

end ResourceIndex
