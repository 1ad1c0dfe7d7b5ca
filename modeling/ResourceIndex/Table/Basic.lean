import ResourceIndex.Chain
import ResourceIndex.Geometry
import ResourceIndex.Outcome

set_option autoImplicit false

/-! # The table of resources

A table holds resources under the identifiers they carry. Its buckets are chains through one
store of entries; an identifier belongs in the bucket that the geometry routes its hash to, and
is looked up there and nowhere else. Each installed resource also has a handle, which names it
until it is removed, whatever becomes of its identifier.

This module has the tables themselves and all that only reads them by identifier or handle.
-/

namespace ResourceIndex

/-- Chains of entries with the geometry that addresses them. `reserved` buckets have been
provided for; `splits` buckets have been split and the space has been doubled `doublings`
times. The epoch advances with each resource installed and each bucket split.

No operation reads `underflowed`. It notes that a stored length has been lowered below zero at some
time, where it wraps around and where a program that checks its arithmetic would have ended. -/
structure Table (ρ : Type) where
  buckets : Array Chain
  slots : Slots (Entry ρ)
  geometry : Geometry
  reserved : Nat
  splits : Nat
  doublings : Nat
  epoch : Nat
  underflowed : Bool

namespace Table

variable {ρ ι : Type}

/-! ## Fresh tables -/

/-- The table of `n` empty buckets. -/
def ofBucketCount (n : Nat) : Table ρ where
  buckets := Array.replicate n Chain.empty
  slots := Slots.empty
  geometry := Geometry.start n
  reserved := n
  splits := 0
  doublings := 0
  epoch := 0
  underflowed := false

/-- The fresh table, with as few buckets as its identifiers allow. -/
def new [Resource ρ ι] [Identifier ι] : Table ρ := ofBucketCount (Identifier.widths ι).leastBuckets

/-- The fresh table, if the memory for its buckets is granted. -/
def create [Resource ρ ι] [Identifier ι] (granted : Bool) : Except Refusal (Table ρ) :=
  if granted then .ok new else .error .outOfMemory

/-! ## Sizes -/

/-- The number of installed resources. -/
def size (t : Table ρ) : Nat := t.slots.live

/-- Whether no resource is installed. -/
def isEmpty (t : Table ρ) : Bool := t.size == 0

/-! ## Buckets -/

variable [Resource ρ ι] [Identifier ι]

/-- The bucket that an identifier belongs in, unless it cannot be hashed. -/
def address? (t : Table ρ) (id : ι) : Option Nat :=
  (Identifier.hash? id).map t.geometry.route

/-- The chain of a bucket. -/
def chain (t : Table ρ) (bucket : Nat) : Checked Chain :=
  match t.buckets[bucket]? with
  | none => .error (.noBucket bucket)
  | some c => .ok c

/-- The first handle in a bucket, if the bucket exists and is not empty. -/
def first? (t : Table ρ) (bucket : Nat) : Option Handle :=
  t.buckets[bucket]?.bind Chain.head

/-- The entries of a bucket in their order. -/
def entries (t : Table ρ) (bucket : Nat) : Checked (List (Handle × Entry ρ)) := do
  (← t.chain bucket).entries t.slots

/-! ## Reading by handle and by identifier -/

/-- The resource that a handle names. -/
def get? (t : Table ρ) (h : Handle) : Option ρ := (t.slots.get? h).map Entry.resource

/-- The first handle in a bucket whose resource answers to an identifier. -/
def findIn (t : Table ρ) (bucket : Nat) (id : ι) : Checked (Option Handle) := do
  let found := (← t.entries bucket).find? fun (_, e) => Identifier.same (Resource.id e.resource) id
  return found.map Prod.fst

/-- The handle of the resource installed under an identifier. -/
def find (t : Table ρ) (id : ι) : Checked (Except Fault (Option Handle)) :=
  match t.address? id with
  | none => .ok (.error .hashUnavailable)
  | some bucket => do return .ok (← t.findIn bucket id)

/-- The resource installed under an identifier. -/
def lookup (t : Table ρ) (id : ι) : Checked (Except Fault (Option ρ)) := do
  return (← t.find id).map fun found => found.bind t.get?

/-- Whether a resource is installed under an identifier. -/
def contains (t : Table ρ) (id : ι) : Checked (Except Fault Bool) := do
  return (← t.find id).map Option.isSome

end Table

end ResourceIndex
