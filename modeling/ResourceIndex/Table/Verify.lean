import ResourceIndex.Table.Basic

set_option autoImplicit false

/-! # Checking a table

A table is checked for what a caller can break: every resource in a bucket belongs there by
its identifier, no two of one bucket have equal identifiers, the stored length of a bucket is the
number of its entries, and the buckets hold as many resources as are installed. The check goes from
bucket to bucket, and in each one from entry to entry before it comes to the stored length; the
first fault ends it. The masks, the cursor and the number of buckets, which no caller can break, are
checked before.
-/

namespace ResourceIndex

namespace Geometry

/-- Checks that the cursor, the masks and the number of buckets fit together. -/
def check (g : Geometry) (buckets : Nat) : Checked Unit :=
  if g.lowMask + 1 < g.nextSplit then .error .cursorPastGeneration
  else if g.highMask ≠ widen g.lowMask then .error .masksOutOfStep
  else if buckets ≠ g.lowMask + 1 + g.nextSplit then .error .bucketCountMismatch
  else .ok ()

end Geometry

namespace Table

variable {ρ ι : Type} [Resource ρ ι] [Identifier ι]

/-- Checks one of the entries `all` of a bucket. -/
def verifyEntry (t : Table ρ) (bucket : Nat) (all : List (Handle × Entry ρ))
    (entry : Handle × Entry ρ) : Except Fault Unit :=
  let id := Resource.id entry.2.resource
  match t.address? id with
  | none => .error .hashUnavailable
  | some expected =>
    if expected ≠ bucket then .error (.misplaced bucket expected)
    else if all.any fun (h, e) => h ≠ entry.1 && Identifier.same (Resource.id e.resource) id then
      .error (.duplicated bucket)
    else .ok ()

/-- Checks the entries `all` of a bucket and their number, which is the answer, against its stored
length. -/
def verifyEntries (t : Table ρ) (bucket : Nat) (c : Chain) (all : List (Handle × Entry ρ)) :
    Except Fault Nat := do
  all.forM (t.verifyEntry bucket all)
  if all.length % Nat.pow 2 64 = c.word then return all.length else throw (.staleLength bucket)

/-- Checks buckets one after another. The answer is the number of their entries, with the `total`
of those before. -/
def verifyBuckets (t : Table ρ) : List Nat → (total : Nat) → Checked (Except Fault Nat)
  | [], total => .ok (.ok total)
  | bucket :: rest, total => do
    let c ← t.chain bucket
    match t.verifyEntries bucket c (← c.entries t.slots) with
    | .error fault => return .error fault
    | .ok count => verifyBuckets t rest (total + count)

/-- Checks a table. -/
def verify (t : Table ρ) : Checked (Except Fault Unit) := do
  t.geometry.check t.buckets.size
  match ← t.verifyBuckets (List.range t.buckets.size) 0 with
  | .error fault => return .error fault
  | .ok total => return if total = t.size then .ok () else .error .countMismatch

end Table

end ResourceIndex
