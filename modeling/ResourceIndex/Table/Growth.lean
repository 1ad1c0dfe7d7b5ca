import ResourceIndex.Table.Basic

set_option autoImplicit false

/-! # Growth of a table by one bucket

A split detaches the chain of the bucket at the split cursor, moves the cursor on, adds an
empty bucket at the end, and then takes the detached entries one by one, in their order, and
links each at the end of the bucket it now belongs in. A table with as many buckets as its
identifiers allow is not split.

Space for the buckets of a whole generation is provided at its first split. The caller says
whether the memory is granted; if it is not, the split is deferred and the table stays as it
is.

When an identifier cannot be hashed, the split ends there. The geometry is that of the finished
split and the entries already linked stay where they are, but the entry in hand and those after
it are in no bucket: they are *lost*. They still have their handles and still count as
installed. The split is not counted and the epoch does not advance.
-/

namespace ResourceIndex

namespace Table

variable {ρ ι : Type} [Resource ρ ι] [Identifier ι]

/-- Links the handle `h`, which is in no chain, at the end of a bucket. -/
def link (t : Table ρ) (bucket : Nat) (h : Handle) : Checked (Table ρ) := do
  let (c, slots) ← (← t.chain bucket).pushBack t.slots h bucket
  return { t with buckets := t.buckets.setIfInBounds bucket c, slots := slots }

/-- Takes the handles of the detached chain `c`, at most `count` of them, and links each to the
bucket it now belongs in, until the chain is empty or an identifier cannot be hashed. -/
def relink : (count : Nat) → (c : Chain) → Table ρ → Checked (Table ρ × Except Fault Unit)
  | 0, c, t => if c.head.isSome then .error .endless else .ok (t, .ok ())
  | count + 1, c, t => do
    let (popped, rest, slots) ← c.popFront t.slots
    match popped with
    | none => return (t, .ok ())
    | some h =>
      let t := { t with slots := slots, underflowed := t.underflowed || c.length == 0 }
      match t.address? (Resource.id (← t.slots.require h).resource) with
      | none => return (t, .error .hashUnavailable)
      | some bucket => relink count rest (← t.link bucket h)

/-- Splits the bucket at the cursor of the geometry `g`, for whose generation space has been
provided. -/
def split (t : Table ρ) (g : Geometry) : Checked (Outcome (Table ρ) Unit) := do
  let taken := (← t.chain g.nextSplit).take
  let t := { t with
    buckets := (t.buckets.setIfInBounds g.nextSplit taken.2).push Chain.empty
    geometry := g.advance }
  match ← relink t.slots.live taken.1 t with
  | (t, .error fault) => return { state := t, answer := .error fault }
  | (t, .ok ()) =>
    return {
      state := { t with splits := t.splits + 1, epoch := t.epoch + 1 }
      answer := .ok ()
      events := [.bucketSplit g.nextSplit t.buckets.size] }

/-- Provides space for the buckets of the generation of `g`. -/
def provision (t : Table ρ) (g : Geometry) : Table ρ :=
  { t with reserved := g.target, doublings := t.doublings + 1 }

/-- Splits a bucket, unless the table has as many buckets as it may have or needs space for
more that is not granted. -/
def grow (t : Table ρ) (granted : Bool) : Checked (Outcome (Table ρ) Unit) :=
  let g := t.geometry.forSplit
  if (Identifier.widths ι).mostBuckets ≤ t.buckets.size then
    .ok { state := t, answer := .ok () }
  else if Nat.pow 2 64 ≤ g.target ∨ g.target < t.buckets.size then
    .error (.unaddressable t.buckets.size g.target)
  else if g.target ≤ t.reserved then t.split g
  else if granted then do
    let outcome ← (t.provision g).split g
    return { outcome with events := .arrayDoubled g.target g.lowMask :: outcome.events }
  else
    .ok { state := t, answer := .ok (), events := [.splitDeferred t.buckets.size g.target] }

end Table

end ResourceIndex
