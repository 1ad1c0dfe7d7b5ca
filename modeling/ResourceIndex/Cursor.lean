import ResourceIndex.Table.Basic

set_option autoImplicit false

/-! # Cursors

A cursor is a position in the order of traversal that can be kept while the table changes: a
bucket and, unless that bucket has been passed, the handle to be returned next. Resources may
be removed between two steps, save the one to be returned next. A cursor is of no use once the
table has grown or gained a resource, and a step then ends with a fault. A step that ends with
a fault leaves the cursor as it was.
-/

namespace ResourceIndex

/-- A position, with the epoch of the table that it is a position in. -/
structure Cursor where
  bucket : Nat
  next : Option Handle
  epoch : Nat
  deriving DecidableEq

namespace Cursor

variable {ρ : Type}

/-- The position before the first resource. -/
def start (t : Table ρ) : Cursor where
  bucket := 0
  next := t.first? 0
  epoch := t.epoch

/-- Moves to the first handle in the `count` buckets after the one the cursor is at, unless the
cursor is at a handle already. -/
def settle (t : Table ρ) : (count : Nat) → Cursor → Cursor
  | 0, c => c
  | count + 1, c =>
    if c.next.isSome then c
    else settle t count { c with bucket := c.bucket + 1, next := t.first? (c.bucket + 1) }

/-- The next resource in the order of traversal, by its handle, and the position after it. At
the end there is none, and the position stays at the end. -/
def step (t : Table ρ) (c : Cursor) : Except Fault (Option Handle × Cursor) :=
  if c.epoch ≠ t.epoch then .error .grown
  else
    let c := c.settle t (t.buckets.size - c.bucket)
    match c.next with
    | none => .ok (none, c)
    | some h =>
      match t.slots.get? h with
      | none => .error .successorRemoved
      | some e => .ok (some h, { c with next := e.next })

end Cursor

end ResourceIndex
