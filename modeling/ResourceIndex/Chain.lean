import ResourceIndex.Fault

set_option autoImplicit false

/-! # Chains

The entries of all buckets lie in one store of slots, and a bucket is a chain threaded through
it: each entry names the one before and the one after it, and the chain names its first and its
last entry and knows its length. So an entry is taken out without a search, and a whole chain
is detached by forgetting its ends.

A chain stands for a list of handles, those met by following the links from its first entry.
Appending adds a handle at the end of the list, unlinking erases one wherever it is, and other
chains in the same store keep their lists.

A walk along a chain follows the links to their end and takes no notice of the stored length. It
meets no more entries than there are in the store, for links that lead on after that lead on for
ever.
-/

namespace ResourceIndex

/-- A resource in a store, with the index of the bucket it was last linked into and its
neighbours there. -/
structure Entry (ρ : Type) where
  resource : ρ
  bucket : Nat := 0
  prev : Option Handle := none
  next : Option Handle := none

/-! ## Entries of live handles -/

namespace Slots

variable {α ρ : Type}

/-- The value of a handle that a link leads to. -/
def require (s : Slots α) (h : Handle) : Checked α :=
  match s.get? h with
  | none => .error (.noEntry h)
  | some a => .ok a

/-- Changes the value of a handle that a link leads to, if there is a link. -/
def adjust (s : Slots α) (link : Option Handle) (f : α → α) : Checked (Slots α) :=
  match link with
  | none => .ok s
  | some h => if (s.get? h).isSome then .ok (s.modify h f) else .error (.noEntry h)

/-- The entries met by following the links from `link` to the end, if there are at most `bound` of
them. -/
def walk (s : Slots (Entry ρ)) : (bound : Nat) → (link : Option Handle) →
    Checked (List (Handle × Entry ρ))
  | _, none => .ok []
  | 0, some _ => .error .endless
  | bound + 1, some h => do
    let e ← s.require h
    return (h, e) :: (← s.walk bound e.next)

end Slots

/-! ## Chains -/

/-- The ends of a chain and the number of its entries. The number is counted up and down with the
entries that are linked and unlinked, in a machine word: it matters modulo `2 ^ 64` only, and below
zero it wraps around. -/
structure Chain where
  head : Option Handle := none
  tail : Option Handle := none
  length : Nat := 0
  deriving DecidableEq

namespace Chain

variable {ρ : Type}

/-- The chain without entries. -/
def empty : Chain := {}

/-- The stored length as its word has it. -/
def word (c : Chain) : Nat := c.length % Nat.pow 2 64

/-- The stored length with one entry less. -/
def lowered (c : Chain) : Nat := if c.length = 0 then Nat.pow 2 64 - 1 else c.length - 1

/-- The entries of a chain in their order. -/
def entries (c : Chain) (s : Slots (Entry ρ)) : Checked (List (Handle × Entry ρ)) :=
  s.walk s.live c.head

/-- Links the handle `h`, which is in no chain, at the end of the chain of the bucket
`bucket`. -/
def pushBack (c : Chain) (s : Slots (Entry ρ)) (h : Handle) (bucket : Nat) :
    Checked (Chain × Slots (Entry ρ)) := do
  let s ← s.adjust (some h) fun e => { e with bucket := bucket, prev := c.tail, next := none }
  let s ← s.adjust c.tail fun e => { e with next := some h }
  return ({ head := if c.tail.isNone then some h else c.head
            tail := some h
            length := c.length + 1 }, s)

/-- Takes the handle `h`, which is in this chain, out of it. -/
def unlink (c : Chain) (s : Slots (Entry ρ)) (h : Handle) :
    Checked (Chain × Slots (Entry ρ)) := do
  let e ← s.require h
  let s := s.modify h fun e => { e with prev := none, next := none }
  let s ← s.adjust e.prev fun p => { p with next := e.next }
  let s ← s.adjust e.next fun n => { n with prev := e.prev }
  return ({ head := if e.prev.isNone then e.next else c.head
            tail := if e.next.isNone then e.prev else c.tail
            length := c.lowered }, s)

/-- Detaches a whole chain, which leaves an empty one behind: the chain detached and the one that is
left. -/
def take (c : Chain) : Chain × Chain := (c, empty)

/-- Takes the first handle out of a chain, if it has one. -/
def popFront (c : Chain) (s : Slots (Entry ρ)) :
    Checked (Option Handle × Chain × Slots (Entry ρ)) :=
  match c.head with
  | none => .ok (none, c, s)
  | some h => do
    let (c, s) ← c.unlink s h
    return (some h, c, s)

end Chain

end ResourceIndex
