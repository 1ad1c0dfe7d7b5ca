import ResourceIndex.Table.Update

set_option autoImplicit false

/-! # Visiting every resource

A traversal visits the resources bucket by bucket, in the order of each chain. The visitor may
change the resource it is shown and say that it is to be removed. The link to the next entry is
read before the visit, so that removing the visited entry does not lose the place.
-/

namespace ResourceIndex

/-- What is to become of a resource after its visit. -/
inductive Visit where
  | keep
  | remove
  deriving DecidableEq

/-- A visitor with a state: from the state and the resource visited it makes the next state, the
changed resource and its verdict. -/
abbrev Visitor (σ ρ : Type) := σ → ρ → σ × ρ × Visit

namespace Table

variable {σ ρ : Type}

/-- Visits the entries of a bucket from `link` on, if there are at most `bound` of them. -/
def visitFrom (visit : Visitor σ ρ) (bucket : Nat) :
    (bound : Nat) → (link : Option Handle) → Table ρ → σ → Checked (Table ρ × σ)
  | _, none, t, s => .ok (t, s)
  | 0, some _, _, _ => .error .endless
  | bound + 1, some h, t, s => do
    let e ← t.slots.require h
    let (s, r, verdict) := visit s e.resource
    let t := t.modifyHandle h fun _ => r
    match verdict with
    | .keep => visitFrom visit bucket bound e.next t s
    | .remove =>
      let (t, _) ← t.unlink bucket h
      visitFrom visit bucket bound e.next t s

/-- Visits the resources of a bucket. -/
def visitBucket (visit : Visitor σ ρ) (bucket : Nat) (t : Table ρ) (s : σ) :
    Checked (Table ρ × σ) := do
  let c ← t.chain bucket
  t.visitFrom visit bucket t.slots.live c.head s

/-- Visits every resource, from the state `s` of the visitor on. -/
def traverse (t : Table ρ) (visit : Visitor σ ρ) (s : σ) : Checked (Table ρ × σ) :=
  (List.range t.buckets.size).foldlM (fun (t, s) bucket => t.visitBucket visit bucket s) (t, s)

end Table

end ResourceIndex
