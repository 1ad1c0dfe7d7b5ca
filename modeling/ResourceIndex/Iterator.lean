import ResourceIndex.Cursor

set_option autoImplicit false

/-! # Iterators

An iterator runs through a table that does not change meanwhile, and knows how many resources
it still has to come to. It counts down from the number of installed resources; when some of
these are lost, it comes to its end before the count does.
-/

namespace ResourceIndex

/-- A position in a table, with the number of resources that remain. -/
structure Iterator (ρ : Type) where
  table : Table ρ
  cursor : Cursor
  remaining : Nat

namespace Iterator

variable {ρ : Type}

/-- The iterator before the first resource. -/
def start (t : Table ρ) : Iterator ρ := ⟨t, Cursor.start t, t.size⟩

/-- The next resource, if there is one, and the iterator after it. -/
def next (it : Iterator ρ) : Checked (Option ρ × Iterator ρ) :=
  match it.cursor.step it.table with
  | .error fault => .error (.iteration fault)
  | .ok (none, c) => .ok (none, { it with cursor := c })
  | .ok (some h, c) =>
    match it.remaining with
    | 0 => .error .overcounted
    | n + 1 => .ok (it.table.get? h, { it with cursor := c, remaining := n })

/-- The next `count` resources, or all that remain if these are fewer. -/
def take : (count : Nat) → Iterator ρ → Checked (List ρ)
  | 0, _ => .ok []
  | count + 1, it => do
    match ← it.next with
    | (none, _) => return []
    | (some r, it) => return r :: (← take count it)

end Iterator

/-- The resources of a table in the order of traversal. -/
def Table.toList {ρ : Type} (t : Table ρ) : Checked (List ρ) := (Iterator.start t).take t.size

/-- Shows the resources of a table to `look`, which has a state, in the order of traversal. They
stay as they are. -/
def Table.survey {σ ρ : Type} (t : Table ρ) (look : σ → ρ → σ) (a : σ) : Checked σ := do
  return (← t.toList).foldl look a

end ResourceIndex
