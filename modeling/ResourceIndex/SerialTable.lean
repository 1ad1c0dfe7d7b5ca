import ResourceIndex.Identifier.Serial
import ResourceIndex.Table.Report
import ResourceIndex.Table.Traverse

set_option autoImplicit false

/-! # Tables that number their resources

A serial table gives each resource that it installs a serial number, the next one of a counter
that runs from 1 to a limit and then starts over. Numbers that installed resources hold are
passed over, so numbers are unique as long as no caller changes them. A table that holds as many
resources as the limit allows turns further ones down without a try.

Each number that turns out to be in use belongs to another resource, so at most one try more
than there are resources is needed.
-/

namespace ResourceIndex

/-- A table with a counter: the number to be tried next and the last number before the counter
starts over. -/
structure SerialTable (ρ : Type) where
  table : Table ρ
  next : UInt32
  limit : UInt32

/-- The answer to a resource that is to be numbered and installed: its number, or the resource
back because no number is left. -/
inductive Numbering (ρ : Type) where
  | numbered (id : SerialId)
  | exhausted (rejected : ρ)

namespace SerialTable

variable {ρ : Type}

/-! ## The counter -/

/-- The numbers after `number` begin at 1 when it is the last one. -/
def successor (limit number : UInt32) : UInt32 :=
  if limit ≤ number then 1 else number + 1

/-- The event of the counter leaving `number`, if it starts over there. -/
def wrapEvents (limit number : UInt32) : List Event :=
  if limit ≤ number then [.counterWrapped limit] else []

/-! ## Tables -/

/-- The table `t` with a counter before its first number. -/
def ofTable (t : Table ρ) (limit : UInt32) : SerialTable ρ := ⟨t, 1, limit⟩

/-- The greatest limit: every number but zero is handed out. -/
def greatestLimit : UInt32 := 0xffffffff

variable [Serialized ρ]

/-- The fresh table of a limit. -/
def withLimit (limit : UInt32) : SerialTable ρ := ofTable Table.new limit

/-- The fresh table of the greatest limit. -/
def new : SerialTable ρ := withLimit greatestLimit

/-- The fresh table of the greatest limit, if the memory for its buckets is granted. -/
def create (granted : Bool) : Except Refusal (SerialTable ρ) :=
  (Table.create granted).map fun t => ofTable t greatestLimit

/-- Tries the next number of the counter for the resource `r`. -/
def attempt (s : SerialTable ρ) (granted : Bool) (r : ρ) :
    Checked (Outcome (SerialTable ρ) (Admission ρ)) := do
  let outcome ← s.table.add granted (Serialized.assign ⟨s.next⟩ r)
  return {
    state := ⟨outcome.state, successor s.limit s.next, s.limit⟩
    answer := outcome.answer
    events := wrapEvents s.limit s.next ++ outcome.events }

/-- Tries the numbers of the counter, at most `bound` of them, until one is not in use. `granted`
says of each try whether memory is granted to it. -/
def addWithin : (bound : Nat) → (granted : Nat → Bool) → SerialTable ρ → ρ →
    Checked (Outcome (SerialTable ρ) (Numbering ρ))
  | 0, _, _, _ => .error .endlessRetry
  | bound + 1, granted, s, r => do
    let first ← s.attempt (granted 0) r
    match first.answer with
    | .error fault => return { first with answer := .error fault }
    | .ok (.installed _) => return { first with answer := .ok (.numbered ⟨s.next⟩) }
    | .ok (.duplicate r) =>
      let rest ← addWithin bound (fun i => granted (i + 1)) first.state r
      return { rest with events := first.events ++ .numberInUse s.next :: rest.events }

/-- Numbers and installs a resource, whatever number it carried. -/
def add (s : SerialTable ρ) (granted : Nat → Bool) (r : ρ) :
    Checked (Outcome (SerialTable ρ) (Numbering ρ)) :=
  if s.limit.toNat ≤ s.table.size then .ok { state := s, answer := .ok (.exhausted r) }
  else addWithin (s.table.size + 1) granted s r

/-! ## What leaves the counter alone -/

/-- Removes the resource with a serial number. -/
def remove (s : SerialTable ρ) (id : SerialId) :
    Checked (Outcome (SerialTable ρ) (Option ρ)) := do
  let outcome ← s.table.remove id
  return { outcome with state := { s with table := outcome.state } }

/-- Removes the resource that a handle names. -/
def removeHandle (s : SerialTable ρ) (h : Handle) : Checked (SerialTable ρ × Option ρ) := do
  let (t, r) ← s.table.removeHandle h
  return ({ s with table := t }, r)

/-- Changes the resource with a serial number, where it is, and answers with the changed
one. -/
def modify (s : SerialTable ρ) (id : SerialId) (f : ρ → ρ) :
    Checked (Outcome (SerialTable ρ) (Option ρ)) := do
  let outcome ← s.table.modify id f
  return { outcome with state := { s with table := outcome.state } }

/-- Changes the resource that a handle names, where it is. -/
def modifyHandle (s : SerialTable ρ) (h : Handle) (f : ρ → ρ) : SerialTable ρ :=
  { s with table := s.table.modifyHandle h f }

/-- Visits every resource, from the state `a` of the visitor on. -/
def traverse {σ : Type} (s : SerialTable ρ) (visit : Visitor σ ρ) (a : σ) :
    Checked (SerialTable ρ × σ) := do
  let (t, a) ← s.table.traverse visit a
  return ({ s with table := t }, a)

instance : Describe (SerialTable ρ) where
  outline s := .node "ChronIdTable"
    [("table", Describe.outline s.table),
     ("alloc_id", .atom (toString s.next.toNat)),
     ("id_limit", .atom (toString s.limit.toNat))]

end SerialTable

end ResourceIndex
