import ResourceIndex.Table.Growth

set_option autoImplicit false

/-! # Installing, removing and changing resources

A table that holds more resources than buckets grows by one bucket before a resource is added
to it, whether or not the resource is then turned down as a duplicate. A resource is removed by
its identifier, which is looked up, or by its handle, from the bucket its entry was last linked
into; the two agree even after the identifier has been changed in place.
-/

namespace ResourceIndex

/-- The answer to a resource that is to be installed: the handle it now has, or the resource
back because one with an equal identifier is installed. -/
inductive Admission (ρ : Type) where
  | installed (h : Handle)
  | duplicate (rejected : ρ)

namespace Table

variable {ρ ι : Type} [Resource ρ ι] [Identifier ι]

/-! ## Adding -/

/-- Installs a resource at the end of a bucket. -/
def install (t : Table ρ) (bucket : Nat) (r : ρ) : Checked (Table ρ × Handle) := do
  let h := t.slots.fresh
  let t := { t with slots := t.slots.insert { resource := r } }
  let t ← t.link bucket h
  return ({ t with epoch := t.epoch + 1 }, h)

/-- Installs a resource in the bucket its identifier belongs in, unless one with an equal
identifier is there. The table does not grow. -/
def accept (t : Table ρ) (r : ρ) : Checked (Table ρ × Except Fault (Admission ρ)) :=
  match t.address? (Resource.id r) with
  | none => .ok (t, .error .hashUnavailable)
  | some bucket => do
    match ← t.findIn bucket (Resource.id r) with
    | some _ => return (t, .ok (.duplicate r))
    | none =>
      let (t, h) ← t.install bucket r
      return (t, .ok (.installed h))

/-- Whether the table grows before the next resource is added. -/
def overfull (t : Table ρ) : Bool := t.buckets.size < t.size

/-- Adds a resource. The caller says whether memory is granted, should it be needed. -/
def add (t : Table ρ) (granted : Bool) (r : ρ) : Checked (Outcome (Table ρ) (Admission ρ)) := do
  let grown ← if t.overfull then t.grow granted else .ok { state := t, answer := .ok () }
  match grown.answer with
  | .error fault => return { grown with answer := .error fault }
  | .ok () =>
    let (t, answer) ← grown.state.accept r
    return { state := t, answer := answer, events := grown.events }

/-! ## Removing -/

/-- Takes the handle `h` out of the bucket it is in, and its resource out of the table. -/
def unlink (t : Table ρ) (bucket : Nat) (h : Handle) : Checked (Table ρ × ρ) := do
  let e ← t.slots.require h
  let c ← t.chain bucket
  let (rest, slots) ← c.unlink t.slots h
  return ({ t with
    buckets := t.buckets.setIfInBounds bucket rest
    slots := slots.erase h
    underflowed := t.underflowed || c.length == 0 }, e.resource)

/-- Removes the resource installed under an identifier. -/
def remove (t : Table ρ) (id : ι) : Checked (Outcome (Table ρ) (Option ρ)) :=
  match t.address? id with
  | none => .ok { state := t, answer := .error .hashUnavailable }
  | some bucket => do
    match ← t.findIn bucket id with
    | none => return { state := t, answer := .ok none }
    | some h =>
      let (t, r) ← t.unlink bucket h
      return { state := t, answer := .ok (some r) }

/-- Removes the resource that a handle names. -/
def removeHandle (t : Table ρ) (h : Handle) : Checked (Table ρ × Option ρ) :=
  match t.slots.get? h with
  | none => .ok (t, none)
  | some e => do
    let (t, r) ← t.unlink e.bucket h
    return (t, some r)

/-! ## Changing in place -/

/-- Changes the resource that a handle names, where it is. -/
def modifyHandle (t : Table ρ) (h : Handle) (f : ρ → ρ) : Table ρ :=
  { t with slots := t.slots.modify h fun e => { e with resource := f e.resource } }

/-- Changes the resource installed under an identifier, where it is, and answers with the
changed one. -/
def modify (t : Table ρ) (id : ι) (f : ρ → ρ) : Checked (Outcome (Table ρ) (Option ρ)) := do
  match ← t.find id with
  | .error fault => return { state := t, answer := .error fault }
  | .ok none => return { state := t, answer := .ok none }
  | .ok (some h) =>
    let t := t.modifyHandle h f
    return { state := t, answer := .ok (t.get? h) }

end Table

end ResourceIndex
