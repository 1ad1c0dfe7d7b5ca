import ResourceIndex.Identifier.Number

set_option autoImplicit false

/-! # Serial numbers as identifiers

A serial number is a 32-bit number that a table hands out in turn. It is hashed and compared as
an integer identifier. Zero marks a resource that has not been given a number.
-/

namespace ResourceIndex

/-- The kind of integer that serial numbers are. -/
def serialKind : NumberKind where
  bits := 32
  signed := false
  indexWidth := 8
  valueWidth := 32

/-- A number handed out in turn, or zero. -/
structure SerialId where
  number : UInt32
  deriving DecidableEq

namespace SerialId

/-- The mark of a resource without a number. -/
def unassigned : SerialId := ⟨0⟩

/-- Whether the number has been handed out. -/
def assigned (a : SerialId) : Bool := a ≠ unassigned

/-- The serial number as an integer identifier. -/
def toNumberId (a : SerialId) : NumberId serialKind := ⟨a.number.toBitVec⟩

instance : Inhabited SerialId := ⟨unassigned⟩

instance : Ord SerialId := ⟨fun a b => compare a.number b.number⟩

instance : ToString SerialId := ⟨fun a => toString a.number.toNat⟩

instance : Identifier SerialId where
  widths := Identifier.widths (NumberId serialKind)
  hash? a := Identifier.hash? a.toNumberId
  same a b := Identifier.same a.toNumberId b.toNumberId

instance : Describe SerialId :=
  ⟨fun a => .atom ("ChronId(" ++ describe a.toNumberId ++ ")")⟩

end SerialId

/-- A resource that a table can give a serial number to. -/
class Serialized (ρ : Type) extends Resource ρ SerialId where
  /-- The resource with another serial number. -/
  assign : SerialId → ρ → ρ
  /-- A resource carries the number it was last given. -/
  id_assign : ∀ (s : SerialId) (r : ρ), Resource.id (assign s r) = s

end ResourceIndex
