import ResourceIndex.Identifier.Serial
import ResourceIndex.Text.Quoted

set_option autoImplicit false

/-! # Records

The plainest of resources: an identifier with a tag of text.
-/

namespace ResourceIndex

/-- An identifier with a tag. -/
structure Record (ι : Type) where
  id : ι
  tag : String
  deriving DecidableEq

namespace Record

variable {ι : Type}

instance : Resource (Record ι) ι := ⟨Record.id⟩

instance : Serialized (Record SerialId) where
  assign s r := { r with id := s }
  id_assign _ _ := rfl

instance [Describe ι] : Describe (Record ι) where
  outline r := .node "Rec" [("id", Describe.outline r.id), ("tag", .atom (Text.quote r.tag))]

end Record

end ResourceIndex
