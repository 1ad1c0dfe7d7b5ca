import ResourceIndex.Identifier.Basic
import ResourceIndex.Text.Outline
import ResourceIndex.Text.Quoted

set_option autoImplicit false

/-! # Identifiers that carry their hash

A keyed identifier holds an optional key and, beside it, its hash, which may be unavailable.
Nothing ties the two together, so equal keys may have unequal hashes and all keys may have
one hash. An identifier without a key matches nothing.
-/

namespace ResourceIndex

/-- An optional key with the hash to be used for it, for tables of the widths `w`. -/
structure KeyedId (w : IndexWidths) where
  key : Option UInt64
  hash : Option UInt64
  deriving DecidableEq

namespace KeyedId

variable {w : IndexWidths}

instance : Identifier (KeyedId w) where
  widths := w
  hash? a := a.hash.map UInt64.toBitVec
  same a b := a.key.isSome && a.key == b.key

/-- The text of the hash, or a mark that asking for it fails. -/
def hashText (a : KeyedId w) : String :=
  match a.hash with
  | none => "panic"
  | some h => toString h.toNat

instance : Describe (KeyedId w) where
  outline a := .node "Custom"
    [("key", .atom (Text.optional (a.key.map fun key => toString key.toNat))),
     ("hash", .atom a.hashText)]

end KeyedId

end ResourceIndex
