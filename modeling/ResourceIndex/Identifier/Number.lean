import ResourceIndex.Identifier.Basic
import ResourceIndex.Text.Outline

set_option autoImplicit false

/-! # Integers as identifiers

An integer identifier is a bit pattern of a fixed width, read as an unsigned or a signed
integer. It is hashed by folding its pattern, extended by zeros, so that the sign plays no
part in it.
-/

namespace ResourceIndex

/-- A kind of integer identifier: the integers it is made of, the width of the smallest index,
and the number of low bits that are ever set. -/
structure NumberKind where
  bits : Nat
  signed : Bool
  indexWidth : Nat
  valueWidth : Nat
  indexWidth_lt : indexWidth < 63 := by decide

/-- An identifier of the kind `k`, by its bit pattern. -/
structure NumberId (k : NumberKind) where
  pattern : BitVec k.bits
  deriving DecidableEq

namespace NumberId

variable {k : NumberKind}

/-- The identifier of an integer, which is wrapped to the width of the kind. -/
def ofInt (n : Int) : NumberId k := ⟨BitVec.ofInt k.bits n⟩

/-- The integer that the pattern stands for. -/
def value (a : NumberId k) : Int :=
  if k.signed then a.pattern.toInt else a.pattern.toNat

/-- The pattern extended by zeros to a word. -/
def word (a : NumberId k) : Word := a.pattern.setWidth 64

/-- Identifiers are ordered by the integers they stand for. -/
instance : Ord (NumberId k) := ⟨fun a b => compare a.value b.value⟩

instance : Identifier (NumberId k) where
  widths := ⟨k.indexWidth, 64, Nat.le_trans (Nat.le_of_lt k.indexWidth_lt) (by decide),
    k.indexWidth_lt⟩
  hash? a := some (fold k.indexWidth k.valueWidth a.word)
  same a b := a.pattern == b.pattern

instance : Describe (NumberId k) := ⟨fun a => .atom ("IntId(" ++ toString a.value ++ ")")⟩

end NumberId

end ResourceIndex
