set_option autoImplicit false

/-! # Outlines of values

For diagnostics a value is described by an outline: an atom of text, or a name with labelled
parts. An outline is written on one line, `Name { label: part, label: part }`, or as a block
with one part on a line, indented by four blanks for each level and followed by a comma.
-/

namespace ResourceIndex

/-- An atom of text, or a name with labelled parts. -/
inductive Outline where
  | atom (text : String)
  | node (name : String) (parts : List (String × Outline))

namespace Outline

mutual

/-- The outline on one line. -/
def line : Outline → String
  | atom text => text
  | node name parts => name ++ " \x7b " ++ ", ".intercalate (lineParts parts) ++ " \x7d"

/-- The labelled parts, each on one line. -/
def lineParts : List (String × Outline) → List String
  | [] => []
  | (label, part) :: rest => (label ++ ": " ++ line part) :: lineParts rest

end

/-- The blanks before a line of the level `depth`. -/
def indent (depth : Nat) : String := "".pushn ' ' (4 * depth)

mutual

/-- The outline as a block whose first line stands at the level `depth`. The first line itself
is not indented, since a label may stand before it. -/
def blockAt (depth : Nat) : Outline → String
  | atom text => text
  | node name parts =>
    name ++ " \x7b\n" ++ String.join (blockParts (depth + 1) parts) ++ indent depth ++ "\x7d"

/-- The labelled parts, each indented, with its comma and the end of its line. -/
def blockParts (depth : Nat) : List (String × Outline) → List String
  | [] => []
  | (label, part) :: rest =>
    (indent depth ++ label ++ ": " ++ blockAt depth part ++ ",\n") :: blockParts depth rest

end

/-- The outline as a block. -/
def block (o : Outline) : String := o.blockAt 0

end Outline

/-- Values that can be described in diagnostics. -/
class Describe (α : Type) where
  /-- The outline of a value. -/
  outline : α → Outline

/-- The description of a value on one line. -/
def describe {α : Type} [Describe α] (a : α) : String := (Describe.outline a).line

end ResourceIndex
