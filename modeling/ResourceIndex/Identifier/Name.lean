import ResourceIndex.Hash.Lanes
import ResourceIndex.Identifier.Basic
import ResourceIndex.Log
import ResourceIndex.Text.Outline
import ResourceIndex.Text.Quoted

set_option autoImplicit false

/-! # Names as identifiers

A name identifier holds a text or is null. Texts are compared byte by byte and hashed by their
bytes; how a text is stored makes no difference to either. A null identifier matches nothing,
not even another null one, and its hash is zero.
-/

namespace ResourceIndex

/-- Whether an identifier keeps a copy of its text or refers to a text of its maker. -/
inductive Storage where
  | owned
  | borrowed
  deriving DecidableEq

/-- A null identifier, or a text with the way it is stored. -/
inductive NameId where
  | null
  | named (text : String) (storage : Storage)
  deriving DecidableEq

namespace NameId

/-- The text, if there is one. -/
def text? : NameId → Option String
  | null => none
  | named text _ => some text

/-- How the text is stored, if there is one. -/
def storage? : NameId → Option Storage
  | null => none
  | named _ storage => some storage

/-- The hash of a text: that of its bytes. -/
def hashText (text : String) : Word := hashBytes text.toUTF8.data.toList

/-- The text in quotes, or the mark that there is none. -/
def textOutline (a : NameId) : Outline := .atom (Text.optional (a.text?.map Text.quote))

instance : Identifier NameId where
  widths := ⟨nameIndexWidth, 64, by decide, by decide⟩
  hash? a := some (match a.text? with | none => 0 | some text => hashText text)
  same a b :=
    match a.text?, b.text? with
    | some s, some t => s == t
    | _, _ => false

instance : Describe NameId := ⟨fun a => .node "StringId" [("name", a.textOutline)]⟩

/-- The report on an identifier: nothing below level 3, its text from there on. -/
def report (a : NameId) (level : Nat) : List Log.Entry :=
  if 3 ≤ level then [⟨.info, "resource id", [("id", .text a.textOutline.line)]⟩] else []

end NameId

end ResourceIndex
