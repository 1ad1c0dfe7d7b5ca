set_option autoImplicit false

/-! # Quoted text

Text between double quotes, with escapes for what could end it or would not be seen: a quote,
a backslash, the control characters, and the combining marks, which would otherwise attach
to the character before them. The control characters that have a letter of their own use it;
the others, and the marks, are written by number.
-/

namespace ResourceIndex.Text

/-- The control characters, those of the seven-bit range and those after it. -/
def isControl (c : Char) : Bool :=
  c.toNat < 0x20 || (0x7f ≤ c.toNat && c.toNat < 0xa0)

/-- The combining diacritical marks. -/
def isCombining (c : Char) : Bool :=
  0x300 ≤ c.toNat && c.toNat < 0x370

/-- An escape by number: the lower-case hexadecimal digits, without leading zeros. -/
def escapeByNumber (c : Char) : String :=
  "\\u\x7b" ++ String.ofList (Nat.toDigits 16 c.toNat) ++ "\x7d"

/-- What stands for a character between the quotes. -/
def escape (c : Char) : String :=
  if c = '"' then "\\\""
  else if c = '\\' then "\\\\"
  else if c = '\n' then "\\n"
  else if c = '\r' then "\\r"
  else if c = '\t' then "\\t"
  else if c = Char.ofNat 0 then "\\0"
  else if isControl c || isCombining c then escapeByNumber c
  else c.toString

/-- The text between quotes, escaped character by character. -/
def quote (s : String) : String :=
  "\"" ++ String.join (s.toList.map escape) ++ "\""

/-- A value that may be missing: its text inside `Some(…)`, or `None`. -/
def optional : Option String → String
  | none => "None"
  | some text => "Some(" ++ text ++ ")"

end ResourceIndex.Text
