set_option autoImplicit false

/-! # Numbers with a fixed count of places

A double is a fraction with a power of two below, so its decimal text with a given count of
places is found in exact arithmetic: the fraction is scaled by the power of ten and rounded to
the nearest whole number, a half going to the even neighbour.
-/

namespace ResourceIndex.Text

/-- The whole number nearest to `num / den`, the even one of two. -/
def roundDiv (num den : Nat) : Nat :=
  if 2 * (num % den) < den ∨ (2 * (num % den) = den ∧ num / den % 2 = 0) then num / den
  else num / den + 1

/-- A number of `10 ^ -places` units, with a point before the last `places` digits. -/
def pointed (places units : Nat) : String :=
  let digits := toString (units % Nat.pow 10 places)
  toString (units / Nat.pow 10 places) ++ "." ++ "".pushn '0' (places - digits.length) ++ digits

/-- The magnitude of a finite double with the biased exponent `exponent` and the fraction field
`fraction`, in units of the least positive double, `2 ^ -1074`. -/
def magnitude (exponent fraction : Nat) : Nat :=
  if exponent = 0 then fraction else (Nat.pow 2 52 + fraction) * Nat.pow 2 (exponent - 1)

/-- The text of a double with `places` places. -/
def fixed (places : Nat) (x : Float) : String :=
  let bits := x.toBits.toNat
  let exponent := bits / Nat.pow 2 52 % Nat.pow 2 11
  let fraction := bits % Nat.pow 2 52
  let sign := if bits / Nat.pow 2 63 = 1 then "-" else ""
  if exponent = 2047 then
    if fraction = 0 then sign ++ "inf" else "NaN"
  else
    sign ++ pointed places
      (roundDiv (magnitude exponent fraction * Nat.pow 10 places) (Nat.pow 2 1074))

end ResourceIndex.Text
