/-!
# Numbers with fixed decimal places

Writes a nonnegative number with a given number of decimal places, rounded from
its exact value; a half goes to the even neighbour.
-/

set_option autoImplicit false

namespace DefFlow.Text

/-- The quotient rounded to the nearest integer, a half to the even one. -/
def roundDiv (num den : Nat) : Nat :=
  let q := num / den
  let r := num % den
  if 2 * r < den || (2 * r = den && q % 2 = 0) then q else q + 1

/-- What the bits of a normal number leave out of its mantissa. -/
def hiddenBit : Nat := 4503599627370496

/-- A finite nonnegative number as `m * 2 ^ e / 2 ^ 1074`. -/
def scaledBits (x : Float) : Nat × Nat :=
  let bits := x.toBits.toNat
  let exponent := bits / hiddenBit % 2048
  let fraction := bits % hiddenBit
  if exponent = 0 then (fraction, 0) else (fraction + hiddenBit, exponent - 1)

/-- Digits with a point before the last `places` of them. -/
def pointed (places n : Nat) : String :=
  let part := toString (n % Nat.pow 10 places)
  toString (n / Nat.pow 10 places) ++ "." ++ "".pushn '0' (places - part.length) ++ part

def fixedPlaces (places : Nat) (x : Float) : String :=
  let (m, e) := scaledBits x
  pointed places (roundDiv (m * Nat.pow 2 e * Nat.pow 10 places) (Nat.pow 2 1074))

end DefFlow.Text
