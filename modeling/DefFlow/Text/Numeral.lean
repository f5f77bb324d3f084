import DefFlow.Text.Quoted

/-!
# Numerals

Integers of 64 bits as they are written in programs and options: a sign, the mark
of a base (`0x`, `0o`, `0b`, or a zero in front for octal digits) and digits with
single underscores between them. Digits are read from the left, so a number that
has grown too large is out of range whatever follows.
-/

set_option autoImplicit false

namespace DefFlow.Text

inductive NumeralError where
  | malformed
  | outOfRange
  deriving DecidableEq, Repr

def NumeralError.message : NumeralError → String
  | .malformed => "invalid syntax"
  | .outOfRange => "value out of range"

/-- The number of negative integers of 64 bits. -/
def signedLimit : Nat := 9223372036854775808

/-- Reads digits in a base onto the number read so far. -/
def magnitude (base : Nat) : Nat → List Char → Except NumeralError Nat
  | acc, [] => .ok acc
  | acc, c :: rest =>
    if c = '_' then magnitude base acc rest
    else
      match hexValue? c with
      | none => .error .malformed
      | some d =>
        if base ≤ d then .error .malformed
        else if UInt64.size ≤ acc * base + d then .error .outOfRange
        else magnitude base (acc * base + d) rest

/-- The base that a letter behind a leading zero marks. -/
def markedBase? (c : Char) : Option Nat :=
  if c = 'x' || c = 'X' then some 16
  else if c = 'o' || c = 'O' then some 8
  else if c = 'b' || c = 'B' then some 2
  else none

/-- The base of an unsigned numeral, its digits, and whether a mark stands in
front of them. -/
def splitBase : List Char → Nat × List Char × Bool
  | '0' :: c :: d :: rest =>
    match markedBase? c with
    | some base => (base, d :: rest, true)
    | none => (8, '0' :: c :: d :: rest, false)
  | '0' :: rest => (8, '0' :: rest, false)
  | cs => (10, cs, false)

/-- Whether every underscore stands between two digits; `after` tells that a digit
or a mark stands in front. -/
def separated : Bool → List Char → Bool
  | after, [] => after
  | after, c :: rest => if c = '_' then after && separated false rest else separated true rest

def unsignedNumeral (cs : List Char) : Except NumeralError Nat := do
  let (base, digits, marked) := splitBase cs
  if cs.isEmpty then .error .malformed
  let n ← magnitude base 0 digits
  if separated marked digits then return n else .error .malformed

/-- An integer of 64 bits. -/
def numeral (cs : List Char) : Except NumeralError Int :=
  match cs with
  | '-' :: digits => do
    let n ← unsignedNumeral digits
    if n ≤ signedLimit then return -(n : Int) else .error .outOfRange
  | '+' :: digits => positive digits
  | digits => positive digits
where
  positive (digits : List Char) : Except NumeralError Int := do
    let n ← unsignedNumeral digits
    if n < signedLimit then return (n : Int) else .error .outOfRange

end DefFlow.Text
