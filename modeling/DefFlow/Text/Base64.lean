/-!
# Base 64

Bytes written in groups of four letters, six bits each; the last group is filled up
with equal signs. Line breaks between the letters mean nothing.
-/

set_option autoImplicit false

namespace DefFlow.Text

/-- The six bits that a letter stands for. -/
def sextet? (c : Char) : Option Nat :=
  if 'A' ≤ c && c ≤ 'Z' then some (c.toNat - 65)
  else if 'a' ≤ c && c ≤ 'z' then some (c.toNat - 71)
  else if '0' ≤ c && c ≤ '9' then some (c.toNat + 4)
  else if c = '+' then some 62
  else if c = '/' then some 63
  else none

/-- The first `count` bytes of the 24 bits of a group. -/
def groupBytes (count a b c d : Nat) : List UInt8 :=
  let n := ((a * 64 + b) * 64 + c) * 64 + d
  [UInt8.ofNat (n / 65536), UInt8.ofNat (n / 256), UInt8.ofNat n].take count

def base64Groups : List Char → Option (List UInt8)
  | [] => some []
  | [a, b, '=', '='] => do return groupBytes 1 (← sextet? a) (← sextet? b) 0 0
  | [a, b, c, '='] => do return groupBytes 2 (← sextet? a) (← sextet? b) (← sextet? c) 0
  | a :: b :: c :: d :: rest => do
    let group := groupBytes 3 (← sextet? a) (← sextet? b) (← sextet? c) (← sextet? d)
    return group ++ (← base64Groups rest)
  | _ => none

/-- The bytes that a text in base 64 stands for. -/
def base64Bytes? (s : String) : Option (List UInt8) :=
  base64Groups (s.toList.filter fun c => c ≠ '\n' && c ≠ '\r')

end DefFlow.Text
