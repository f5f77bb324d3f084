import DefFlow.Text.Utf8

/-!
# Edit distance

The least number of bytes to insert, delete or exchange to get from one text to
another, computed row by row: entry `j` of a row is the distance from the bytes
read so far to the first `j` bytes of the other text.
-/

set_option autoImplicit false

namespace DefFlow.Text

/-- The rest of a row, from the entries to the upper left and to the left. -/
def rowRest (x : UInt8) (corner left : Nat) : List UInt8 → List Nat → List Nat
  | y :: ys, above :: row =>
    let entry := min (min (above + 1) (left + 1)) (corner + if x = y then 0 else 1)
    entry :: rowRest x above entry ys row
  | _, _ => []

/-- The row after one more byte `x` has been read. -/
def nextRow (ys : List UInt8) (row : List Nat) (x : UInt8) : List Nat :=
  match row with
  | corner :: above => (corner + 1) :: rowRest x corner (corner + 1) ys above
  | [] => []

def byteDistance (xs ys : List UInt8) : Nat :=
  (xs.foldl (nextRow ys) (List.range (ys.length + 1))).getLast?.getD 0

def editDistance (a b : String) : Nat := byteDistance (bytes a) (bytes b)

/-- The other names of more than one byte that are at most two edits away. -/
def similarNames (name : String) (candidates : List String) : List String :=
  candidates.filter fun c => c ≠ name && editDistance name c ≤ 2 && 1 < c.utf8ByteSize

end DefFlow.Text
