import DefFlow.Yaml.Cursor

/-!
# Points in time

Which texts name a point in time: a date of year, month and day, alone or with a time
of day behind it. Behind a letter `T` a time needs a zone, behind blanks it has none.
-/

set_option autoImplicit false

namespace DefFlow.Yaml.Timestamp

/-- A number of one or two digits. -/
def number? : List Char → Option (Nat × List Char)
  | a :: b :: rest =>
    if !isDigit a then none
    else if isDigit b then some ((a.toNat - 48) * 10 + (b.toNat - 48), rest)
    else some (a.toNat - 48, b :: rest)
  | [a] => if isDigit a then some (a.toNat - 48, []) else none
  | [] => none

def mark? (c : Char) : List Char → Option (List Char)
  | d :: rest => if c = d then some rest else none
  | [] => none

/-- A number below a limit. -/
def below? (limit : Nat) (cs : List Char) : Option (List Char) := do
  let (n, rest) ← number? cs
  if n < limit then some rest else none

/-- A part of a second behind a point or a comma; it may be missing. -/
def dropFraction : List Char → List Char
  | mark :: d :: rest =>
    if (mark = '.' || mark = ',') && isDigit d then rest.dropWhile isDigit
    else mark :: d :: rest
  | cs => cs

def timeOfDay? (cs : List Char) : Option (List Char) := do
  let rest ← below? 24 cs
  let rest ← below? 60 (← mark? ':' rest)
  let rest ← below? 60 (← mark? ':' rest)
  return dropFraction rest

/-- A zone: `Z`, or a sign, two digits of hours and two of minutes. -/
def isZone : List Char → Bool
  | ['Z'] => true
  | [sign, a, b, ':', c, d] =>
    (sign = '+' || sign = '-') && [a, b, c, d].all isDigit &&
      (a.toNat - 48) * 10 + (b.toNat - 48) ≤ 24 && (c.toNat - 48) * 10 + (d.toNat - 48) ≤ 60
  | _ => false

def isLeap (year : Nat) : Bool := year % 4 = 0 && (year % 100 ≠ 0 || year % 400 = 0)

def daysIn (year month : Nat) : Nat :=
  if month = 2 then if isLeap year then 29 else 28
  else if [4, 6, 9, 11].contains month then 30
  else 31

/-- Reads a date whose year has four digits. -/
def date? (cs : List Char) : Option (List Char) := do
  let year := cs.takeWhile isDigit
  if year.length ≠ 4 then none
  let (month, rest) ← number? (← mark? '-' (cs.drop 4))
  let (day, rest) ← number? (← mark? '-' rest)
  let year := year.foldl (fun n c => n * 10 + (c.toNat - 48)) 0
  if 1 ≤ month && month ≤ 12 && 1 ≤ day && day ≤ daysIn year month then some rest else none

/-- Whether a text names a point in time. -/
def accepts (s : String) : Bool :=
  match date? s.toList with
  | none => false
  | some [] => true
  | some (c :: rest) =>
    if c = 'T' || c = 't' then (timeOfDay? rest).any isZone
    else if c = ' ' then timeOfDay? (rest.dropWhile (· = ' ')) = some []
    else false

end DefFlow.Yaml.Timestamp
