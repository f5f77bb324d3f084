import DefFlow.Text.Base64
import DefFlow.Text.Numeral
import DefFlow.Text.Utf8
import DefFlow.Yaml.Problem
import DefFlow.Yaml.Timestamp

/-!
# What scalars mean

A plain scalar without a tag is a null, a truth value, a number, a point in time or,
if it looks like none of these, a text. A tag says what it has to be.
-/

set_option autoImplicit false

namespace DefFlow.Yaml

inductive Value where
  | null
  | bool (b : Bool)
  | int (n : Int)
  | float (x : Float)
  | timestamp
  | text (s : String)

namespace Value

def tag : Value → String
  | .null => "!!null"
  | .bool _ => "!!bool"
  | .int _ => "!!int"
  | .float _ => "!!float"
  | .timestamp => "!!timestamp"
  | .text _ => "!!str"

/-! ## Integers -/

/-- Digits of a base with a sign, behind the mark of that base. -/
def markedInt? (base : Nat) (cs : List Char) : Option Int :=
  match cs with
  | '-' :: digits => (bounded digits Text.signedLimit).map fun n => -(n : Int)
  | '+' :: digits => (bounded digits (Text.signedLimit - 1)).map Int.ofNat
  | _ => none
where
  bounded (digits : List Char) (limit : Nat) : Option Nat :=
    if digits.isEmpty then none
    else (Text.magnitude base 0 digits).toOption.filter (· ≤ limit)

/-- An integer of 64 bits; only unsigned ones use the last bit for more. Behind a small
letter that marks a base a sign may stand. -/
def int? (cs : List Char) : Option Int :=
  match Text.numeral cs, Text.unsignedNumeral cs, cs with
  | .ok n, _, _ => some n
  | .error _, .ok n, _ => some n
  | _, _, '0' :: 'b' :: rest => markedInt? 2 rest
  | _, _, '0' :: 'o' :: rest => markedInt? 8 rest
  | _, _, _ => none

/-! ## Numbers with a point -/

def decimal (cs : List Char) : Nat := cs.foldl (fun n c => n * 10 + (c.toNat - 48)) 0

/-- A decimal exponent; a text without one has exponent zero. -/
def exponent? : List Char → Option Int
  | [] => some 0
  | e :: cs =>
    if e ≠ 'e' && e ≠ 'E' then none
    else
      let (negative, digits) := match cs with
        | '-' :: r => (true, r)
        | '+' :: r => (false, r)
        | r => (false, r)
      if digits.isEmpty || !digits.all isDigit then none
      else some (if negative then -(decimal digits : Int) else decimal digits)

/-- The number with some digits and a power of ten behind them, unless it is too large.
Beyond four hundred places nothing but zero or infinity is left. -/
def scaled? (digits : List Char) (exponent : Int) : Option Float :=
  let digits := digits.dropWhile (· = '0')
  let places := exponent + digits.length
  if digits.isEmpty || places < -400 then some 0.0
  else if 400 < places then none
  else
    let x := Float.ofScientific (decimal digits) (exponent < 0) exponent.natAbs
    if x.isInf then none else some x

def unsignedFloat? (cs : List Char) : Option Float := do
  let whole := cs.takeWhile isDigit
  let rest := cs.dropWhile isDigit
  let (part, rest) := match rest with
    | '.' :: r => (r.takeWhile isDigit, r.dropWhile isDigit)
    | r => ([], r)
  if whole.isEmpty && part.isEmpty then none
  scaled? (whole ++ part) ((← exponent? rest) - part.length)

def float? : List Char → Option Float
  | '-' :: cs => (unsignedFloat? cs).map (- ·)
  | '+' :: cs => unsignedFloat? cs
  | cs => unsignedFloat? cs

/-- Whether every underscore stands between two digits; `after` tells that a digit
stands in front. -/
def spaced (after : Bool) : List Char → Bool
  | [] => true
  | '_' :: d :: rest => after && isDigit d && spaced false (d :: rest)
  | c :: rest => c ≠ '_' && spaced (isDigit c) rest

def infinity : Float := 1.0 / 0.0

/-! ## Plain scalars -/

def special? : String → Option Value
  | "" | "~" | "null" | "Null" | "NULL" => some .null
  | "true" | "True" | "TRUE" => some (.bool true)
  | "false" | "False" | "FALSE" => some (.bool false)
  | ".nan" | ".NaN" | ".NAN" => some (.float (0.0 / 0.0))
  | ".inf" | ".Inf" | ".INF" | "+.inf" | "+.Inf" | "+.INF" => some (.float infinity)
  | "-.inf" | "-.Inf" | "-.INF" => some (.float (-infinity))
  | _ => none

/-- A number without the underscores in it. -/
def number? (cs : List Char) : Option Value :=
  let cs := cs.filter (· ≠ '_')
  match int? cs with
  | some n => some (.int n)
  | none => (float? cs).map .float

/-- What a plain scalar means. Dates count only if they are asked for. In a number that
starts with a point, underscores have to stand between digits. -/
def ofPlain (dates : Bool) (s : String) : Value :=
  match special? s with
  | some v => v
  | none =>
    match s.toList with
    | '.' :: rest =>
      match if spaced false rest then float? (('.' :: rest).filter (· ≠ '_')) else none with
      | some x => .float x
      | none => .text s
    | c :: _ =>
      if !isDigit c && c ≠ '+' && c ≠ '-' then .text s
      else if dates && Timestamp.accepts s then .timestamp
      else (number? s.toList).getD (.text s)
    | [] => .text s

def plainTag (s : String) : String := (ofPlain true s).tag

/-! ## Tagged scalars -/

/-- The tags whose scalars are read like plain ones. -/
def readTags : List String := ["!!bool", "!!int", "!!float", "!!null", "!!timestamp"]

/-- What a scalar with a tag means. An integer of 64 bits may stand for any number, and
what has a tag of its own is a text. -/
def ofTagged (tag s : String) : Except Problem Value :=
  if tag = "!!binary" then
    match Text.base64Bytes? s with
    | some bytes => .ok (.text (Text.ofBytes bytes))
    | none => .error .binaryText
  else if readTags.contains tag then
    match ofPlain (tag = "!!timestamp") s with
    | .int n =>
      if tag = "!!int" then .ok (.int n)
      else if tag = "!!float" && n < Text.signedLimit then .ok (.float (Float.ofInt n))
      else .error (.wrongTag "!!int" s tag)
    | v => if v.tag = tag then .ok v else .error (.wrongTag v.tag s tag)
  else .ok (.text s)

end Value
end DefFlow.Yaml
