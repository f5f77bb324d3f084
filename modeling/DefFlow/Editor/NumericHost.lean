import DefFlow.Text.Utf8

/-!
# Numeric hosts

The numbers of a host, in four decimal fields divided by points or in eight
hexadecimal fields divided by colons. Two colons stand once for fields of zeros,
the last two hexadecimal fields may be written as four decimal ones, and a zone may
follow behind a percent sign. What is wrong is reported with the text from there on.
-/

set_option autoImplicit false

namespace DefFlow.Editor.NumericHost

inductive Kind where
  | decimal
  | hexadecimal
  deriving DecidableEq, Repr

inductive Cause where
  | noAddress
  | missingAddress
  | emptyZone
  | leadingZero
  | largeField
  | emptyField
  | longDecimal
  | shortDecimal
  | unexpected
  | longGroup
  | emptyGroup
  | misplacedDecimal
  | noRoomForDecimal
  | wantColon
  | colonAtEnd
  | manyGaps
  | trailing
  | short
  | emptyGap
  deriving DecidableEq, Repr

def Cause.message : Cause → String
  | .noAddress => "unable to parse IP"
  | .missingAddress => "missing IPv6 address"
  | .emptyZone => "zone must be a non-empty string"
  | .leadingZero => "IPv4 field has octet with leading zero"
  | .largeField => "IPv4 field has value >255"
  | .emptyField => "IPv4 field must have at least one digit"
  | .longDecimal => "IPv4 address too long"
  | .shortDecimal => "IPv4 address too short"
  | .unexpected => "unexpected character"
  | .longGroup => "each group must have 4 or less digits"
  | .emptyGroup => "each colon-separated field must have at least one digit"
  | .misplacedDecimal =>
    "embedded IPv4 address must replace the final 2 fields of the address"
  | .noRoomForDecimal =>
    "too many hex fields to fit an embedded IPv4 at the end of the address"
  | .wantColon => "unexpected character, want colon"
  | .colonAtEnd => "colon must be followed by more characters"
  | .manyGaps => "multiple :: in address"
  | .trailing => "trailing garbage after address"
  | .short => "address string too short"
  | .emptyGap => "the :: must expand to at least one field of zeros"

/-- What is wrong with a host, and the text that shows it. -/
structure Fault where
  cause : Cause
  shown : List UInt8
  deriving DecidableEq, Repr

def Fault.message (given : List UInt8) (f : Fault) : String :=
  "ParseAddr(" ++ Text.quoteBytes given ++ "): " ++ f.cause.message ++
    if f.shown.isEmpty then "" else " (at " ++ Text.quoteBytes f.shown ++ ")"

def dot : UInt8 := 0x2e

def colon : UInt8 := 0x3a

def percent : UInt8 := 0x25

def isDecimal (b : UInt8) : Bool := 0x30 ≤ b && b ≤ 0x39

def isHexadecimal (b : UInt8) : Bool :=
  isDecimal b || (0x61 ≤ b && b ≤ 0x66) || (0x41 ≤ b && b ≤ 0x46)

/-- Reads four decimal fields. `field` is the value of the digits read since the last
point, if there are any, and `done` is how many fields have ended. -/
def decimalFields : (done : Nat) → (field : Option Nat) → List UInt8 → Except Fault Unit
  | done, _, [] => if done < 3 then .error ⟨.shortDecimal, []⟩ else .ok ()
  | done, field, b :: rest =>
    if isDecimal b then
      let value := field.getD 0 * 10 + (b.toNat - 0x30)
      if field = some 0 then .error ⟨.leadingZero, []⟩
      else if 255 < value then .error ⟨.largeField, []⟩
      else decimalFields done (some value) rest
    else if b = dot then
      if field.isNone || rest.isEmpty then .error ⟨.emptyField, b :: rest⟩
      else if done = 3 then .error ⟨.longDecimal, []⟩
      else decimalFields (done + 1) none rest
    else .error ⟨.unexpected, b :: rest⟩

/-- The end of a hexadecimal address that has room for `left` more fields. -/
def finish (gap : Bool) (left : Nat) : List UInt8 → Except Fault Unit
  | b :: rest => .error ⟨.trailing, b :: rest⟩
  | [] =>
    if left = 0 then if gap then .error ⟨.emptyGap, []⟩ else .ok ()
    else if gap then .ok () else .error ⟨.short, []⟩

/-- Reads hexadecimal fields as long as there is room for one; `gap` tells that fields
have been left out. -/
def groups (gap : Bool) : (left : Nat) → List UInt8 → Except Fault Unit
  | 0, s => finish gap 0 s
  | left+1, s =>
    let digits := s.takeWhile isHexadecimal
    if 4 < digits.length then .error ⟨.longGroup, s⟩
    else if digits.isEmpty then .error ⟨.emptyGroup, s⟩
    else
      match s.drop digits.length with
      | [] => finish gap left []
      | b :: rest =>
        if b = dot then
          if !gap && left ≠ 1 then .error ⟨.misplacedDecimal, s⟩
          else if left < 1 then .error ⟨.noRoomForDecimal, s⟩
          else do
            decimalFields 0 none s
            finish gap (left - 1) []
        else if b ≠ colon then .error ⟨.wantColon, b :: rest⟩
        else
          match rest with
          | [] => .error ⟨.colonAtEnd, [b]⟩
          | c :: more =>
            if c ≠ colon then groups gap left rest
            else if gap then .error ⟨.manyGaps, rest⟩
            else if more.isEmpty then finish true left []
            else groups true left more

def hexadecimalFields (s : List UInt8) : Except Fault Unit :=
  match s with
  | b :: c :: rest =>
    if b = colon && c = colon then
      if rest.isEmpty then .ok () else groups true 8 rest
    else groups false 8 s
  | _ => groups false 8 s

def hexadecimalAddress (s : List UInt8) : Except Fault Unit :=
  let address := s.takeWhile (· ≠ percent)
  match s.drop address.length with
  | [_] => .error ⟨.emptyZone, []⟩
  | _ => hexadecimalFields address

/-- Checks a numeric host; its first mark tells of which kind it is. -/
def kind (s : List UInt8) : Except Fault Kind := do
  match s.find? fun b => b = dot || b = colon || b = percent with
  | none => throw ⟨.noAddress, []⟩
  | some b =>
    if b = dot then
      decimalFields 0 none s
      return .decimal
    else if b = colon then
      hexadecimalAddress s
      return .hexadecimal
    else throw ⟨.missingAddress, []⟩

end DefFlow.Editor.NumericHost
