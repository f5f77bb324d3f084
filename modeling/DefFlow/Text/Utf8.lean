import DefFlow.Text.Quoted

/-!
# Bytes as text

Bytes that need not be well formed are read as a list of characters and of bytes
that belong to none. A text that must be shown anyway has a mark for every such
byte; a quoted one has an escape.
-/

set_option autoImplicit false

namespace DefFlow.Text

/-- A character, or a byte that belongs to no character. -/
inductive Piece where
  | char (c : Char)
  | stray (b : UInt8)
  deriving DecidableEq, Repr

/-- The bytes of a text. -/
def bytes (s : String) : List UInt8 := s.toUTF8.toList

/-- The character that exactly these bytes write. -/
def charOfBytes? (bs : List UInt8) : Option Char :=
  match String.fromUTF8? ⟨bs.toArray⟩ with
  | some s =>
    match s.toList with
    | [c] => some c
    | _ => none
  | none => none

/-- The character at the start of some bytes and how many bytes follow its first. -/
def leadingChar? (bs : List UInt8) : Option (Char × Nat) :=
  [0, 1, 2, 3].findSome? fun more => (charOfBytes? (bs.take (more + 1))).map fun c => (c, more)

def pieces : List UInt8 → List Piece
  | [] => []
  | b :: rest =>
    match leadingChar? (b :: rest) with
    | some (c, more) => .char c :: pieces (rest.drop more)
    | none => .stray b :: pieces rest
termination_by bs => bs.length
decreasing_by all_goals simp only [List.length_cons, List.length_drop]; omega

def ofBytes (bs : List UInt8) : String :=
  String.ofList ((pieces bs).map fun
    | .char c => c
    | .stray _ => '\ufffd')

def quoteBytes (bs : List UInt8) : String :=
  "\"" ++ String.ofList ((pieces bs).flatMap fun
    | .char c => escape c
    | .stray b => '\\' :: 'x' :: hexDigits 2 b.toNat) ++ "\""

end DefFlow.Text
