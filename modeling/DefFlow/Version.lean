import DefFlow.Syntax.Token

/-!
# Format versions

A version is one to three numbers of at most 64 bits with dots between them,
after an optional `v` and before optional build metadata. Supported are the
versions whose first number is one; a version before a release never is.
-/

set_option autoImplicit false

namespace DefFlow.Version

def constraint : String := ">= 1.0.0, < 2.0.0"

/-- Reads a number of at most 64 bits. -/
def number? (cs : List Char) : Option (Nat × List Char) :=
  let digits := cs.takeWhile Syntax.Lexeme.isDigit
  let n := digits.foldl (fun acc c => acc * 10 + (c.toNat - 48)) 0
  if digits.isEmpty || UInt64.size ≤ n then none else some (n, cs.dropWhile Syntax.Lexeme.isDigit)

/-- Reads at most `limit` numbers, each behind a dot. -/
def further? : Nat → List Char → Option (List Char)
  | 0, cs => some cs
  | limit+1, '.' :: cs => (number? cs).bind fun (_, rest) => further? limit rest
  | _, cs => some cs

def isMetaChar (c : Char) : Bool := c.isAlphanum || c = '-'

/-- Parts of letters, digits and hyphens, with dots between them. -/
def isMetadata (cs : List Char) : Bool :=
  ((String.ofList cs).splitOn ".").all fun part => !part.isEmpty && part.toList.all isMetaChar

def isSupported (text : String) : Bool :=
  let cs := match text.toList with
    | 'v' :: cs => cs
    | cs => cs
  match number? cs with
  | none => false
  | some (major, rest) =>
    match further? 2 rest with
    | some [] => major = 1
    | some ('+' :: metadata) => major = 1 && isMetadata metadata
    | _ => false

end DefFlow.Version
