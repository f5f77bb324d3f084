import DefFlow.Diagnostic.Basic

/-!
# What an editor shows

Editors count lines and characters from zero in 32 bits. A diagnostic becomes a
mark with one message that also holds the suggestions, notes and help.
-/

set_option autoImplicit false

namespace DefFlow.Editor

structure Range where
  startLine : UInt32
  startChar : UInt32
  endLine : UInt32
  endChar : UInt32
  deriving DecidableEq, Repr

structure Mark where
  range : Range
  severity : Nat
  code : String
  source : String
  message : String
  deriving DecidableEq, Repr

def severityOf : Level → Nat
  | .warning => 2
  | .note => 3
  | .help => 4
  | _ => 1

/-- A number from one on, counted from zero in 64 bits and cut to 32; what lies before
counts as zero. -/
def fromZero (n : Int) : UInt32 := UInt32.ofNat ((n - 1).bmod UInt64.size).toNat

def markMessage (d : Diagnostic) : String :=
  "\n".intercalate (d.message :: d.suggestions.map Suggestion.message ++ d.notes ++
    if d.help.isEmpty then [] else [d.help])

def Mark.ofDiagnostic (d : Diagnostic) : Mark :=
  let length := if d.length ≤ 0 then 1 else d.length.toNat
  let line := fromZero d.location.line
  let char := fromZero d.location.column
  { range := ⟨line, char, line, char + UInt32.ofNat length⟩
    severity := severityOf d.level
    code := d.code
    source := "strata"
    message := markMessage d }

end DefFlow.Editor
