import DefFlow.Syntax.Position
import DefFlow.Text.LowerCase

/-!
# Diagnostics

A diagnostic is a message about a place of a source file, with a level, a code,
and suggestions, notes and help for the reader.
-/

set_option autoImplicit false

namespace DefFlow

inductive Level where
  | error
  | warning
  | note
  | help
  | other (text : String)
  deriving DecidableEq, Repr

namespace Level

def text : Level → String
  | .error => "error"
  | .warning => "warning"
  | .note => "note"
  | .help => "help"
  | .other text => text

def ofText : String → Level
  | "error" => .error
  | "warning" => .warning
  | "note" => .note
  | "help" => .help
  | text => .other text

/-- Reads a level from a configuration, in any case; what is no level counts as
an error. -/
def ofSetting (s : String) : Level :=
  match ofText (Text.lowerCase s) with
  | .other _ => .error
  | level => level

end Level

/-- A place in a file. Places given from outside need not lie in the text. -/
structure Location where
  file : String
  line : Int
  column : Int
  offset : Int
  deriving DecidableEq, Repr, Inhabited

namespace Location

def ofPosition (file : String) (p : Syntax.Position) : Location :=
  ⟨file, p.line, p.column, p.offset⟩

def text (l : Location) : String :=
  l.file ++ ":" ++ toString l.line ++ ":" ++ toString l.column

/-- Whether a place comes before another: by file, line and column. -/
def before (a b : Location) : Bool :=
  if a.file ≠ b.file then a.file < b.file
  else if a.line ≠ b.line then a.line < b.line
  else a.column < b.column

end Location

structure Suggestion where
  message : String
  replacement : String
  location : Location
  length : Int
  deriving DecidableEq, Repr

def Suggestion.plain (message : String) : Suggestion := ⟨message, "", default, 0⟩

structure Diagnostic where
  level : Level
  code : String
  message : String
  location : Location
  length : Int
  suggestions : List Suggestion
  notes : List String
  help : String
  deriving DecidableEq, Repr

namespace Diagnostic

def new (level : Level) (code message : String) (location : Location) : Diagnostic :=
  ⟨level, code, message, location, 1, [], [], ""⟩

def text (d : Diagnostic) : String :=
  let code := if d.code.isEmpty then "" else "[" ++ d.code ++ "]"
  d.location.text ++ ": " ++ d.level.text ++ code ++ ": " ++ d.message

/-- In the order of the places; diagnostics of one place keep their order. -/
def sort (ds : List Diagnostic) : List Diagnostic :=
  ds.mergeSort fun a b => !b.location.before a.location

def anyError (ds : List Diagnostic) : Bool := ds.any fun d => d.level = .error

end Diagnostic
end DefFlow
