import DefFlow.Text.Quoted

/-!
# Settings

The settings of the tools, their defaults and their allowed ranges.
-/

set_option autoImplicit false

namespace DefFlow

structure Settings where
  verbosity : Int
  logFile : String
  color : Bool
  /-- How many functions are built at the same time; the result never depends on
  it. -/
  workers : Int
  /-- Whether functions are flattened before their uses are resolved. -/
  flatten : Bool
  /-- Whether functions without problems are frozen. -/
  freeze : Bool
  /-- Whether joins are built before a function is printed. -/
  resolve : Bool
  /-- The level of uses that lack a definition on some path. -/
  possiblyUndefined : String
  deriving DecidableEq, Repr, Inhabited

namespace Settings

def standard : Settings where
  verbosity := 0
  logFile := ""
  color := true
  workers := 4
  flatten := false
  freeze := true
  resolve := true
  possiblyUndefined := "warning"

/-- The first setting that is out of its range. -/
def problem? (s : Settings) : Option String :=
  if s.workers < 1 then
    some s!"invalid config: workers must be at least 1, got {s.workers}"
  else if s.verbosity < 0 then
    some s!"invalid config: verbosity must not be negative, got {s.verbosity}"
  else if s.possiblyUndefined ≠ "error" && s.possiblyUndefined ≠ "warning" then
    some ("invalid config: diagnostics.possibly_undefined must be error or warning, got " ++
      Text.quote s.possiblyUndefined)
  else none

end Settings
end DefFlow
