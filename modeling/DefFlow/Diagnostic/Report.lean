import DefFlow.Diagnostic.Basic

/-!
# Reports

A report shows a diagnostic with the line it is about between its neighbours, a
marker under the span, and the suggestions, notes and help, in colors if these
are wanted.
-/

set_option autoImplicit false

namespace DefFlow

inductive Style where
  | bold
  | faint
  | red
  | green
  | yellow
  | blue
  | cyan
  deriving DecidableEq, Repr

namespace Style

/-- The terminal codes that switch a style on and off. -/
def codes : Style → String × String
  | .bold => ("1", "22")
  | .faint => ("2", "22")
  | .red => ("31", "0")
  | .green => ("32", "0")
  | .yellow => ("33", "0")
  | .blue => ("34", "0")
  | .cyan => ("36", "0")

end Style

/-- Wraps a text in the codes of some styles, if colors are on. -/
def paint (colors : Bool) (styles : List Style) (text : String) : String :=
  if colors then
    "\x1b[" ++ ";".intercalate (styles.map fun s => s.codes.1) ++ "m" ++ text ++
      "\x1b[" ++ ";".intercalate (styles.map fun s => s.codes.2) ++ "m"
  else text

structure Reporter where
  file : String
  lines : List String
  colors : Bool

namespace Reporter

def new (file source : String) (colors : Bool) : Reporter := ⟨file, source.splitOn "\n", colors⟩

def dim (r : Reporter) (text : String) : String := paint r.colors [.faint] text

def bar (r : Reporter) : String := r.dim "│"

def spaces (n : Nat) : String := "".pushn ' ' n

def rightAligned (width : Nat) (n : Int) : String :=
  let digits := toString n
  spaces (width - digits.length) ++ digits

def levelStyles : Level → List Style
  | .warning => [.yellow, .bold]
  | .note => [.blue, .bold]
  | .help => [.green, .bold]
  | _ => [.red, .bold]

def markerStyles : Level → List Style
  | .warning => [.yellow, .bold]
  | _ => [.red, .bold]

/-- The width of the line numbers, at least three. The number of the next line is one
of 64 bits, so the last line has the lowest number behind it. -/
def numberWidth (line : Int) : Nat :=
  max 3 (toString ((line + 1).bmod UInt64.size)).length

def header (r : Reporter) (d : Diagnostic) : String :=
  let code := if d.code.isEmpty then "" else "[" ++ d.code ++ "]"
  paint r.colors (levelStyles d.level) d.level.text ++ code ++ ": " ++ d.message ++ "\n"

def marker (r : Reporter) (d : Diagnostic) : String :=
  let length := if d.length ≤ 0 then 1 else d.length.toNat
  spaces (d.location.column - 1).toNat ++
    paint r.colors (markerStyles d.level) ("".pushn '^' length)

/-- A numbered line of the file, if there is one. -/
def numbered (r : Reporter) (width : Nat) (style : Style) (line : Int) : String :=
  if line ≤ 0 then ""
  else match r.lines[(line - 1).toNat]? with
    | some text =>
      paint r.colors [style] (rightAligned width line) ++ " " ++ r.bar ++ " " ++ text ++ "\n"
    | none => ""

def sourceLines (r : Reporter) (d : Diagnostic) (width : Nat) : String :=
  let line := d.location.line
  let here := r.numbered width .bold line
  r.numbered width .faint (line - 1) ++ here ++
    (if here.isEmpty then "" else
      spaces width ++ " " ++ r.bar ++ " " ++ r.marker d ++ "\n" ++
        r.numbered width .faint (line + 1))

def suggestion (r : Reporter) (indent : String) (index : Nat) (s : Suggestion) : String :=
  let cyan := paint r.colors [.cyan]
  let message :=
    if index = 0 then indent ++ " " ++ cyan "help" ++ " " ++ cyan "try" ++ ": " ++ s.message
    else indent ++ " " ++ cyan "    " ++ " " ++ s.message
  let replacement :=
    if s.replacement.isEmpty then ""
    else
      let shown := ("\n" ++ indent ++ " " ++ r.bar ++ " ").intercalate (s.replacement.splitOn "\n")
      indent ++ " " ++ r.bar ++ "\n" ++ indent ++ " " ++ cyan "│" ++ " " ++ cyan shown ++ "\n"
  message ++ "\n" ++ replacement

def suggestions (r : Reporter) (indent : String) (ss : List Suggestion) : String :=
  if ss.isEmpty then ""
  else indent ++ " " ++ r.bar ++ "\n" ++
    String.join (ss.zipIdx.map fun (s, i) => r.suggestion indent i s)

def remark (r : Reporter) (indent : String) (style : Style) (title text : String) : String :=
  indent ++ " " ++ r.bar ++ " " ++ paint r.colors [style] title ++ " " ++ text ++ "\n"

def entry (r : Reporter) (d : Diagnostic) : String :=
  let width := numberWidth d.location.line
  let indent := spaces width
  r.header d ++
    indent ++ " " ++ r.dim "-->" ++ " " ++
      { d.location with file := r.file }.text ++ "\n" ++
    indent ++ " " ++ r.bar ++ "\n" ++
    r.sourceLines d width ++
    r.suggestions indent d.suggestions ++
    String.join (d.notes.map (r.remark indent .blue "note:")) ++
    (if d.help.isEmpty then "" else r.remark indent .green "help:" d.help) ++
    "\n"

def report (r : Reporter) (ds : List Diagnostic) : String := String.join (ds.map r.entry)

end Reporter
end DefFlow
